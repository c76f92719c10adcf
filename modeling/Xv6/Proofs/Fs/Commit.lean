import Mathlib.Data.Fintype.Card
import Xv6.Machine.Ensures
import Xv6.Model.Fs.Commit
import Xv6.Proofs.Fs.Bcache
import Xv6.Proofs.Fs.Log

/-! # Buffers during a commit

The buffers in use are those pinned for the blocks of the transaction and those that the process holds.
Each function of the cache is specified by what it does to the two sets.
-/

namespace Xv6.Fs.Bio

open Machine Bcache Finset

/-- The buffers in `p` are pinned, one for each of the blocks, and those in `h` are held. -/
structure InUse (dev : UInt32) (pins : List UInt32) (p h : Finset (Fin nbuf)) (c : Bcache) : Prop where
  placed : Placed c
  locked : ∀ i, (c.buf i).locked = decide (i ∈ h)
  count : ∀ i, (c.buf i).refcnt = (if i ∈ p then 1 else 0) + if i ∈ h then 1 else 0
  named : ∀ i ∈ p, ∃ b ∈ pins, (c.buf i).addr = ⟨dev, b⟩
  found : ∀ b ∈ pins, ∃ i ∈ p, (c.buf i).addr = ⟨dev, b⟩

namespace InUse

variable {dev : UInt32} {pins : List UInt32} {p h : Finset (Fin nbuf)} {c c' : Bcache} {i j : Fin nbuf} {addr : Address}
  {b : Buf}

section

variable (inUse : InUse dev pins p h c)
include inUse

theorem refcnt_eq_zero : (c.buf i).refcnt = 0 ↔ i ∉ p ∧ i ∉ h := by
  rw [inUse.count]
  by_cases pinned : i ∈ p <;> by_cases held : i ∈ h <;> simp only [pinned, held] <;> decide

theorem not_pristine (used : i ∈ p ∨ i ∈ h) : ¬ (c.buf i).Pristine := by
  intro pristine
  obtain ⟨unpinned, unheld⟩ := inUse.refcnt_eq_zero.mp pristine.2.2
  exact used.elim unpinned unheld

theorem eq_of_addr (first : i ∈ p ∨ i ∈ h) (second : j ∈ p ∨ j ∈ h)
    (same : (c.buf i).addr = (c.buf j).addr) : i = j := by
  by_contra distinct
  exact (inUse.placed.pristine_or distinct same).elim (inUse.not_pristine first) (inUse.not_pristine second)

theorem lookup?_of_used (used : i ∈ p ∨ i ∈ h) (holds : (c.buf i).addr = addr) :
    c.lookup? addr = some i := by
  cases scanned : c.lookup? addr with
  | none => exact (lookup?_eq_none scanned (inUse.placed.complete i) holds).elim
  | some j =>
    obtain ⟨here, before, after, split, earlier⟩ := lookup?_eq_some scanned
    by_contra distinct
    have other : i ≠ j := fun same => distinct (by rw [same])
    have member := inUse.placed.complete i
    have lead := inUse.placed.lead
    rw [split] at member lead
    rcases List.mem_append.mp member with front | back
    · exact earlier i front holds
    · have later := (List.mem_cons.mp back).resolve_left other
      exact inUse.not_pristine used ((List.pairwise_cons.mp (List.pairwise_append.mp lead).2.1).1 i later
        (here.trans holds.symm))

/-- A buffer changes, but not in what it is used for. -/
theorem set (used : i ∈ p ∨ i ∈ h) (address : b.addr = (c.buf i).addr)
    (lock : b.locked = (c.buf i).locked) (refs : b.refcnt = (c.buf i).refcnt) : InUse dev pins p h (c.set i b) := by
  have same (j : Fin nbuf) : ((c.set i b).buf j).addr = (c.buf j).addr ∧ ((c.set i b).buf j).locked = (c.buf j).locked ∧
      ((c.set i b).buf j).refcnt = (c.buf j).refcnt := by
    rcases eq_or_ne j i with rfl | distinct
    · rw [set_buf_self]
      exact ⟨address, lock, refs⟩
    · rw [set_buf_of_ne distinct]
      exact ⟨rfl, rfl, rfl⟩
  refine ⟨inUse.placed.set_used address (inUse.not_pristine used), fun j => ?_, fun j => ?_, fun j member => ?_,
    fun b member => ?_⟩
  · rw [(same j).2.1, inUse.locked]
  · rw [(same j).2.2, inUse.count]
  · rw [(same j).1]
    exact inUse.named j member
  · obtain ⟨j, pinned, holds⟩ := inUse.found b member
    exact ⟨j, pinned, (same j).1.trans holds⟩

theorem hold (placed : Placed c') (unheld : i ∉ h)
    (others : ∀ j ≠ i, c'.buf j = c.buf j) (refs : (c'.buf i).refcnt = (if i ∈ p then 1 else 0) + 1)
    (kept : i ∈ p → (c'.buf i).addr = (c.buf i).addr) : InUse dev pins p (insert i h) (c'.setLocked i true) := by
  have address (j : Fin nbuf) (pinned : j ∈ p) : ((c'.setLocked i true).buf j).addr = (c.buf j).addr := by
    rcases eq_or_ne j i with rfl | distinct
    · exact (congrArg Buf.addr set_buf_self).trans (kept pinned)
    · rw [setLocked, set_buf_of_ne distinct, others j distinct]
  have used : ¬ (c'.buf i).Pristine := by
    rintro ⟨-, -, zero⟩
    rw [refs] at zero
    by_cases pinned : i ∈ p <;> simp [pinned] at zero
  refine ⟨placed.set_used rfl used, fun j => ?_, fun j => ?_, fun j pinned => ?_, fun b member => ?_⟩
  · rcases eq_or_ne j i with rfl | distinct
    · rw [setLocked, set_buf_self]
      simp
    · rw [setLocked, set_buf_of_ne distinct, others j distinct, inUse.locked]
      simp [distinct]
  · rcases eq_or_ne j i with rfl | distinct
    · rw [setLocked, set_buf_self]
      simpa using refs
    · rw [setLocked, set_buf_of_ne distinct, others j distinct, inUse.count]
      simp [distinct]
  · rw [address j pinned]
    exact inUse.named j pinned
  · obtain ⟨j, pinned, holds⟩ := inUse.found b member
    exact ⟨j, pinned, (address j pinned).trans holds⟩

/-- `bget` finds a buffer: the one with the block, or one that is not in use. -/
theorem bget? (fresh : ∀ i ∈ h, (c.buf i).addr ≠ addr)
    (room : (∃ i ∈ p, (c.buf i).addr = addr) ∨ ∃ i, i ∉ p ∧ i ∉ h) :
    ∃ c' i, c.bget? addr = some (c', i) ∧ (c'.buf i).locked = false ∧ (c'.buf i).addr = addr ∧ i ∉ h ∧
      (∀ j ≠ i, c'.buf j = c.buf j) ∧ ((∃ j ∈ p, (c.buf j).addr = addr) → i ∈ p) ∧
      InUse dev pins p (insert i h) (c'.setLocked i true) := by
  have hit {i : Fin nbuf} (scanned : c.lookup? addr = some i) : c.bget? addr =
      some (c.set i { c.buf i with refcnt := (c.buf i).refcnt + 1 }, i) := by
    rw [Bcache.bget?, scanned]
  cases scanned : c.lookup? addr with
  | some i =>
    have holds := (lookup?_eq_some scanned).1
    have unheld : i ∉ h := fun held => fresh i held holds
    have others (j : Fin nbuf) (distinct : j ≠ i) :
        (c.set i { c.buf i with refcnt := (c.buf i).refcnt + 1 }).buf j = c.buf j := set_buf_of_ne distinct
    refine ⟨_, i, hit scanned, ?_, ?_, unheld, others, ?_,
      inUse.hold (inUse.placed.bget? (hit scanned)) unheld others ?_ ?_⟩
    · rw [set_buf_self]
      exact (inUse.locked i).trans (decide_eq_false unheld)
    · rw [set_buf_self]
      exact holds
    · rintro ⟨j, pinned, same⟩
      obtain rfl : i = j := Option.some.inj (scanned.symm.trans (inUse.lookup?_of_used (.inl pinned) same))
      exact pinned
    · rw [set_buf_self]
      dsimp only
      rw [inUse.count, if_neg unheld, UInt32.add_zero]
    · intro
      rw [set_buf_self]
      rfl
  | none =>
    have absent (j : Fin nbuf) : (c.buf j).addr ≠ addr := lookup?_eq_none scanned (inUse.placed.complete j)
    obtain ⟨k, unpinned, unheld⟩ := room.resolve_left fun ⟨j, _, same⟩ => absent j same
    have some : c.unused? ≠ none := by
      intro missing
      have := List.find?_eq_none.mp missing k (List.mem_reverse.mpr (inUse.placed.complete k))
      simp only [inUse.refcnt_eq_zero, decide_eq_true_eq] at this
      exact this ⟨unpinned, unheld⟩
    obtain ⟨i, recycled⟩ := Option.ne_none_iff_exists'.mp some
    have found : c.bget? addr = Option.some (c.set i { c.buf i with
        dev := addr.dev, blockno := addr.blockno, valid := false, refcnt := 1 }, i) := by
      rw [Bcache.bget?, scanned]
      simp only [recycled]
    obtain ⟨unpinned, unheld⟩ := inUse.refcnt_eq_zero.mp (by simpa using List.find?_some recycled)
    have others (j : Fin nbuf) (distinct : j ≠ i) : (c.set i { c.buf i with
        dev := addr.dev, blockno := addr.blockno, valid := false, refcnt := 1 }).buf j = c.buf j :=
        set_buf_of_ne distinct
    refine ⟨_, i, found, ?_, ?_, unheld, others, ?_, inUse.hold (inUse.placed.bget? found) unheld others ?_ ?_⟩
    · rw [set_buf_self]
      exact (inUse.locked i).trans (decide_eq_false unheld)
    · rw [set_buf_self]
      rfl
    · rintro ⟨j, _, same⟩
      exact (absent j same).elim
    · rw [set_buf_self, if_neg unpinned]
      rfl
    · intro pinned
      exact (unpinned pinned).elim

end

theorem brelse_buf : (c.brelse i).buf = (c.set i { c.buf i with refcnt := (c.buf i).refcnt - 1 }).buf := by
  unfold Bcache.brelse
  split <;> rfl

theorem release (inUse : InUse dev pins p h c) (held : i ∈ h) :
    InUse dev pins p (h.erase i) ((c.setLocked i false).brelse i) := by
  have used := inUse.not_pristine (.inr held)
  have unlocked : ¬ ((c.setLocked i false).buf i).Pristine := by
    rw [setLocked, set_buf_self]
    exact used
  have self :
      ((c.setLocked i false).brelse i).buf i = { c.buf i with locked := false, refcnt := (c.buf i).refcnt - 1 } := by
    rw [brelse_buf, set_buf_self, setLocked, set_buf_self]
  have others (j : Fin nbuf) (distinct : j ≠ i) : ((c.setLocked i false).brelse i).buf j = c.buf j := by
    rw [brelse_buf, set_buf_of_ne distinct, setLocked, set_buf_of_ne distinct]
  have address (j : Fin nbuf) : (((c.setLocked i false).brelse i).buf j).addr = (c.buf j).addr := by
    rcases eq_or_ne j i with rfl | distinct
    · rw [self]
      rfl
    · rw [others j distinct]
  have placed : Placed (c.setLocked i false) := inUse.placed.set_used rfl used
  refine ⟨placed.brelse unlocked, fun j => ?_, fun j => ?_, fun j member => ?_, fun b member => ?_⟩
  · rcases eq_or_ne j i with rfl | distinct
    · rw [self]
      simp
    · rw [others j distinct, inUse.locked]
      simp [distinct]
  · rcases eq_or_ne j i with rfl | distinct
    · rw [self]
      dsimp only
      rw [inUse.count, if_pos held, if_neg (notMem_erase _ _), UInt32.add_sub_cancel, UInt32.add_zero]
    · rw [others j distinct, inUse.count]
      simp [distinct]
  · rw [address]
    exact inUse.named j member
  · obtain ⟨j, pinned, holds⟩ := inUse.found b member
    exact ⟨j, pinned, (address j).trans holds⟩

/-- The count of a buffer that is held is changed, for another set of pinned buffers. -/
theorem repin {pins' : List UInt32} {p' : Finset (Fin nbuf)} {n : UInt32} (inUse : InUse dev pins p h c) (held : i ∈ h)
    (others : ∀ j ≠ i, (j ∈ p' ↔ j ∈ p)) (count : n = (if i ∈ p' then 1 else 0) + 1)
    (named : ∀ j ∈ p', ∃ b ∈ pins', (c.buf j).addr = ⟨dev, b⟩)
    (found : ∀ b ∈ pins', ∃ j ∈ p', (c.buf j).addr = ⟨dev, b⟩) :
    InUse dev pins' p' h (c.set i { c.buf i with refcnt := n }) := by
  have address (j : Fin nbuf) : ((c.set i { c.buf i with refcnt := n }).buf j).addr = (c.buf j).addr := by
    rcases eq_or_ne j i with rfl | distinct
    · rw [set_buf_self]
      rfl
    · rw [set_buf_of_ne distinct]
  refine ⟨inUse.placed.set_used rfl (inUse.not_pristine (.inr held)), fun j => ?_, fun j => ?_, fun j member => ?_,
    fun b member => ?_⟩
  · rcases eq_or_ne j i with rfl | distinct
    · rw [set_buf_self]
      exact inUse.locked j
    · rw [set_buf_of_ne distinct, inUse.locked]
  · rcases eq_or_ne j i with rfl | distinct
    · rw [set_buf_self, if_pos held]
      exact count
    · rw [set_buf_of_ne distinct, inUse.count]
      simp only [others j distinct]
  · rw [address]
    exact named j member
  · obtain ⟨j, pinned, holds⟩ := found b member
    exact ⟨j, pinned, (address j).trans holds⟩

theorem unpin {first : UInt32} {rest : List UInt32} (inUse : InUse dev (first :: rest) p h c)
    (nodup : (first :: rest).Nodup)
    (pinned : i ∈ p) (held : i ∈ h) (holds : (c.buf i).addr = ⟨dev, first⟩) :
    InUse dev rest (p.erase i) h (c.bunpin i) := by
  refine inUse.repin held (fun j distinct => by simp [distinct]) ?_ (fun j member => ?_) fun b member => ?_
  · rw [inUse.count, if_pos pinned, if_pos held, if_neg (notMem_erase _ _)]
    rfl
  · obtain ⟨distinct, pinned'⟩ := mem_erase.mp member
    obtain ⟨b, listed, here⟩ := inUse.named j pinned'
    rcases List.mem_cons.mp listed with rfl | later
    · exact (distinct (inUse.eq_of_addr (.inl pinned') (.inl pinned) (here.trans holds.symm))).elim
    · exact ⟨b, later, here⟩
  · obtain ⟨j, pinned', here⟩ := inUse.found b (List.mem_cons_of_mem _ member)
    refine ⟨j, mem_erase.mpr ⟨?_, pinned'⟩, here⟩
    rintro rfl
    cases here.symm.trans holds
    exact (List.nodup_cons.mp nodup).1 member

theorem pin {last : UInt32} (inUse : InUse dev pins p h c) (unpinned : i ∉ p) (held : i ∈ h)
    (holds : (c.buf i).addr = ⟨dev, last⟩) : InUse dev (pins ++ [last]) (insert i p) h (c.bpin i) := by
  refine inUse.repin held (fun j distinct => by simp [distinct]) ?_ (fun j member => ?_) fun b member => ?_
  · rw [inUse.count, if_neg unpinned, if_pos held, if_pos (mem_insert_self ..)]
    rfl
  · rcases mem_insert.mp member with rfl | before
    · exact ⟨last, List.mem_append_right _ (List.mem_singleton_self _), holds⟩
    · exact (inUse.named j before).imp fun b => And.imp_left (List.mem_append_left _)
  · rcases List.mem_append.mp member with before | here
    · obtain ⟨j, pinned, holds⟩ := inUse.found b before
      exact ⟨j, mem_insert_of_mem pinned, holds⟩
    · rw [List.mem_singleton.mp here]
      exact ⟨i, mem_insert_self .., holds⟩

/-- There are at most as many pinned buffers as blocks, and as many where the blocks are different. -/
theorem card_le (inUse : InUse dev pins p h c) : p.card ≤ pins.length := by
  have image : p.image (fun i => (c.buf i).blockno) ⊆ pins.toFinset := by
    intro b member
    obtain ⟨i, pinned, rfl⟩ := mem_image.mp member
    obtain ⟨b, listed, here⟩ := inUse.named i pinned
    rw [show (c.buf i).blockno = b from congrArg Address.blockno here]
    exact List.mem_toFinset.mpr listed
  have distinct : Set.InjOn (fun i => (c.buf i).blockno) p := by
    intro i pinned j pinned' same
    obtain ⟨b, -, here⟩ := inUse.named i pinned
    obtain ⟨b', -, here'⟩ := inUse.named j pinned'
    refine inUse.eq_of_addr (.inl pinned) (.inl pinned') ?_
    rw [here, here']
    exact congrArg _ ((congrArg Address.blockno here).symm.trans (same.trans (congrArg Address.blockno here')))
  calc p.card = (p.image fun i => (c.buf i).blockno).card := (card_image_of_injOn distinct).symm
    _ ≤ pins.toFinset.card := card_le_card image
    _ ≤ pins.length := List.toFinset_card_le pins

theorem le_card (inUse : InUse dev pins p h c) (nodup : pins.Nodup) : pins.length ≤ p.card := by
  have image : pins.toFinset ⊆ p.image fun i => (c.buf i).blockno := by
    intro b member
    obtain ⟨i, pinned, here⟩ := inUse.found b (List.mem_toFinset.mp member)
    exact mem_image.mpr ⟨i, pinned, congrArg Address.blockno here⟩
  calc pins.length = pins.toFinset.card := (List.toFinset_card_of_nodup nodup).symm
    _ ≤ (p.image fun i => (c.buf i).blockno).card := card_le_card image
    _ ≤ p.card := card_image_le

theorem exists_unused (inUse : InUse dev pins p ∅ c) (few : pins.length < nbuf) :
    ∃ i, i ∉ p ∧ i ∉ (∅ : Finset (Fin nbuf)) := by
  have small : p.card < Fintype.card (Fin nbuf) := by
    rw [Fintype.card_fin]
    exact inUse.card_le.trans_lt few
  obtain ⟨i, unpinned⟩ := exists_mem_notMem_of_card_lt_card (small.trans_eq card_univ.symm)
  exact ⟨i, unpinned.2, notMem_empty i⟩

end InUse

namespace Job

variable {dev : UInt32} {pins : List UInt32} {p h : Finset (Fin nbuf)} {s : Device} {i : Fin nbuf} {addr : Address}

section

variable (inUse : InUse dev pins p h s.cache)
include inUse

theorem bread_ensures (fresh : ∀ i ∈ h, (s.cache.buf i).addr ≠ addr)
    (room : (∃ i ∈ p, (s.cache.buf i).addr = addr) ∨ ∃ i, i ∉ p ∧ i ∉ h) :
    Ensures (bread addr) s (fun i s' => s'.log = s.log ∧ InUse dev pins p (insert i h) s'.cache ∧ i ∉ h ∧
      (s'.cache.buf i).addr = addr ∧ (∀ j ≠ i, s'.cache.buf j = s.cache.buf j) ∧
      ((∃ j ∈ p, (s.cache.buf j).addr = addr) → i ∈ p)) fun _ => False := by
  obtain ⟨c, i, found, unlocked, holds, unheld, others, pinned, held⟩ := inUse.bget? fresh room
  have getting :
      Ensures (bget addr) s (fun j s' => j = i ∧ s' = { s with cache := c.setLocked i true }) fun _ => False := by
    refine .get_bind ?_
    rw [found]
    dsimp only
    rw [unlocked]
    exact .modify_bind (.pure ⟨rfl, rfl⟩)
  have address : ((c.setLocked i true).buf i).addr = addr := (congrArg Buf.addr set_buf_self).trans holds
  have others' (j : Fin nbuf) (distinct : j ≠ i) : (c.setLocked i true).buf j = s.cache.buf j :=
    (set_buf_of_ne distinct).trans (others j distinct)
  refine getting.bind ?_
  rintro j s' ⟨rfl, rfl⟩
  refine .modify_bind (.pure ?_)
  split
  · exact ⟨rfl, held, unheld, address, others', pinned⟩
  · refine ⟨rfl, held.set (.inr (mem_insert_self ..)) rfl rfl rfl, unheld, ?_, fun k distinct => ?_, pinned⟩
    · exact (congrArg Buf.addr set_buf_self).trans address
    · exact (set_buf_of_ne distinct).trans (others' k distinct)

theorem store_ensures (held : i ∈ h) (data : Block) :
    Ensures (store i data) s (fun _ s' => s'.log = s.log ∧ InUse dev pins p h s'.cache ∧
      ∀ j, (s'.cache.buf j).addr = (s.cache.buf j).addr) fun _ => False := by
  refine .modify ⟨rfl, inUse.set (.inr held) rfl rfl rfl, fun j => ?_⟩
  rcases eq_or_ne j i with rfl | distinct
  · exact (congrArg Buf.addr set_buf_self).trans rfl
  · exact congrArg Buf.addr (set_buf_of_ne distinct)

theorem bwrite_ensures (held : i ∈ h) :
    Ensures (bwrite i) s (fun _ s' => s'.log = s.log ∧ s'.cache = s.cache) fun _ => False := by
  refine .get_bind ?_
  rw [if_pos ((inUse.locked i).trans (decide_eq_true held))]
  exact .modify ⟨rfl, rfl⟩

theorem brelse_ensures (held : i ∈ h) :
    Ensures (brelse i) s (fun _ s' => s'.log = s.log ∧ InUse dev pins p (h.erase i) s'.cache) fun _ => False := by
  refine .get_bind ?_
  rw [if_pos ((inUse.locked i).trans (decide_eq_true held))]
  exact .modify ⟨rfl, inUse.release held⟩

end

theorem erase_pair {a b : Fin nbuf} (distinct : b ∉ insert a (∅ : Finset (Fin nbuf))) :
    ((insert b (insert a (∅ : Finset (Fin nbuf)))).erase b).erase a = ∅ := by
  rw [erase_insert distinct, erase_insert (notMem_empty a)]

section Loops

variable {start : UInt32} {lh : List UInt32} {log : Log}

/-- The two buffers of a round: one for the block of the log, and the pinned one of the home block. -/
theorem bread_pair {α : Type} {f : Fin nbuf → Fin nbuf → Job α} {final : α → Device → Prop} {slot home : UInt32}
    (inUse : InUse dev pins p ∅ s.cache) (few : pins.length < nbuf) (pinned : home ∈ pins) (apart : slot ≠ home)
    (rest : ∀ a b s', s'.log = s.log → InUse dev pins p (insert b (insert a ∅)) s'.cache →
      b ∉ insert a (∅ : Finset (Fin nbuf)) → b ∈ p → (s'.cache.buf b).addr = ⟨dev, home⟩ →
      Ensures (f a b) s' final fun _ => False) :
    Ensures (do
      let a ← bread ⟨dev, slot⟩
      let b ← bread ⟨dev, home⟩
      f a b) s final fun _ => False := by
  refine (bread_ensures inUse (fun i none => (notMem_empty i none).elim) (.inr (inUse.exists_unused few))).bind ?_
  rintro a s₁ ⟨log₁, inUse₁, -, address, -, -⟩
  have there := inUse₁.found home pinned
  refine (bread_ensures inUse₁ (fun i held => ?_) (.inl there)).bind ?_
  · obtain rfl : i = a := by simpa using held
    rw [address]
    exact fun same => apart (congrArg Address.blockno same)
  · rintro b s₂ ⟨log₂, inUse₂, distinct, address₂, -, hit⟩
    exact rest a b s₂ (log₂.trans log₁) inUse₂ distinct (hit there) address₂

theorem writeLog_ensures (listable : Listable s.log.start s.log.lh) (inUse : InUse dev s.log.lh p ∅ s.cache)
    (few : s.log.lh.length < nbuf) :
    Ensures (writeLog dev) s (fun _ s' => s'.log = s.log ∧ InUse dev s.log.lh p ∅ s'.cache) fun _ => False := by
  refine .get_bind ?_
  refine (Ensures.forM_rest (fun rest s' => (s'.log = s.log ∧ InUse dev s.log.lh p ∅ s'.cache) ∧
    ∀ entry ∈ rest, entry ∈ s.log.lh.zipIdx) ⟨⟨rfl, inUse⟩, fun _ => id⟩ ?_).mono fun _ _ done => done.1
  rintro entry rest s₀ ⟨⟨log₀, inUse₀⟩, listed⟩
  have member := listed entry List.mem_cons_self
  refine bread_pair inUse₀ few (List.fst_mem_of_mem_zipIdx member) (Volume.slot_ne_home listable member member) ?_
  intro a b s₁ log₁ inUse₁ distinct _ _
  have first : a ∈ insert b (insert a (∅ : Finset (Fin nbuf))) := by simp
  have second : b ∈ insert b (insert a (∅ : Finset (Fin nbuf))) := by simp
  refine .get_bind ((store_ensures inUse₁ first _).bind ?_)
  rintro - s₂ ⟨log₂, inUse₂, -⟩
  refine (bwrite_ensures inUse₂ first).bind ?_
  rintro - s₃ ⟨log₃, cache₃⟩
  rw [← cache₃] at inUse₂
  refine (brelse_ensures inUse₂ second).bind ?_
  rintro - s₄ ⟨log₄, inUse₄⟩
  refine (brelse_ensures inUse₄ (by rw [erase_insert distinct]; exact mem_insert_self ..)).mono ?_
  rintro - s₅ ⟨log₅, inUse₅⟩
  rw [erase_pair distinct] at inUse₅
  refine ⟨⟨?_, inUse₅⟩, fun other later => listed other (List.mem_cons_of_mem _ later)⟩
  rw [log₅, log₄, log₃, log₂, log₁, log₀]

theorem writeHead_ensures (inUse : InUse dev pins p ∅ s.cache) (few : pins.length < nbuf) :
    Ensures (writeHead dev) s (fun _ s' => s'.log = s.log ∧ InUse dev pins p ∅ s'.cache) fun _ => False := by
  refine .get_bind ?_
  refine (bread_ensures inUse (fun i none => (notMem_empty i none).elim) (.inr (inUse.exists_unused few))).bind ?_
  rintro a s₁ ⟨log₁, inUse₁, unheld, -⟩
  have held : a ∈ insert a (∅ : Finset (Fin nbuf)) := mem_insert_self ..
  refine .get_bind ((store_ensures inUse₁ held _).bind ?_)
  rintro - s₂ ⟨log₂, inUse₂, -⟩
  refine (bwrite_ensures inUse₂ held).bind ?_
  rintro - s₃ ⟨log₃, cache₃⟩
  rw [← cache₃] at inUse₂
  refine (brelse_ensures inUse₂ held).mono ?_
  rintro - s₄ ⟨log₄, inUse₄⟩
  rw [erase_insert unheld] at inUse₄
  exact ⟨by rw [log₄, log₃, log₂, log₁], inUse₄⟩

theorem installTrans_ensures (listable : Listable s.log.start s.log.lh) (nodup : s.log.lh.Nodup)
    (inUse : InUse dev s.log.lh p ∅ s.cache)
    (few : s.log.lh.length < nbuf) :
    Ensures (installTrans dev false) s (fun _ s' => s'.log = s.log ∧ ∃ p', InUse dev [] p' ∅ s'.cache)
      fun _ => False := by
  refine .get_bind ?_
  refine (Ensures.forM_rest (fun (rest : List (UInt32 × ℕ)) (s' : Device) => s'.log = s.log ∧
    (∃ p', InUse dev (rest.map Prod.fst) p' ∅ s'.cache) ∧ rest <:+ s.log.lh.zipIdx)
    ⟨rfl, ⟨p, by rwa [List.zipIdx_map_fst]⟩, List.suffix_rfl⟩ ?_).mono fun _ _ done => ⟨done.1, done.2.1⟩
  rintro entry rest s₀ ⟨log₀, ⟨p₀, inUse₀⟩, suffix⟩
  have member := suffix.subset List.mem_cons_self
  have shorter : ((entry :: rest).map Prod.fst).length < nbuf := by
    rw [List.length_map]
    exact (suffix.length_le.trans_eq List.length_zipIdx).trans_lt few
  have nodup' : (entry.1 :: rest.map Prod.fst).Nodup := by
    have sublist := (suffix.map Prod.fst).sublist
    rw [List.zipIdx_map_fst] at sublist
    exact sublist.nodup nodup
  refine bread_pair inUse₀ shorter List.mem_cons_self (Volume.slot_ne_home listable member member) ?_
  intro a b s₁ log₁ inUse₁ distinct pinned address
  have second : b ∈ insert b (insert a (∅ : Finset (Fin nbuf))) := mem_insert_self ..
  have first : a ∈ insert b (insert a (∅ : Finset (Fin nbuf))) := by simp
  refine .get_bind ((store_ensures inUse₁ second _).bind ?_)
  rintro - s₂ ⟨log₂, inUse₂, same₂⟩
  refine (bwrite_ensures inUse₂ second).bind ?_
  rintro - s₃ ⟨log₃, cache₃⟩
  have inUse₃ := inUse₂.unpin nodup' pinned second ((same₂ b).trans address)
  rw [← cache₃] at inUse₃
  refine .modify_bind ((brelse_ensures inUse₃ first).bind ?_)
  rintro - s₄ ⟨log₄, inUse₄⟩
  refine (brelse_ensures inUse₄ ?_).mono ?_
  · rw [mem_erase]
    refine ⟨?_, second⟩
    rintro rfl
    exact distinct (mem_insert_self ..)
  rintro - s₅ ⟨log₅, inUse₅⟩
  rw [erase_right_comm, erase_pair distinct] at inUse₅
  refine ⟨?_, ⟨_, inUse₅⟩, (List.suffix_cons ..).trans suffix⟩
  rw [log₅, log₄]
  exact log₃.trans (log₂.trans (log₁.trans log₀))

/-- A block that is new to the transaction is listed, and its buffer stays pinned. -/
theorem change_ensures {blockno : UInt32} (inUse : InUse dev s.log.lh p ∅ s.cache) (few : s.log.lh.length < nbuf)
    (begun : 1 ≤ s.log.outstanding) (unlisted : blockno ∉ s.log.lh) (data : Block) :
    Ensures (change ⟨dev, blockno⟩ data) s (fun _ s' => s'.log = { s.log with lh := s.log.lh ++ [blockno] } ∧
      ∃ p', InUse dev s'.log.lh p' ∅ s'.cache) fun _ => False := by
  refine (bread_ensures inUse (fun i none => (notMem_empty i none).elim) (.inr (inUse.exists_unused few))).bind ?_
  rintro a s₁ ⟨log₁, inUse₁, unheld, address, -⟩
  have held : a ∈ insert a (∅ : Finset (Fin nbuf)) := mem_insert_self ..
  refine (store_ensures inUse₁ held _).bind ?_
  rintro - s₂ ⟨log₂, inUse₂, same⟩
  have address₂ := (same a).trans address
  have unpinned : a ∉ p := by
    intro pinned
    obtain ⟨b, listed, here⟩ := inUse₂.named a pinned
    cases address₂.symm.trans here
    exact unlisted listed
  have accepted :
      s₂.log.logWrite (s₂.cache.buf a).blockno = .ok ({ s.log with lh := s.log.lh ++ [blockno] }, true) := by
    have block : (s₂.cache.buf a).blockno = blockno := congrArg Address.blockno address₂
    have fits : ¬ s.log.lh.length ≥ logBlocks := Nat.not_le.mpr few
    rw [block, log₂, log₁, Log.logWrite, if_neg fits, if_neg (by omega), if_neg unlisted]
  have pinning : Ensures (logWrite a) s₂ (fun _ s' => s'.log = { s.log with lh := s.log.lh ++ [blockno] } ∧
      InUse dev (s.log.lh ++ [blockno]) (insert a p) (insert a ∅) s'.cache) fun _ => False := by
    refine .get_bind ?_
    rw [accepted]
    exact .modify ⟨rfl, inUse₂.pin unpinned held address₂⟩
  refine pinning.bind ?_
  rintro - s₃ ⟨log₃, inUse₃⟩
  refine (brelse_ensures inUse₃ held).mono ?_
  rintro - s₄ ⟨log₄, inUse₄⟩
  rw [erase_insert unheld] at inUse₄
  refine ⟨log₄.trans log₃, insert a p, ?_⟩
  rw [log₄, log₃]
  exact inUse₄

end Loops

end Job

end Xv6.Fs.Bio
