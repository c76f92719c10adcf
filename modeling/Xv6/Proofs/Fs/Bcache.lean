import Xv6.Machine.Census
import Xv6.Model.Fs.Bcache

/-! # Buffers in use

Every buffer but the first one with its address is as `binit` left it (`Placed`), so two buffers in use
have different addresses. The reference count of a buffer is the number of calls that refer to it and of
its pins, and its lock has one owner (`Held`); a buffer that is referred to is therefore not recycled and
stays the one that was asked for.
-/

namespace Xv6.Fs.Bio

open Machine Function Bcache List

theorem addr_eq_iff {b : Buf} {addr : Address} : b.addr = addr ↔ b.dev = addr.dev ∧ b.blockno = addr.blockno := by
  rw [Buf.addr, Address.mk.injEq]

/-- A buffer as `binit` leaves it. -/
def Buf.Pristine (b : Buf) : Prop := b.addr = ⟨0, 0⟩ ∧ b.valid = false ∧ b.refcnt = 0

namespace Bcache

variable {c next : Bcache} {addr : Address} {i j : Fin nbuf} {b : Buf}

@[simp] theorem set_buf_self : (c.set i b).buf i = b := update_self _ _ _

theorem set_buf_of_ne (distinct : j ≠ i) : (c.set i b).buf j = c.buf j := update_of_ne distinct _ _

@[simp] theorem set_order : (c.set i b).order = c.order := rfl

theorem lookup?_eq_some (found : c.lookup? addr = some i) : (c.buf i).addr = addr ∧
    ∃ before after, c.order = before ++ i :: after ∧ ∀ j ∈ before, (c.buf j).addr ≠ addr := by
  obtain ⟨holds, before, after, split, earlier⟩ := find?_eq_some_iff_append.mp found
  refine ⟨addr_eq_iff.mpr (by simpa using holds), before, after, split, fun j member => ?_⟩
  rw [Ne, addr_eq_iff]
  simpa [-not_and, Classical.not_and_iff_not_or_not] using earlier j member

theorem lookup?_eq_none (missing : c.lookup? addr = none) (listed : i ∈ c.order) : (c.buf i).addr ≠ addr := by
  have absent := find?_eq_none.mp missing i listed
  rw [Ne, addr_eq_iff]
  simpa using absent

/-- What `bget` does: a hit takes one more reference, a miss recycles a buffer without any. -/
theorem bget?_cases (found : c.bget? addr = some (next, i)) :
    (c.lookup? addr = some i ∧ next = c.set i { c.buf i with refcnt := (c.buf i).refcnt + 1 }) ∨
      (c.lookup? addr = none ∧ (c.buf i).refcnt = 0 ∧ next = c.set i
        { c.buf i with dev := addr.dev, blockno := addr.blockno, valid := false, refcnt := 1 }) := by
  unfold bget? at found
  split at found
  · next hit =>
    cases found
    exact .inl ⟨hit, rfl⟩
  · next missing =>
    split at found
    · next free =>
      cases found
      exact .inr ⟨missing, by simpa using find?_some free, rfl⟩
    · cases found

/-- The list has every buffer once, and buffers that follow one with their address are unused. -/
structure Placed (c : Bcache) : Prop where
  nodup : c.order.Nodup
  complete : ∀ i, i ∈ c.order
  lead : c.order.Pairwise fun i j => (c.buf i).addr = (c.buf j).addr → (c.buf j).Pristine

namespace Placed

theorem binit : Placed .binit where
  nodup := nodup_reverse.mpr (nodup_finRange nbuf)
  complete i := mem_reverse.mpr (mem_finRange i)
  lead := Pairwise.imp (fun _ _ => ⟨rfl, rfl, rfl⟩) (nodup_reverse.mpr (nodup_finRange nbuf))

theorem pristine_or (placed : Placed c) (distinct : i ≠ j) (same : (c.buf i).addr = (c.buf j).addr) :
    (c.buf i).Pristine ∨ (c.buf j).Pristine := by
  obtain ⟨before, after, split⟩ := append_of_mem (placed.complete i)
  have lead := placed.lead
  have member := placed.complete j
  rw [split] at lead member
  simp only [pairwise_append, pairwise_cons] at lead
  obtain ⟨-, ⟨head, -⟩, across⟩ := lead
  rcases mem_append.mp member with first | second
  · exact .inl (across j first i mem_cons_self same.symm)
  · rcases mem_cons.mp second with rfl | later
    · exact absurd rfl distinct
    · exact .inr (head j later same)

theorem set (placed : Placed c) (kept : b.addr = (c.buf i).addr)
    (leads : ∃ before after, c.order = before ++ i :: after ∧ ∀ j ∈ before, (c.buf j).addr ≠ (c.buf i).addr) :
    Placed (c.set i b) := by
  refine ⟨placed.nodup, placed.complete, ?_⟩
  obtain ⟨before, after, split, earlier⟩ := leads
  have nodup := placed.nodup
  have lead := placed.lead
  have address (j : Fin nbuf) : ((c.set i b).buf j).addr = (c.buf j).addr := by
    rcases eq_or_ne j i with rfl | distinct
    · rw [set_buf_self, kept]
    · rw [set_buf_of_ne distinct]
  simp only [address]
  rw [set_order]
  rw [split] at nodup lead ⊢
  have apart : ∀ j, j ∈ before ∨ j ∈ after → j ≠ i := by
    rintro j member rfl
    simp only [nodup_append, nodup_cons] at nodup
    grind
  simp only [pairwise_append, pairwise_cons] at lead ⊢
  obtain ⟨early, ⟨head, late⟩, across⟩ := lead
  refine ⟨?_, ⟨fun j member same => ?_, ?_⟩, fun j first k second same => ?_⟩
  · refine early.imp_of_mem fun {j k} _ member follows same => ?_
    rw [set_buf_of_ne (apart k (.inl member))]
    exact follows same
  · rw [set_buf_of_ne (apart j (.inr member))]
    exact head j member same
  · refine late.imp_of_mem fun {j k} _ member follows same => ?_
    rw [set_buf_of_ne (apart k (.inr member))]
    exact follows same
  · rcases mem_cons.mp second with rfl | later
    · exact absurd same (earlier j first)
    · rw [set_buf_of_ne (apart k (.inr later))]
      exact across j first k (mem_cons_of_mem i later) same

theorem set_used (placed : Placed c) (kept : b.addr = (c.buf i).addr) (used : ¬ (c.buf i).Pristine) :
    Placed (c.set i b) := by
  obtain ⟨before, after, split⟩ := append_of_mem (placed.complete i)
  refine placed.set kept ⟨before, after, split, fun j member same => used ?_⟩
  have lead := placed.lead
  rw [split, pairwise_append] at lead
  exact lead.2.2 j member i mem_cons_self same

theorem bget? (placed : Placed c) (found : c.bget? addr = some (next, i)) : Placed next := by
  rcases bget?_cases found with ⟨hit, rfl⟩ | ⟨missing, -, rfl⟩
  · obtain ⟨holds, front⟩ := lookup?_eq_some hit
    exact placed.set rfl (by rwa [holds])
  · refine ⟨placed.nodup, placed.complete, ?_⟩
    refine (placed.lead.and placed.nodup).imp fun {j k} ⟨follows, distinct⟩ same => ?_
    rcases eq_or_ne k i with rfl | other
    · rw [set_buf_self, set_buf_of_ne distinct] at same
      exact absurd same (lookup?_eq_none missing (placed.complete j))
    · rw [set_buf_of_ne other] at same ⊢
      rcases eq_or_ne j i with rfl | another
      · rw [set_buf_self] at same
        exact absurd same.symm (lookup?_eq_none missing (placed.complete k))
      · rw [set_buf_of_ne another] at same
        exact follows same

theorem brelse (placed : Placed c) (used : ¬ (c.buf i).Pristine) : Placed (c.brelse i) := by
  have dropped : Placed (c.set i { c.buf i with refcnt := (c.buf i).refcnt - 1 }) := placed.set_used rfl used
  unfold Bcache.brelse
  split
  · have member : i ∈ c.order := placed.complete i
    refine ⟨?_, fun j => ?_, pairwise_cons.mpr ⟨fun j later same => ?_, dropped.lead.sublist erase_sublist⟩⟩
    · exact nodup_cons.mpr ⟨placed.nodup.not_mem_erase, placed.nodup.erase i⟩
    · rcases eq_or_ne j i with rfl | distinct
      · exact mem_cons_self
      · exact mem_cons_of_mem i ((mem_erase_of_ne distinct).mpr (placed.complete j))
    · have distinct : j ≠ i := by
        rintro rfl
        exact placed.nodup.not_mem_erase later
      simp only [set_buf_self, set_buf_of_ne distinct] at same ⊢
      exact (placed.pristine_or distinct same.symm).resolve_right used
  · exact dropped

end Placed

end Bcache

namespace System

/-- What each step does. -/
inductive Step (s : System) : Act → System → Prop
  | bget {call addr cache i} : s.ref call = none → s.cache.bget? addr = some (cache, i) →
      Step s (.bget call addr) { s.setRef call (some ⟨.waiting, i, addr⟩) with cache }
  | noBuffers {call addr} : Step s (.bget call addr) { s with panic := true }
  | acquire {call r} : s.ref call = some r → r.phase = .waiting → (s.cache.buf r.buf).locked = false →
      Step s (.acquire call)
        { s.setRef call (some { r with phase := .testing }) with cache := s.cache.setLocked r.buf true }
  | hit {call r} : s.ref call = some r → r.phase = .testing → (s.cache.buf r.buf).valid = true →
      Step s (.test call) (s.breadReturn call r)
  | miss {call r} : s.ref call = some r → r.phase = .testing → (s.cache.buf r.buf).valid = false →
      Step s (.test call) (s.setRef call (some { r with phase := .reading }))
  | fill {call r} : s.ref call = some r → r.phase = .reading →
      Step s (.fill call) (({ s with cache := s.cache.fill s.disk r.buf } : System).breadReturn call r)
  | modify {call r data} : s.ref call = some r → r.phase = .holding → Step s (.modify call data)
      { s with
        cache := s.cache.modify r.buf data
        dirty := update s.dirty r.buf true
        trace := s.trace ++ [.write r.addr data] }
  | bwrite {call r} : s.ref call = some r → r.phase = .holding → Step s (.bwrite call)
      { s with
        disk := update s.disk (sector (s.cache.buf r.buf).blockno) (s.cache.buf r.buf).data
        dirty := update s.dirty r.buf false }
  | release {call r} : s.ref call = some r → r.phase = .holding → Step s (.release call)
      { s.setRef call (some { r with phase := .releasing }) with cache := s.cache.setLocked r.buf false }
  | brelse {call r} : s.ref call = some r → r.phase = .releasing → s.mayDrop r.buf = true →
      Step s (.brelse call) { s.setRef call none with cache := s.cache.brelse r.buf }
  | bpin {i} : (s.cache.buf i).refcnt ≠ 0 →
      Step s (.bpin i) { s with cache := s.cache.bpin i, pins := update s.pins i (s.pins i + 1) }
  | bunpin {i} : s.pins i ≠ 0 → s.mayDrop i = true →
      Step s (.bunpin i) { s with cache := s.cache.bunpin i, pins := update s.pins i (s.pins i - 1) }

variable {s s' : System} {act : Act} {call : ℕ} {phase : Phase} {r : Ref}

theorem at?_eq_some : s.at? call phase = some r ↔ s.ref call = some r ∧ r.phase = phase := by
  simp [at?, Option.filter_eq_some_iff]

theorem Step.of_step? (enabled : s.step? act = some s') : Step s act s' := by
  unfold step? at enabled
  split at enabled
  · cases enabled
  · cases act with
    | bget call addr =>
      simp only [Option.ite_none_right_eq_some] at enabled
      obtain ⟨idle, outcome⟩ := enabled
      split at outcome <;> cases outcome
      · next cache i found => exact .bget idle found
      · exact .noBuffers
    | acquire call =>
      obtain ⟨r, here, outcome⟩ := Option.bind_eq_some_iff.mp enabled
      obtain ⟨refers, waiting⟩ := at?_eq_some.mp here
      split at outcome <;> cases outcome
      next free => exact .acquire refers waiting (by simpa using free)
    | test call =>
      obtain ⟨r, here, rfl⟩ := Option.map_eq_some_iff.mp enabled
      obtain ⟨refers, testing⟩ := at?_eq_some.mp here
      split
      · next valid => exact .hit refers testing valid
      · next invalid => exact .miss refers testing (by simpa using invalid)
    | fill call =>
      obtain ⟨r, here, rfl⟩ := Option.map_eq_some_iff.mp enabled
      obtain ⟨refers, reading⟩ := at?_eq_some.mp here
      exact .fill refers reading
    | modify call data =>
      obtain ⟨r, here, rfl⟩ := Option.map_eq_some_iff.mp enabled
      obtain ⟨refers, holding⟩ := at?_eq_some.mp here
      exact .modify refers holding
    | bwrite call =>
      obtain ⟨r, here, rfl⟩ := Option.map_eq_some_iff.mp enabled
      obtain ⟨refers, holding⟩ := at?_eq_some.mp here
      exact .bwrite refers holding
    | release call =>
      obtain ⟨r, here, rfl⟩ := Option.map_eq_some_iff.mp enabled
      obtain ⟨refers, holding⟩ := at?_eq_some.mp here
      exact .release refers holding
    | brelse call =>
      obtain ⟨r, here, outcome⟩ := Option.bind_eq_some_iff.mp enabled
      obtain ⟨refers, releasing⟩ := at?_eq_some.mp here
      obtain ⟨allowed, ⟨⟩⟩ := Option.ite_none_right_eq_some.mp outcome
      exact .brelse refers releasing allowed
    | bpin i =>
      obtain ⟨used, ⟨⟩⟩ := Option.ite_none_left_eq_some.mp enabled
      exact .bpin used
    | bunpin i =>
      obtain ⟨⟨pinned, allowed⟩, ⟨⟩⟩ := Option.ite_none_right_eq_some.mp enabled
      exact .bunpin pinned allowed

/-- A step changes no address, or it gives one that no buffer has to a buffer without references. -/
theorem step?_addr (enabled : s.step? act = some s') :
    (∀ i ∈ s.cache.order, i ∈ s'.cache.order) ∧
      ((∀ i, (s'.cache.buf i).addr = (s.cache.buf i).addr) ∨
        ∃ j addr, s.cache.lookup? addr = none ∧ (s.cache.buf j).refcnt = 0 ∧ (s'.cache.buf j).addr = addr ∧
          ∀ i, i ≠ j → (s'.cache.buf i).addr = (s.cache.buf i).addr) := by
  have kept {b : Buf} {j : Fin nbuf} (same : b.addr = (s.cache.buf j).addr) (i : Fin nbuf) :
      ((s.cache.set j b).buf i).addr = (s.cache.buf i).addr := by
    rcases eq_or_ne i j with rfl | distinct
    · rw [set_buf_self, same]
    · rw [set_buf_of_ne distinct]
  cases Step.of_step? enabled with
  | @bget call addr cache j idle found =>
    rcases bget?_cases found with ⟨-, rfl⟩ | ⟨missing, free, rfl⟩
    · exact ⟨fun _ => id, .inl (kept rfl)⟩
    · refine ⟨fun _ => id, .inr ⟨j, addr, missing, free, ?_, fun i distinct => ?_⟩⟩
      · rw [set_buf_self]
        rfl
      · rw [set_buf_of_ne distinct]
  | @brelse call r =>
    simp only [brelse]
    split
    · refine ⟨fun i member => ?_, .inl (kept rfl)⟩
      rcases eq_or_ne i r.buf with rfl | distinct
      · exact mem_cons_self
      · exact mem_cons_of_mem _ ((mem_erase_of_ne distinct).mpr member)
    · exact ⟨fun _ => id, .inl (kept rfl)⟩
  | noBuffers | hit | miss | bwrite => exact ⟨fun _ => id, .inl fun _ => rfl⟩
  | _ => exact ⟨fun _ => id, .inl (kept rfl)⟩

end System

/-- The call refers to the buffer. -/
def Refers (i : Fin nbuf) (ref : Option Ref) : Prop := ∃ r, ref = some r ∧ r.buf = i

/-- The call has the lock of the buffer. -/
def Owns (i : Fin nbuf) (ref : Option Ref) : Prop :=
  ∃ r, ref = some r ∧ r.buf = i ∧ (r.phase = .testing ∨ r.phase = .reading ∨ r.phase = .holding)

/-- The references are counted, the locks are exclusive, and a buffer in use is the one asked for. -/
structure Held (s : System) : Prop where
  placed : s.cache.Placed
  counted : ∀ i, Census s.ref (Refers i) ((s.cache.buf i).refcnt.toNat - s.pins i)
  owned : ∀ i, Census s.ref (Owns i) (if (s.cache.buf i).locked then 1 else 0)
  named : ∀ call r, s.ref call = some r → (s.cache.buf r.buf).addr = r.addr
  pending : ∀ call r, s.ref call = some r → r.phase = .reading → (s.cache.buf r.buf).valid = false
  filled : ∀ call r, s.ref call = some r → r.phase = .holding → (s.cache.buf r.buf).valid = true

/-- No reference count overflows in the step. -/
def System.Counts (s : System) : Act → Prop
  | .bget _ addr => ∀ i, s.cache.lookup? addr = some i → (s.cache.buf i).refcnt.toNat + 1 < UInt32.size
  | .bpin i => (s.cache.buf i).refcnt.toNat + 1 < UInt32.size
  | _ => True

instance (s : System) : (act : Act) → Decidable (s.Counts act)
  | .bget _ addr =>
    inferInstanceAs (Decidable (∀ i ∈ s.cache.lookup? addr, (s.cache.buf i).refcnt.toNat + 1 < UInt32.size))
  | .bpin i => inferInstanceAs (Decidable ((s.cache.buf i).refcnt.toNat + 1 < UInt32.size))
  | .acquire _ | .test _ | .fill _ | .modify _ _ | .bwrite _ | .release _ | .brelse _ | .bunpin _ =>
    inferInstanceAs (Decidable True)

section Refs
variable {ref : ℕ → Option Ref} {call other : ℕ} {i : Fin nbuf} {r r' : Ref} {x : Option Ref} {count : ℤ}

theorem update_eq_some : update ref call x other = some r ↔
    (other = call ∧ x = some r) ∨ (other ≠ call ∧ ref other = some r) := by
  rcases eq_or_ne other call with rfl | distinct
  · simp
  · simp [distinct]

theorem refers_some : Refers i (some r) ↔ r.buf = i := by
  simp [Refers]

theorem owns_some : Owns i (some r) ↔ r.buf = i ∧ (r.phase = .testing ∨ r.phase = .reading ∨ r.phase = .holding) := by
  simp [Owns]

end Refs

namespace Held

variable {s : System} {call other : ℕ} {r r' : Ref} {i j : Fin nbuf}

theorem boot (image : Disk) : Held (.boot image) where
  placed := .binit
  counted _ := Census.none_inside (by simp [System.boot, Refers])
  owned _ := Census.none_inside (by simp [System.boot, Owns])
  named := nofun
  pending := nofun
  filled := nofun

theorem used (held : Held s) (refers : s.ref call = some r) : (s.cache.buf r.buf).refcnt ≠ 0 := by
  intro zero
  have counted := (held.counted r.buf).one_le ⟨r, refers, rfl⟩
  simp only [zero, UInt32.toNat_zero] at counted
  omega

theorem not_pristine (held : Held s) (refers : s.ref call = some r) : ¬ (s.cache.buf r.buf).Pristine :=
  fun pristine => held.used refers pristine.2.2

theorem owner_unique (held : Held s) (first : Owns i (s.ref call)) (second : Owns i (s.ref other)) :
    other = call := by
  have owned := held.owned i
  have locked := owned.one_le first
  split at locked
  · next set =>
    rw [if_pos set] at owned
    exact owned.unique first second
  · omega

theorem apart (held : Held s) (first : (s.cache.buf i).valid = true ∨ (s.cache.buf i).refcnt ≠ 0)
    (second : (s.cache.buf j).valid = true ∨ (s.cache.buf j).refcnt ≠ 0)
    (same : (s.cache.buf i).addr = (s.cache.buf j).addr) : i = j := by
  by_contra distinct
  rcases held.placed.pristine_or distinct same with ⟨-, invalid, zero⟩ | ⟨-, invalid, zero⟩
  · simp [invalid, zero] at first
  · simp [invalid, zero] at second

variable {s' : System} {x : Option Ref} {n : UInt32}

/-- A call goes on to another phase, and its buffer keeps its address and its references. -/
theorem advance (held : Held s) (refers : s.ref call = some r) {b : Buf} {phase : Phase}
    (cache : s'.cache = s.cache.set r.buf b)
    (ref : s'.ref = update s.ref call (some { r with phase })) (pins : s'.pins = s.pins)
    (same : b.addr = (s.cache.buf r.buf).addr) (count : b.refcnt = (s.cache.buf r.buf).refcnt)
    (owned : Census s'.ref (Owns r.buf) (if b.locked then 1 else 0))
    (elsewhere : b.valid = (s.cache.buf r.buf).valid ∨ Owns r.buf (s.ref call))
    (pending : phase = .reading → b.valid = false) (filled : phase = .holding → b.valid = true) : Held s' := by
  have valid (o : ℕ) (x : Ref) (distinct : o ≠ call) (before : s.ref o = some x)
      (owner : x.phase = .testing ∨ x.phase = .reading ∨ x.phase = .holding) :
      ((s.cache.set r.buf b).buf x.buf).valid = (s.cache.buf x.buf).valid := by
    rcases eq_or_ne x.buf r.buf with shared | apart
    · rw [shared, set_buf_self]
      refine elsewhere.resolve_right fun owns => distinct (held.owner_unique owns ?_)
      exact ⟨x, before, shared, owner⟩
    · rw [set_buf_of_ne apart]
  refine ⟨?_, fun i => ?_, fun i => ?_, fun o x now => ?_, fun o x now reading => ?_, fun o x now holding => ?_⟩
  · rw [cache]
    exact held.placed.set_used same (held.not_pristine refers)
  · have kept : ((s.cache.set r.buf b).buf i).refcnt = (s.cache.buf i).refcnt := by
      rcases eq_or_ne i r.buf with rfl | apart
      · rw [set_buf_self, count]
      · rw [set_buf_of_ne apart]
    rw [cache, ref, pins, kept]
    exact (held.counted i).stay (by rw [refers, refers_some, refers_some])
  · rcases eq_or_ne i r.buf with rfl | apart
    · rwa [cache, set_buf_self]
    · rw [cache, ref, set_buf_of_ne apart]
      exact (held.owned i).stay (by simp [refers, owns_some, apart.symm])
  · rw [cache]
    rw [ref, update_eq_some] at now
    rcases now with ⟨-, moved⟩ | ⟨-, before⟩
    · cases moved
      rw [set_buf_self, same]
      exact held.named call r refers
    · rcases eq_or_ne x.buf r.buf with shared | apart
      · rw [shared, set_buf_self, same, ← shared]
        exact held.named o x before
      · rw [set_buf_of_ne apart]
        exact held.named o x before
  · rw [cache]
    rw [ref, update_eq_some] at now
    rcases now with ⟨-, moved⟩ | ⟨distinct, before⟩
    · cases moved
      rw [set_buf_self]
      exact pending reading
    · rw [valid o x distinct before (.inr (.inl reading))]
      exact held.pending o x before reading
  · rw [cache]
    rw [ref, update_eq_some] at now
    rcases now with ⟨-, moved⟩ | ⟨distinct, before⟩
    · cases moved
      rw [set_buf_self]
      exact filled holding
    · rw [valid o x distinct before (.inr (.inr holding))]
      exact held.filled o x before holding

/-- References come and go, and buffers in use keep their address and their data. -/
theorem recount (held : Held s) (ref : s'.ref = update s.ref call x)
    (placed : s'.cache.Placed) (locked : ∀ i, (s'.cache.buf i).locked = (s.cache.buf i).locked)
    (counted : ∀ i, Census s'.ref (Refers i) ((s'.cache.buf i).refcnt.toNat - s'.pins i))
    (owner : ∀ i, Owns i x ↔ Owns i (s.ref call))
    (same : ∀ o r, s.ref o = some r → (s'.cache.buf r.buf).addr = (s.cache.buf r.buf).addr ∧
      (s'.cache.buf r.buf).valid = (s.cache.buf r.buf).valid)
    (moved : ∀ r, x = some r → s.ref call = some r ∨ (s'.cache.buf r.buf).addr = r.addr ∧ r.phase = .waiting) :
    Held s' := by
  have former (o : ℕ) (r : Ref) (now : s'.ref o = some r) :
      s.ref o = some r ∨ (s'.cache.buf r.buf).addr = r.addr ∧ r.phase = .waiting := by
    rw [ref, update_eq_some] at now
    rcases now with ⟨rfl, rfl⟩ | ⟨-, before⟩
    · exact moved r rfl
    · exact .inl before
  refine ⟨placed, counted, fun i => ?_, fun o r now => ?_, fun o r now reading => ?_, fun o r now holding => ?_⟩
  · rw [locked, ref]
    exact (held.owned i).stay (owner i)
  · rcases former o r now with before | ⟨named, -⟩
    · rw [(same o r before).1]
      exact held.named o r before
    · exact named
  · rcases former o r now with before | ⟨-, waiting⟩
    · rw [(same o r before).2]
      exact held.pending o r before reading
    · rw [waiting] at reading
      cases reading
  · rcases former o r now with before | ⟨-, waiting⟩
    · rw [(same o r before).2]
      exact held.filled o r before holding
    · rw [waiting] at holding
      cases holding

theorem toNat_succ (small : n.toNat + 1 < UInt32.size) : (n + 1).toNat = n.toNat + 1 := by
  rw [UInt32.toNat_add, UInt32.toNat_one]
  exact Nat.mod_eq_of_lt small

private theorem toNat_pred (positive : n ≠ 0) : ((n - 1).toNat : ℤ) = n.toNat - 1 := by
  have nonzero : n.toNat ≠ 0 := fun zero => positive (UInt32.toNat_inj.mp zero)
  have below : (1 : UInt32) ≤ n := by
    rw [UInt32.le_iff_toNat_le, UInt32.toNat_one]
    omega
  rw [UInt32.toNat_sub_of_le _ _ below, UInt32.toNat_one]
  omega

section

variable (held : Held s)
include held

theorem bget (idle : s.ref call = none) {addr : Address} {cache : Bcache}
    (found : s.cache.bget? addr = some (cache, i)) (counts : s.Counts (.bget call addr)) :
    Held { s.setRef call (some ⟨.waiting, i, addr⟩) with cache } := by
  have entering : ¬ Refers i (s.ref call) := by simp [idle, Refers]
  refine held.recount rfl (held.placed.bget? found) ?_ ?_ (by simp [Owns, idle]) ?_ ?_
  · intro j
    rcases bget?_cases found with ⟨-, rfl⟩ | ⟨-, -, rfl⟩ <;>
    · rcases eq_or_ne j i with rfl | distinct
      · rw [set_buf_self]
      · rw [set_buf_of_ne distinct]
  · intro j
    rcases bget?_cases found with ⟨hit, rfl⟩ | ⟨-, free, rfl⟩
    · rcases eq_or_ne j i with rfl | distinct
      · have entered := (held.counted j).enter entering (refers_some (r := ⟨.waiting, j, addr⟩).mpr rfl)
        rw [set_buf_self]
        refine entered.of_eq ?_
        have added := toNat_succ (counts j hit)
        change ((s.cache.buf j).refcnt + 1).toNat - (s.pins j : ℤ) = _
        omega
      · rw [set_buf_of_ne distinct]
        exact (held.counted j).stay (by simp [Refers, idle, distinct.symm])
    · rcases eq_or_ne j i with rfl | distinct
      · have entered := (held.counted j).enter entering (refers_some (r := ⟨.waiting, j, addr⟩).mpr rfl)
        rw [free, UInt32.toNat_zero] at entered
        rw [set_buf_self]
        refine entered.of_eq ?_
        change (1 : ℤ) - (s.pins j : ℤ) = _
        omega
      · rw [set_buf_of_ne distinct]
        exact (held.counted j).stay (by simp [Refers, idle, distinct.symm])
  · intro o r refers
    rcases bget?_cases found with ⟨-, rfl⟩ | ⟨-, free, rfl⟩
    · rcases eq_or_ne r.buf i with same | distinct
      · subst same
        rw [set_buf_self]
        exact ⟨rfl, rfl⟩
      · rw [set_buf_of_ne distinct]
        exact ⟨rfl, rfl⟩
    · have distinct : r.buf ≠ i := by
        rintro rfl
        exact held.used refers free
      rw [set_buf_of_ne distinct]
      exact ⟨rfl, rfl⟩
  · rintro r ⟨⟩
    refine .inr ⟨?_, rfl⟩
    rcases bget?_cases found with ⟨hit, rfl⟩ | ⟨-, -, rfl⟩
    · rw [set_buf_self]
      exact (lookup?_eq_some hit).1
    · rw [set_buf_self]
      rfl

/-- Only the reference count of one buffer changes, by a call that comes or goes or by a pin. -/
private theorem recount_one (call : ℕ) {refcnt : UInt32} (ref : s'.ref = update s.ref call x) (placed : s'.cache.Placed)
    (cache : s'.cache.buf = (s.cache.set i { s.cache.buf i with refcnt }).buf)
    (others : ∀ j, j ≠ i → s'.pins j = s.pins j ∧ (Refers j x ↔ Refers j (s.ref call)))
    (counted : Census s'.ref (Refers i) (refcnt.toNat - s'.pins i))
    (owner : ∀ i, Owns i x ↔ Owns i (s.ref call)) (moved : ∀ r, x = some r → s.ref call = some r) : Held s' := by
  have kept (j : Fin nbuf) : (s'.cache.buf j).locked = (s.cache.buf j).locked ∧
      (s'.cache.buf j).addr = (s.cache.buf j).addr ∧ (s'.cache.buf j).valid = (s.cache.buf j).valid := by
    rw [cache]
    rcases eq_or_ne j i with rfl | distinct
    · rw [set_buf_self]
      exact ⟨rfl, rfl, rfl⟩
    · rw [set_buf_of_ne distinct]
      exact ⟨rfl, rfl, rfl⟩
  refine held.recount ref placed (fun j => (kept j).1) (fun j => ?_) owner (fun _ r _ => (kept r.buf).2)
    fun r now => .inl (moved r now)
  rw [cache]
  rcases eq_or_ne j i with rfl | distinct
  · rwa [set_buf_self]
  · rw [set_buf_of_ne distinct, (others j distinct).1, ref]
    exact (held.counted j).stay (others j distinct).2

theorem brelse (refers : s.ref call = some r) (releasing : r.phase = .releasing) :
    Held { s.setRef call none with cache := s.cache.brelse r.buf } := by
  have buffers : (s.cache.brelse r.buf).buf =
      (s.cache.set r.buf { s.cache.buf r.buf with refcnt := (s.cache.buf r.buf).refcnt - 1 }).buf := by
    unfold Bcache.brelse
    split <;> rfl
  refine held.recount_one call rfl (held.placed.brelse (held.not_pristine refers)) buffers (fun j distinct => ⟨rfl, ?_⟩)
    ?_ ?_ nofun
  · simp [Refers, refers, distinct.symm]
  · have outside : ¬ Refers r.buf none := by simp [Refers]
    refine ((held.counted r.buf).leave ⟨r, refers, rfl⟩ outside).of_eq ?_
    have removed := toNat_pred (held.used refers)
    change _ - (s.pins r.buf : ℤ) = _
    omega
  · simp [Owns, refers, releasing]

theorem repin {refcnt : UInt32} {pins : ℕ} (used : (s.cache.buf i).refcnt ≠ 0)
    (counted : (refcnt.toNat : ℤ) - pins = (s.cache.buf i).refcnt.toNat - s.pins i) :
    Held { s with cache := s.cache.set i { s.cache.buf i with refcnt }, pins := update s.pins i pins } := by
  refine held.recount_one 0 (x := s.ref 0) (update_eq_self 0 s.ref).symm
    (held.placed.set_used rfl fun pristine => used pristine.2.2) rfl (fun j distinct => ⟨?_, Iff.rfl⟩) ?_
    (fun _ => Iff.rfl) (fun _ => id)
  · exact update_of_ne distinct _ _
  · have pinned : update s.pins i pins i = pins := update_self _ _ _
    simp only [pinned]
    exact (held.counted i).of_eq counted

theorem bpin (used : (s.cache.buf i).refcnt ≠ 0) (counts : s.Counts (.bpin i)) :
    Held { s with cache := s.cache.bpin i, pins := update s.pins i (s.pins i + 1) } := by
  have added := toNat_succ counts
  exact held.repin used (by omega)

theorem used_of_pinned (pinned : s.pins i ≠ 0) : (s.cache.buf i).refcnt ≠ 0 := by
  intro zero
  obtain ⟨inside, -, counted⟩ := held.counted i
  simp only [zero, UInt32.toNat_zero] at counted
  omega

theorem bunpin (pinned : s.pins i ≠ 0) :
    Held { s with cache := s.cache.bunpin i, pins := update s.pins i (s.pins i - 1) } := by
  have removed := toNat_pred (held.used_of_pinned pinned)
  exact held.repin (held.used_of_pinned pinned) (by omega)

theorem step {act : Act} (counts : s.Counts act) (enabled : s.step? act = some s') :
    Held s' := by
  cases System.Step.of_step? enabled with
  | bget idle found => exact held.bget idle found counts
  | noBuffers | bwrite => exact { held with }
  | @acquire call r refers waiting free =>
    refine held.advance refers rfl rfl rfl rfl rfl ?_ (.inl rfl) nofun nofun
    have unlocked := held.owned r.buf
    rw [if_neg (by simp [free])] at unlocked
    exact unlocked.enter (by simp [refers, owns_some, waiting]) (by simp [owns_some])
  | @hit call r refers testing valid =>
    refine held.advance refers (b := s.cache.buf r.buf) ?_ rfl rfl rfl rfl ?_ (.inl rfl) nofun (fun _ => valid)
    · exact congrArg (Bcache.mk · s.cache.order) (update_eq_self _ _).symm
    · exact (held.owned r.buf).stay (by simp [refers, owns_some, testing])
  | @miss call r refers testing invalid =>
    refine held.advance refers (b := s.cache.buf r.buf) ?_ rfl rfl rfl rfl ?_ (.inl rfl) (fun _ => invalid) nofun
    · exact congrArg (Bcache.mk · s.cache.order) (update_eq_self _ _).symm
    · exact (held.owned r.buf).stay (by simp [refers, owns_some, testing])
  | @fill call r refers reading =>
    refine held.advance refers rfl rfl rfl rfl rfl ?_ (.inr ⟨r, refers, rfl, .inr (.inl reading)⟩) nofun (fun _ => rfl)
    exact (held.owned r.buf).stay (by simp [refers, owns_some, reading])
  | @modify call r data refers holding =>
    have same : update s.ref call (some { r with phase := .holding }) = s.ref := by
      rw [← holding, ← refers, update_eq_self]
    refine held.advance refers rfl same.symm rfl rfl rfl (held.owned r.buf) (.inl rfl) nofun fun _ => ?_
    exact held.filled call r refers holding
  | @release call r refers holding =>
    refine held.advance refers rfl rfl rfl rfl rfl ?_ (.inl rfl) nofun nofun
    have owner : Owns r.buf (s.ref call) := ⟨r, refers, rfl, .inr (.inr holding)⟩
    have locked := held.owned r.buf
    split at locked
    · exact locked.leave owner (by simp [owns_some])
    · exact absurd (locked.one_le owner) (by omega)
  | brelse refers releasing => exact held.brelse refers releasing
  | bpin used => exact held.bpin used counts
  | bunpin pinned => exact held.bunpin pinned

end

end Held

end Xv6.Fs.Bio
