import Xv6.Machine.Ensures
import Xv6.Model.Fs.Mkfs
import Xv6.Proofs.Fs.Image

/-! # The image that `mkfs` writes

The bitmap is written at the end. Until then the image is seen with the bitmap that `freeblock` stands for,
and this draft is sound all along: `iappend` fills an empty slot with the next block, which is blank, and
overwrites blocks that are in slots of its inode. The specifications say how a draft grows, and that a
program stops early only for want of blocks or of slots.
-/

namespace Xv6.Fs.Mkfs

open Machine Image Function

variable {st st' : State} {din din' : Dinode} {i k fbn : ℕ} {fails : Exit → Prop}

/-- The image with the bitmap still to be written. -/
def draft (st : State) : Image := { sb.image st.disk with bit := fun b => decide (b < st.freeblock) }

/-- The sectors that are not in use are blank. -/
structure Ready (st : State) : Prop where
  sectors : st.sectors = fssize
  low : sb.datastart ≤ st.freeblock
  high : st.freeblock ≤ fssize
  blank : ∀ b, st.freeblock ≤ b → st.disk b = zeroes
  boot : st.disk 1 = superblockBlock

theorem Ready.next (ready : Ready st) (room : st.freeblock < fssize) :
    Ready { st with freeblock := st.freeblock + 1 } where
  sectors := ready.sectors
  low := Nat.le_succ_of_le ready.low
  high := room
  blank b free := ready.blank b (Nat.le_of_succ_le free)
  boot := ready.boot

theorem Ready.write (ready : Ready st) {b : ℕ} (later : 1 < b) (used : b < st.freeblock) (data : Block) :
    Ready { st with disk := update st.disk b data, sectors := max st.sectors (b + 1) } where
  sectors := by
    rw [ready.sectors]
    exact max_eq_left (Nat.lt_of_lt_of_le used ready.high)
  low := ready.low
  high := ready.high
  blank c free := (update_of_ne (Nat.ne_of_gt (Nat.lt_of_lt_of_le used free)) ..).trans (ready.blank c free)
  boot := (update_of_ne (Nat.ne_of_lt later) ..).trans ready.boot

section Primitives

variable {α : Type} {final : α → State → Prop} {sec : ℕ} {buf : Block}

theorem nextBlock_bind {f : ℕ → Make α}
    (rest : Ensures (f st.freeblock) { st with freeblock := st.freeblock + 1 } final fails) :
    Ensures (nextBlock >>= f) st final fails := rest

theorem wsect_bind {f : Unit → Make α}
    (rest : Ensures (f ())
      { st with disk := update st.disk sec buf, sectors := max st.sectors (sec + 1) } final fails) :
    Ensures (wsect sec buf >>= f) st final fails := rest

end Primitives

theorem rsect_ensures {sec : ℕ} (sectors : st.sectors = fssize) (beyond : fssize ≤ sec → fails .die) :
    Ensures (rsect sec) st (fun buf st' => sec < fssize ∧ buf = st.disk sec ∧ st' = st) fails := by
  refine .get_bind (.ite (fun outside => .throw (beyond (sectors ▸ outside))) fun inside => ?_)
  exact .pure ⟨by omega, rfl, rfl⟩

section Slots

/-- What every write to the inode `i`, which is in memory, does to a draft. -/
structure Keeps (i : ℕ) (st : State) (din : Dinode) (st' : State) (din' : Dinode) : Prop where
  ready : Ready st'
  sound : Sound sb ((draft st').put i din')
  fields : { din' with addrs := din.addrs } = din
  freeinode : st'.freeinode = st.freeinode
  inode : (draft st').inode = (draft st).inode

/-- What becomes of a draft when a slot is filled. -/
structure Filled (i k : ℕ) (st : State) (din : Dinode) (st' : State) (din' : Dinode) (b : ℕ) : Prop
    extends Keeps i st din st' din' where
  byte : ∀ j o, ((draft st').put i din').byte j o = ((draft st).put i din).byte j o
  held : ∀ x, x ≠ (i, k) → ((draft st').put i din').held x = ((draft st).put i din).held x
  present : ((draft st').put i din').held (i, k) = some b
  count : st'.freeblock = st.freeblock + if ((draft st).put i din).held (i, k) = none then 1 else 0

variable {b a : ℕ}

theorem Filled.of_held (ready : Ready st) (sound : Sound sb ((draft st).put i din))
    (present : ((draft st).put i din).held (i, k) = some b) : Filled i k st din st din b :=
  ⟨⟨ready, sound, rfl, rfl, rfl⟩, fun _ _ => rfl, fun _ _ => rfl, present, by simp [present]⟩

theorem rsect_held (ready : Ready st) (sound : Sound sb ((draft st).put i din))
    (present : ((draft st).put i din).held (i, k) = some b) : (rsect b).run st = .ok (st.disk b, st) := by
  refine ((rsect_ensures ready.sectors fun beyond => ?_).mono fun _ _ => And.right).run_eq
  exact absurd (sound.in_data present).2 (Nat.not_lt.mpr beyond)

theorem one_lt (low : sb.datastart ≤ b) : 1 < b := Nat.lt_of_lt_of_le (by decide) low

theorem lt_freeblock {x : ℕ × ℕ} (sound : Sound sb ((draft st).put i din))
    (present : ((draft st).put i din).held x = some b) : b < st.freeblock := by
  simpa [draft] using sound.bit_of_held present

theorem bit_draft_freeblock : ((draft st).put i din).bit st.freeblock = false := by simp [draft]

theorem update_bit_draft : update (draft st).bit st.freeblock true = fun b => decide (b < st.freeblock + 1) := by
  funext b
  rw [update_apply]
  by_cases here : b = st.freeblock
  · simp [here]
  · simp only [here, if_false, draft, decide_eq_decide]
    omega

theorem block_freeblock (ready : Ready st) : (draft st).block st.freeblock = Vector.replicate _ 0 := by
  simp only [draft, Superblock.image, ready.low, if_true]
  exact ready.blank _ le_rfl

theorem Filled.of_assigned (ready' : Ready st') (sound : Sound sb ((draft st).put i din))
    (assigned : Assigned sb ((draft st).put i din) ((draft st').put i din') (i, k) st.freeblock)
    (fields : { din' with addrs := din.addrs } = din) (inode : (draft st').inode = (draft st).inode)
    (freeinode : st'.freeinode = st.freeinode) (freeblock : st'.freeblock = st.freeblock + 1) :
    Filled i k st din st' din' st.freeblock := by
  refine ⟨⟨ready', assigned.sound sound, fields, freeinode, inode⟩, assigned.byte, fun x other => ?_, ?_, ?_⟩
  · rw [assigned.held, update_of_ne other]
  · rw [assigned.held, update_self]
  · rw [freeblock, if_pos assigned.empty]

/-- The draft once `freeblock++` has been stored in a slot of the inode. -/
theorem put_draft_next (ready : Ready st) (a : UInt32) :
    (draft { st with freeblock := st.freeblock + 1 }).put i (din.setAddr k a) =
      ⟨update ((draft st).put i din).bit st.freeblock true,
        update ((draft st).put i din).inode i ((((draft st).put i din).inode i).setAddr k a),
        update ((draft st).put i din).block st.freeblock (Vector.replicate _ 0)⟩ := by
  rw [put_bit, put_block, put_inode_self, update_bit_draft, ← block_freeblock ready, update_eq_self]
  simp only [put, update_idem]
  rfl

theorem fillAddr_ensures (ready : Ready st) (sound : Sound sb ((draft st).put i din)) (live : din.type ≠ 0)
    (direct : k ≤ ndirect)
    (noRoom : fssize < st.freeblock + (if ((draft st).put i din).held (i, k) = none then 1 else 0) → fails .die) :
    Ensures (fillAddr din k) st
      (fun r st' => Filled i k st din st' r.1 (r.1.addr k).toNat ∧ r.2 = st'.disk (r.1.addr k).toNat) fails := by
  have slot : ((draft st).put i din).slot i k = din.addr k := by
    rw [slot_direct (by rwa [put_inode_self]) direct, put_inode_self]
  refine .ite (fun empty => ?_) fun present => ?_
  · have absent : ((draft st).put i din).held (i, k) = none := held_eq_none.mpr (slot.trans empty)
    rw [if_pos absent] at noRoom
    refine nextBlock_bind ?_
    have small : st.freeblock < UInt32.size := Nat.lt_of_le_of_lt ready.high (by decide)
    have stored : (din.setAddr k (UInt32.ofNat st.freeblock)).addr k = UInt32.ofNat st.freeblock := by
      rw [Dinode.addr_setAddr _ direct, if_pos rfl]
    have sectors : ({ st with freeblock := st.freeblock + 1 } : State).sectors = fssize := ready.sectors
    refine (rsect_ensures sectors fun beyond => noRoom ?_).bind ?_
    · rw [stored, UInt32.toNat_ofNat_of_lt' small] at beyond
      exact Nat.lt_succ_of_le beyond
    rintro buf _ ⟨inside, rfl, rfl⟩
    refine .pure ⟨?_, rfl⟩
    simp only [stored, UInt32.toNat_ofNat_of_lt' small] at inside ⊢
    refine .of_assigned (ready.next inside) sound ?_ rfl rfl rfl rfl
    rw [put_draft_next ready]
    exact sound.assign_addr (by rwa [put_inode_self]) direct (by rwa [put_inode_self]) bit_draft_freeblock inside
  · have there : ((draft st).put i din).held (i, k) = some (din.addr k).toNat :=
      held_eq_some.mpr ⟨slot ▸ present, by rw [slot]⟩
    exact .run_bind (rsect_held ready sound there) (.pure ⟨.of_held ready sound there, rfl⟩)

/-- The draft once `freeblock++` has been stored in the indirect block `a`. -/
theorem put_draft_entry (ready : Ready st) (low : sb.datastart ≤ a) (data : Block) {sectors : ℕ} :
    (draft { st with freeblock := st.freeblock + 1, disk := update st.disk a data, sectors := sectors }).put i din =
      ⟨update ((draft st).put i din).bit st.freeblock true, ((draft st).put i din).inode,
        update (update ((draft st).put i din).block st.freeblock (Vector.replicate _ 0)) a data⟩ := by
  rw [put_bit, put_block, update_bit_draft, ← block_freeblock ready, update_eq_self]
  simp only [draft, put, sb.image_data _ low]

theorem fillEntry_ensures (ready : Ready st) (sound : Sound sb ((draft st).put i din)) {j : ℕ}
    (indirect : ((draft st).put i din).held (i, ndirect) = some a) (small : j < nindirect)
    (noRoom : fssize < st.freeblock +
      (if ((draft st).put i din).held (i, ndirect + 1 + j) = none then 1 else 0) → fails .die) :
    Ensures (fillEntry a (st.disk a) j) st
      (fun r st' => Filled i (ndirect + 1 + j) st din st' din r.1 ∧ r.2 = st'.disk r.1) fails := by
  obtain ⟨low, high⟩ := sound.in_data indirect
  have slot := slot_entry_of_held indirect small
  have block : ((draft st).put i din).block a = st.disk a := if_pos low
  rw [block] at slot
  refine .ite (fun empty => ?_) fun present => ?_
  · have absent : ((draft st).put i din).held (i, ndirect + 1 + j) = none := held_eq_none.mpr (slot.trans empty)
    rw [if_pos absent] at noRoom
    refine nextBlock_bind (wsect_bind ?_)
    have fits : st.freeblock < UInt32.size := Nat.lt_of_le_of_lt ready.high (by decide)
    have stored : ((st.disk a).setWord j (UInt32.ofNat st.freeblock)).word j = UInt32.ofNat st.freeblock := by
      have : j < 256 := small
      exact Vector.word_setWord_self _ _ (by simp only [bsize]; omega)
    have used : a < st.freeblock := lt_freeblock sound indirect
    have sectors : max st.sectors (a + 1) = fssize := (ready.write (one_lt low) used zeroes).sectors
    refine (rsect_ensures sectors fun beyond => noRoom ?_).bind ?_
    · rw [stored, UInt32.toNat_ofNat_of_lt' fits] at beyond
      exact Nat.lt_succ_of_le beyond
    rintro buf _ ⟨inside, rfl, rfl⟩
    refine .pure ⟨?_, rfl⟩
    simp only [stored, UInt32.toNat_ofNat_of_lt' fits] at inside ⊢
    have after :=
      (ready.next inside).write (one_lt low) (Nat.lt_succ_of_lt used)
      ((st.disk a).setWord j (UInt32.ofNat st.freeblock))
    refine .of_assigned after sound ?_ rfl ?_ rfl rfl
    · rw [put_draft_entry ready low, ← block]
      exact sound.assign_entry indirect small (by rw [block]; exact empty) bit_draft_freeblock inside
    · simp only [draft, sb.image_data _ low]
  · have there : ((draft st).put i din).held (i, ndirect + 1 + j) = some ((st.disk a).word j).toNat :=
      held_eq_some.mpr ⟨slot ▸ present, by rw [slot]⟩
    exact .run_bind (rsect_held ready sound there) (.pure ⟨.of_held ready sound there, rfl⟩)

end Slots

section Loop

/-- The blocks of a file of `n` bytes, with the indirect block. -/
def blocksOf (n : ℕ) : ℕ := (n + bsize - 1) / bsize + if ndirect * bsize < n then 1 else 0

variable {m off x j start bn : ℕ} {im : Image} {st₁ : State} {p : List UInt8}

theorem blocksOf_mono {n : ℕ} (le : m ≤ n) : blocksOf m ≤ blocksOf n := by
  unfold blocksOf
  split <;> split <;> simp only [bsize, ndirect] at * <;> omega

/-- The slots in use are those for the first `off` bytes. -/
structure Exact (im : Image) (i off : ℕ) : Prop where
  data : ∀ bn, im.held (i, dataSlot bn) = none ↔ off ≤ bn * bsize
  indirect : im.held (i, ndirect) = none ↔ off ≤ ndirect * bsize

theorem Exact.congr {im' : Image} (exact : Exact im i off) (held : ∀ k, im'.held (i, k) = im.held (i, k)) :
    Exact im' i off :=
  ⟨fun bn => by rw [held, exact.data], by rw [held, exact.indirect]⟩

/-- What the fetch of a block does to a draft: the block is mapped, and the indirect block where it needs one. -/
structure Fetched (i fbn : ℕ) (st : State) (din : Dinode) (st' : State) (din' : Dinode) (x : ℕ) : Prop
    extends Keeps i st din st' din' where
  byte : ∀ j o, ((draft st').put i din').byte j o = ((draft st).put i din).byte j o
  others : ∀ j ≠ i, ∀ k, ((draft st').put i din').held (j, k) = ((draft st).put i din).held (j, k)
  present : ((draft st').put i din').held (i, dataSlot fbn) = some x
  data : ∀ bn ≠ fbn, ((draft st').put i din').held (i, dataSlot bn) = ((draft st).put i din).held (i, dataSlot bn)
  indirect : ((draft st').put i din').held (i, ndirect) = none ↔ ((draft st).put i din).held (i, ndirect) =
    none ∧ fbn < ndirect
  count : st'.freeblock = st.freeblock + (if ((draft st).put i din).held (i, dataSlot fbn) = none then 1 else 0) +
    if ndirect ≤ fbn ∧ ((draft st).put i din).held (i, ndirect) = none then 1 else 0

theorem Filled.fetched (filled : Filled i fbn st din st' din' x) (direct : fbn < ndirect) :
    Fetched i fbn st din st' din' x := by
  have slot : dataSlot fbn = fbn := if_pos direct
  refine ⟨filled.toKeeps, filled.byte, fun j other k => filled.held _ (by simp [other]), by
    rw [slot, filled.present], fun bn other => filled.held _ ?_, ?_, ?_⟩
  · intro same
    exact other (dataSlot_inj ((congrArg Prod.snd same).trans slot.symm))
  · rw [filled.held _ (by simp only [ne_eq, Prod.mk.injEq, true_and]; omega)]
    simp [direct]
  · simp only [filled.count, slot, Nat.not_le.mpr direct, false_and, if_false, Nat.add_zero]

theorem held_entry_of_none (absent : im.held (i, ndirect) = none) : im.held (i, ndirect + 1 + j) = none := by
  rw [held_eq_none] at absent ⊢
  simp only at absent ⊢
  rw [slot_entry (by omega), if_neg (by simp [absent])]

theorem Filled.fetched_entry {a : ℕ} (first : Filled i ndirect st din st₁ din' a)
    (second : Filled i (ndirect + 1 + j) st₁ din' st' din' x) : Fetched i (ndirect + j) st din st' din' x := by
  have slot : dataSlot (ndirect + j) = ndirect + 1 + j := by
    rw [dataSlot, if_neg (by omega)]
    omega
  have apart : (i, ndirect) ≠ (i, ndirect + 1 + j) := by simp only [ne_eq, Prod.mk.injEq, true_and]; omega
  refine ⟨⟨second.ready, second.sound, first.fields, second.freeinode.trans first.freeinode,
    second.inode.trans first.inode⟩, fun l o => (second.byte l o).trans (first.byte l o), fun l other k => ?_,
    slot ▸ second.present, fun bn other => ?_, ?_, ?_⟩
  · rw [second.held _ (by simp [other]), first.held _ (by simp [other])]
  · rw [second.held, first.held]
    · simp [dataSlot_ne_ndirect]
    · intro same
      exact other (dataSlot_inj ((congrArg Prod.snd same).trans slot.symm))
  · rw [second.held _ apart, first.present]
    simp
  · rw [second.count, first.count, slot, first.held _ apart.symm]
    by_cases absent : ((draft st).put i din).held (i, ndirect) = none
    · simp [absent, held_entry_of_none absent]
    · simp [absent]

theorem fetch_ensures (ready : Ready st) (sound : Sound sb ((draft st).put i din)) (live : din.type ≠ 0)
    (small : fbn < maxfile)
    (noRoom : fssize < st.freeblock + (if ((draft st).put i din).held (i, dataSlot fbn) = none then 1 else 0) +
      (if ndirect ≤ fbn ∧ ((draft st).put i din).held (i, ndirect) = none then 1 else 0) → fails .die) :
    Ensures (fetch din fbn) st (fun r st' => Fetched i fbn st din st' r.1 r.2.1 ∧ r.2.2 = st'.disk r.2.1) fails := by
  refine .ite (fun direct => ?_) fun high => ?_
  · simp only [dataSlot, direct, if_true, Nat.not_le.mpr direct, false_and, if_false, Nat.add_zero] at noRoom
    refine (fillAddr_ensures ready sound live direct.le noRoom).bind ?_
    rintro ⟨din', buf⟩ st' ⟨filled, contents⟩
    exact .pure ⟨filled.fetched direct, contents⟩
  · obtain ⟨j, rfl⟩ := Nat.exists_eq_add_of_le (Nat.not_lt.mp high)
    have slot : dataSlot (ndirect + j) = ndirect + 1 + j := by
      rw [dataSlot, if_neg (by omega)]
      omega
    have apart : (i, ndirect + 1 + j) ≠ (i, ndirect) := by simp only [ne_eq, Prod.mk.injEq, true_and]; omega
    simp only [slot, Nat.le_add_right, true_and] at noRoom
    refine (fillAddr_ensures ready sound live le_rfl fun full => noRoom (by omega)).bind ?_
    rintro ⟨din', indirect⟩ st₁ ⟨first, contents⟩
    simp only at first contents ⊢
    subst contents
    rw [Nat.add_sub_cancel_left]
    refine (fillEntry_ensures first.ready first.sound first.present (by unfold maxfile at small; omega) ?_).bind ?_
    · rw [first.count, first.held _ apart]
      exact fun full => noRoom (by omega)
    rintro ⟨x, buf⟩ st' ⟨second, contents⟩
    exact .pure ⟨first.fetched_entry second, contents⟩

theorem need_eq (exact : Exact im i off) (positive : 0 < m) (fits : m ≤ bsize - off % bsize) :
    (if im.held (i, dataSlot (off / bsize)) = none then 1 else 0) +
      (if ndirect ≤ off / bsize ∧ im.held (i, ndirect) = none then 1 else 0) + blocksOf off = blocksOf (off + m) := by
  simp only [exact.data, exact.indirect]
  unfold blocksOf
  split <;> split <;> split <;> split <;> simp only [bsize, ndirect] at * <;> omega

theorem Fetched.exact (fetched : Fetched i (off / bsize) st din st' din' x)
    (exact : Exact ((draft st).put i din) i off) (positive : 0 < m) (fits : m ≤ bsize - off % bsize) :
    Exact ((draft st').put i din') i (off + m) where
  data bn := by
    by_cases here : bn = off / bsize
    · subst here
      rw [fetched.present]
      simp only [reduceCtorEq, false_iff, bsize] at *
      omega
    · rw [fetched.data bn here, exact.data]
      simp only [bsize] at *
      omega
  indirect := by
    rw [fetched.indirect, exact.indirect]
    simp only [bsize, ndirect] at *
    omega

/-- What the loop of `iappend` does to a draft. -/
structure Appended (i off : ℕ) (p : List UInt8) (st : State) (din : Dinode) (st' : State) (din' : Dinode) : Prop
    extends Keeps i st din st' din' where
  others : ∀ j ≠ i, ∀ o, ((draft st').put i din').byte j o = ((draft st).put i din).byte j o
  held : ∀ j ≠ i, ∀ k, ((draft st').put i din').held (j, k) = ((draft st).put i din).held (j, k)
  bytes : ∀ o, ((draft st').put i din').byte i o =
    if off ≤ o ∧ o < off + p.length then p.getD (o - off) 0 else ((draft st).put i din).byte i o
  exact : Exact ((draft st').put i din') i (off + p.length)
  count : st'.freeblock + blocksOf off = st.freeblock + blocksOf (off + p.length)
  fits : off + p.length ≤ maxfile * bsize

/-- Some bytes of a block are overwritten. -/
def overwritten (im : Image) (b start m : ℕ) (p : List UInt8) : Image :=
  { im with block := Function.update im.block b ((im.block b).splice start m fun l => p.getD l 0) }

/-- A write to a block in a slot. -/
structure Writes (i x start m : ℕ) (p : List UInt8) (din : Dinode) (st st' : State) : Prop where
  ready : Ready st'
  inode : (draft st').inode = (draft st).inode
  view : (draft st').put i din = overwritten ((draft st).put i din) x start m p
  freeinode : st'.freeinode = st.freeinode
  freeblock : st'.freeblock = st.freeblock

theorem wsect_ensures {y : ℕ × ℕ} (ready : Ready st) (sound : Sound sb ((draft st).put i din))
    (present : ((draft st).put i din).held y = some x) :
    Ensures (wsect x ((st.disk x).splice start m fun l => p.getD l 0)) st
      (fun _ st' => Writes i x start m p din st st') fails := by
  obtain ⟨low, high⟩ := sound.in_data present
  have block : st.disk x = ((draft st).put i din).block x := (if_pos low).symm
  refine .modify ⟨ready.write (one_lt low) (lt_freeblock sound present) _, ?_, ?_, rfl, rfl⟩
  · simp only [draft, sb.image_data _ low]
  · rw [block]
    simp only [draft, put, overwritten, sb.image_data _ low]

theorem Writes.held (writes : Writes i x start m p din st st')
    (sound : Sound sb ((draft st).put i din)) (present : ((draft st).put i din).held (i, dataSlot bn) = some x)
    (y : ℕ × ℕ) :
    ((draft st').put i din).held y = ((draft st).put i din).held y := by
  rw [writes.view]
  exact held_congr (sound.slot_overwrite present ..)

theorem Writes.sound (writes : Writes i x start m p din st st')
    (sound : Sound sb ((draft st).put i din)) (present : ((draft st).put i din).held (i, dataSlot bn) = some x) :
    Sound sb ((draft st').put i din) := by
  rw [writes.view]
  exact sound.overwrite present _

theorem Appended.nothing (ready : Ready st) (sound : Sound sb ((draft st).put i din))
    (exact : Exact ((draft st).put i din) i off) (fits : off ≤ maxfile * bsize) : Appended i off [] st din st din :=
  ⟨⟨ready, sound, rfl, rfl, rfl⟩, fun _ _ _ => rfl, fun _ _ _ => rfl, fun o => by simp, exact, rfl, fits⟩

theorem Appended.round {st₂ : State} {din₁ : Dinode}
    (fetched : Fetched i (off / bsize) st din st₁ din₁ x) (exact : Exact ((draft st).put i din) i off)
    (positive : 0 < m) (fits : m ≤ bsize - off % bsize) (short : m ≤ p.length)
    (writes : Writes i x (off % bsize) m p din₁ st₁ st₂)
    (rest : Appended i (off + m) (p.drop m) st₂ din₁ st' din') : Appended i off p st din st' din' := by
  have byte := fetched.sound.byte_splice fetched.present fits fun l => p.getD l 0
  change ∀ j o, (overwritten ((draft st₁).put i din₁) x (off % bsize) m p).byte j o = _ at byte
  rw [← writes.view] at byte
  have length : off + m + (p.drop m).length = off + p.length := by
    rw [List.length_drop]
    omega
  have last := rest.exact
  have room := rest.fits
  have added := rest.count
  rw [length] at last room added
  refine ⟨⟨rest.ready, rest.sound, ?_, rest.freeinode.trans (writes.freeinode.trans fetched.freeinode),
    rest.inode.trans (writes.inode.trans fetched.inode)⟩, fun j other o => ?_, fun j other k => ?_, fun o => ?_,
    last, ?_, room⟩
  · rw [← fetched.fields, ← rest.fields]
  · rw [rest.others j other o, byte, if_neg (fun h => other h.1), fetched.byte]
  · rw [rest.held j other k, writes.held fetched.sound fetched.present, fetched.others j other]
  · rw [rest.bytes, length, byte, fetched.byte]
    by_cases early : o < off + m
    · rw [if_neg (by omega)]
      by_cases low : off ≤ o
      · rw [if_pos ⟨rfl, low, early⟩, if_pos ⟨low, by omega⟩]
      · rw [if_neg (by omega), if_neg (by omega)]
    · rw [if_neg (c := i = i ∧ _) (by omega)]
      by_cases high : o < off + p.length
      · rw [if_pos ⟨by omega, high⟩, if_pos ⟨by omega, high⟩, List.getD_eq_getElem?_getD, List.getElem?_drop,
          List.getD_eq_getElem?_getD, show m + (o - (off + m)) = o - off by omega]
      · rw [if_neg (by omega), if_neg (by omega)]
  · have need := need_eq exact positive fits
    have count := fetched.count
    have same := writes.freeblock
    omega

theorem iappendLoop_ensures (fuel : ℕ) (enough : p.length ≤ fuel) (ready : Ready st)
    (sound : Sound sb ((draft st).put i din)) (live : din.type ≠ 0) (exact : Exact ((draft st).put i din) i off)
    (start : off ≤ maxfile * bsize)
    (noRoom : fssize + blocksOf off < st.freeblock + blocksOf (off + p.length) → fails .die)
    (long : maxfile * bsize < off + p.length → fails .assertion) :
    Ensures (iappendLoop fuel din off p) st
      (fun r st' => Appended i off p st din st' r.1 ∧ r.2 = off + p.length) fails := by
  induction fuel generalizing st din off p with
  | zero =>
    obtain rfl : p = [] := List.length_eq_zero_iff.mp (Nat.le_zero.mp enough)
    exact .pure ⟨.nothing ready sound exact start, rfl⟩
  | succ fuel ih =>
    refine .ite (fun done => ?_) fun more => ?_
    · obtain rfl : p = [] := List.length_eq_zero_iff.mp done
      exact .pure ⟨.nothing ready sound exact start, rfl⟩
    refine .ite (fun full => .throw (long ?_)) fun small => ?_
    · have := Nat.le_div_iff_mul_le (k := bsize) (by decide) |>.mp full
      omega
    generalize round : min p.length ((off / bsize + 1) * bsize - off) = m
    have positive : 0 < m := by
      simp only [bsize] at round
      omega
    have fits : m ≤ bsize - off % bsize := by
      simp only [bsize] at round ⊢
      omega
    have need := need_eq exact positive fits
    have grows : blocksOf (off + m) ≤ blocksOf (off + p.length) := blocksOf_mono (by omega)
    refine (fetch_ensures ready sound live (Nat.not_le.mp small) fun full => noRoom (by omega)).bind ?_
    rintro ⟨din₁, x, buf⟩ st₁ ⟨fetched, contents⟩
    simp only at fetched contents ⊢
    obtain ⟨low, high⟩ := fetched.sound.in_data fetched.present
    have block : st₁.disk x = ((draft st₁).put i din₁).block x := (if_pos low).symm
    have place : off - off / bsize * bsize = off % bsize := by
      simp only [bsize]
      omega
    rw [contents, place]
    refine (wsect_ensures (p := p) fetched.ready fetched.sound fetched.present).bind ?_
    rintro _ st₂ writes
    have held := writes.held fetched.sound fetched.present
    have sound₂ := writes.sound fetched.sound fetched.present
    have exact₂ := (fetched.exact exact positive fits).congr fun k => held (i, k)
    have live₁ : din₁.type ≠ 0 := by
      have same := congrArg Dinode.type fetched.fields
      exact fun free => live (same ▸ free)
    have length : off + m + (p.drop m).length = off + p.length := by
      rw [List.length_drop]
      omega
    have same := writes.freeblock
    have count := fetched.count
    have below : off / bsize + 1 ≤ maxfile := Nat.not_le.mp small
    have room : off + m ≤ maxfile * bsize := by
      have := Nat.mul_le_mul_right bsize below
      simp only [bsize] at fits this ⊢
      omega
    refine (ih (by rw [List.length_drop]; omega) writes.ready sound₂ live₁ exact₂ room ?_ (by rwa [length])).mono ?_
    · rw [length]
      exact fun full => noRoom (by omega)
    · rintro ⟨din', stop⟩ st' ⟨rest, reached⟩
      exact ⟨.round fetched exact positive fits (by omega) writes rest, reached.trans length⟩

end Loop

end Xv6.Fs.Mkfs
