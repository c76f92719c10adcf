import Xv6.Proofs.Fs.Inode

/-! # Allocating, truncating and freeing inodes

`itrunc` frees the blocks in the slots of an inode one after another, and only at its end are the slots
themselves empty on the disk. In between, the image is the one before with some bits cleared.
-/

namespace Xv6.Fs

open Machine Image

namespace Op

variable {sb : Superblock} {s s' : Store} {ip ip' : Inode} {im im' : Image} {i : ℕ}

/-- The blocks in some slots of an inode are marked free. -/
structure Freed (im : Image) (i : ℕ) (done : ℕ → Prop) (im' : Image) : Prop where
  inode : im'.inode = im.inode
  block : im'.block = im.block
  bit : ∀ b, im'.bit b = true ↔ im.bit b = true ∧ ∀ k, done k → im.held (i, k) ≠ some b

theorem Freed.nothing : Freed im i (fun _ => False) im :=
  ⟨rfl, rfl, fun _ => ⟨fun used => ⟨used, fun _ => False.elim⟩, And.left⟩⟩

theorem Freed.congr {done done' : ℕ → Prop} (freed : Freed im i done im')
    (same : ∀ k b, im.held (i, k) = some b → (done' k ↔ done k)) : Freed im i done' im' := by
  refine ⟨freed.inode, freed.block, fun b => ?_⟩
  rw [freed.bit]
  refine and_congr_right fun _ => forall_congr' fun k => ⟨fun h d held => ?_, fun h d held => ?_⟩
  · exact h ((same k b held).mp d) held
  · exact h ((same k b held).mpr d) held

theorem Freed.slot {done : ℕ → Prop} {k : ℕ} (sound : Sound sb im) (freed : Freed im i done (sb.image s.disk))
    (new : ¬ done k) {a : UInt32} (value : a = im.slot i k) :
    Ensures (if a = 0 then pure () else bfree sb a.toNat) s
      (fun _ s' => Freed im i (fun j => done j ∨ j = k) (sb.image s'.disk)) fun _ => False := by
  subst value
  refine .ite (fun zero => .pure (freed.congr fun j b held => ?_)) fun nonzero => ?_
  · refine or_iff_left ?_
    rintro rfl
    exact slot_ne_zero_of_held held zero
  · have held := held_of_slot_ne nonzero
    have used : (sb.image s.disk).bit (im.slot i k).toNat = true := by
      refine (freed.bit _).mpr ⟨sound.bit_of_held held, fun j earlier other => new ?_⟩
      obtain rfl : j = k := congrArg Prod.snd (sound.owned.unique _ _ _ other held)
      exact earlier
    refine (bfree_spec (sound.in_data held).2 used).mono fun _ s' image => ?_
    refine ⟨by rw [image, ← freed.inode], by rw [image, ← freed.block], fun b => ?_⟩
    rw [image]
    simp only [Function.update_apply]
    split
    · next here =>
      subst here
      simp only [Bool.false_eq_true, false_iff, not_and, not_forall, not_not]
      exact fun _ => ⟨k, .inr rfl, held⟩
    · next other =>
      rw [freed.bit]
      refine and_congr_right fun _ => ⟨fun h j d => ?_, fun h j d => h j (.inl d)⟩
      rcases d with d | rfl
      · exact h j d
      · rw [held]
        exact fun same => other (Option.some.inj same).symm

theorem Freed.slots {done : ℕ → Prop} (base : ℕ) {count : ℕ} {read : ℕ → Op UInt32} (sound : Sound sb im)
    (freed : Freed im i done (sb.image s.disk)) (new : ∀ j < count, ¬ done (base + j))
    (reads : ∀ j < count, ∀ s, (sb.image s.disk).block = im.block →
      Ensures (read j) s (fun a s' => s' = s ∧ a = im.slot i (base + j)) fun _ => False) :
    Ensures (bfreeAll sb count read) s
      (fun _ s' => Freed im i (fun k => done k ∨ base ≤ k ∧ k < base + count) (sb.image s'.disk)) fun _ => False := by
  unfold bfreeAll
  let inv (j : ℕ) (s' : Store) : Prop := Freed im i (fun k => done k ∨ base ≤ k ∧ k < base + j) (sb.image s'.disk)
  have start : inv 0 s := freed.congr fun k _ _ => or_iff_left (by omega)
  suffices round : ∀ j < count, ∀ s, inv j s → Ensures (do
      let a ← read j
      if a = 0 then return () else bfree sb a.toNat) s (fun _ s' => inv (j + 1) s') fun _ => False from
    Ensures.forM_range inv start round
  intro j small s' freed
  refine (reads j small s' freed.block).bind ?_
  rintro a s' ⟨rfl, value⟩
  refine (freed.slot sound (k := base + j) ?_ value).mono fun _ s'' freed => freed.congr fun k _ _ => ?_
  · rintro (earlier | range)
    · exact new j small earlier
    · omega
  · rw [or_assoc]
    exact or_congr_right (by omega)

theorem freeSlots_spec (sound : Sound sb (sb.image s.disk)) (loaded : Loaded sb s ip) :
    Ensures (freeSlots sb ip) s
      (fun _ s' => Freed (sb.image s.disk) ip.inum (fun _ => True) (sb.image s'.disk)) fun _ => False := by
  set im := sb.image s.disk
  have inode : im.inode ip.inum = ip.toDinode := loaded.current
  have live : (im.inode ip.inum).type ≠ 0 := by rw [inode]; exact loaded.live
  have direct (k : ℕ) (small : k ≤ ndirect) : im.slot ip.inum k = ip.addr k := by rw [slot_direct live small, inode]
  have nothing : Freed im ip.inum (fun _ => False) im := .nothing
  refine (nothing.slots 0 sound (fun _ _ => id) fun j small s' _ => .pure ⟨rfl, ?_⟩).bind fun _ s₁ freed => ?_
  · rw [Nat.zero_add, direct j small.le]
  refine .ite (fun zero => .pure (freed.congr fun k b held => ?_)) fun nonzero => ?_
  · -- without an indirect block only the direct slots can hold a block
    have : k < ndirect := by
      by_contra high
      rcases Nat.lt_or_eq_of_le (Nat.le_of_not_lt high) with entry | rfl
      · exact slot_ne_zero_of_held held
          (by rw [slot_entry entry, if_neg (by rw [direct _ le_rfl]; exact fun h => h.2 zero)])
      · exact slot_ne_zero_of_held held (by rw [direct _ le_rfl, zero])
    simp [this]
  · have held : im.held (ip.inum, ndirect) = some (ip.addr ndirect).toNat := by
      rw [← direct _ le_rfl]
      exact held_of_slot_ne (by rwa [direct _ le_rfl])
    refine (freed.slots (ndirect + 1) sound (fun j _ => by simp only [false_or]; omega) fun j small s' block => ?_).bind
      fun _ s₂ freed => ?_
    · refine bread_bind (.pure ⟨rfl, ?_⟩)
      rw [slot_entry_of_held held small, disk_eq_block (sound.in_data held).1, block]
    · have last := freed.slot (k := ndirect) sound (by simp only [false_or]; omega) (direct _ le_rfl).symm
      rw [if_neg nonzero] at last
      refine last.mono fun _ s₃ freed => freed.congr fun k b held => ?_
      have : k ≤ maxfile := Nat.le_of_not_lt fun high => slot_ne_zero_of_held held (slot_of_maxfile_lt high)
      unfold maxfile at this
      simp only [true_iff]
      omega

theorem consistent_put_blank {din : Dinode} (consistent : Consistent sb im) (old : ∀ k, im.slot i k = 0)
    (blank : ∀ k, din.addr k = 0) (empty : din.size = 0) : Consistent sb (im.put i din) := by
  have slot (j k : ℕ) : (im.put i din).slot j k = im.slot j k := by
    by_cases here : j = i
    · subst here
      rw [old, slot_of_blank (by simpa using blank)]
    · exact slot_put_of_ne here k
  refine ⟨consistent.toSound.congr slot rfl, fun j bn live below => ?_⟩
  by_cases here : j = i
  · subst here
    rw [put_inode_self, empty] at below
    exact (Nat.not_lt_zero _ below).elim
  · rw [put_inode_of_ne here] at live below
    rw [slot]
    exact consistent.mapped j bn live below

/-- The blocks of an inode are given back, and the other inodes keep theirs. -/
structure Released (im : Image) (i : ℕ) (im' : Image) : Prop extends SameElsewhere im i im' where
  slot : ∀ j ≠ i, ∀ k, im'.slot j k = im.slot j k
  bit : ∀ b, im'.bit b = true ↔ im.bit b = true ∧ ∀ k, im.held (i, k) ≠ some b

theorem Released.put {im'' : Image} {din : Dinode} (released : Released im i im') (last : im'' = im'.put i din) :
    Released im i im'' := by
  subst last
  refine ⟨released.toSameElsewhere.trans .put, fun j other k => ?_, fun b => ?_⟩
  · rw [slot_put_of_ne other, released.slot j other]
  · rw [put_bit, released.bit]

section

variable (consistent : Consistent sb (sb.image s.disk)) (loaded : Loaded sb s ip)
include consistent loaded

theorem itrunc_released :
    Ensures (itrunc sb ip) s (fun ip' s' => ip' = { ip with addrs := Vector.replicate _ 0, size := 0 } ∧
      Consistent sb (sb.image s'.disk) ∧ Loaded sb s' ip' ∧ Released (sb.image s.disk) ip.inum (sb.image s'.disk))
      fun _ => False := by
  refine (freeSlots_spec consistent.toSound loaded).bind fun _ s₁ freed => ?_
  dsimp only
  generalize emptied : ({ ip with addrs := Vector.replicate _ 0, size := 0 } : Inode) = ip'
  have inum : ip'.inum = ip.inum := by rw [← emptied]
  refine (iupdate_spec ip' (by rw [inum]; exact loaded.known)).bind fun _ s' saved => .pure ⟨rfl, ?_⟩
  have image : sb.image s'.disk = (sb.image s₁.disk).put ip.inum ip'.toDinode := by rw [saved, view, inum]
  have inode : (sb.image s'.disk).inode ip.inum = ip'.toDinode := by rw [image, put_inode_self]
  have blank (k : ℕ) : (sb.image s'.disk).slot ip.inum k = 0 := by
    refine slot_of_blank (fun k => ?_) k
    rw [inode, ← emptied]
    exact Dinode.addr_zero k
  have kept (j : ℕ) (other : j ≠ ip.inum) : (sb.image s'.disk).inode j = (sb.image s.disk).inode j := by
    rw [image, put_inode_of_ne other, freed.inode]
  have block : (sb.image s'.disk).block = (sb.image s.disk).block := by rw [image, put_block, freed.block]
  have slot (j : ℕ) (other : j ≠ ip.inum) (k : ℕ) : (sb.image s'.disk).slot j k = (sb.image s.disk).slot j k :=
    slot_congr (kept j other) (fun _ _ => by rw [block]) k
  have bit (b : ℕ) : (sb.image s'.disk).bit b = true ↔
      (sb.image s.disk).bit b = true ∧ ∀ k, (sb.image s.disk).held (ip.inum, k) ≠ some b := by
    rw [image, put_bit, freed.bit]
    simp only [forall_const]
  refine ⟨⟨consistent.toSound.release blank slot bit, fun j bn live below => ?_⟩,
    ⟨by rw [inum]; exact loaded.known, ?_, ?_⟩,
    ⟨kept, fun j other => byte_congr (fun _ => held_congr (slot j other _)) fun _ _ _ => by rw [block]⟩, slot, bit⟩
  · by_cases here : j = ip.inum
    · subst here
      rw [inode, ← emptied] at below
      exact (Nat.not_lt_zero _ below).elim
    · rw [kept j here] at live below
      rw [slot j here]
      exact consistent.mapped j bn live below
  · rw [inum, inode]
  · rw [← emptied]
    exact loaded.live

theorem itrunc_spec :
    Ensures (itrunc sb ip) s (fun ip' s' => ip' = { ip with addrs := Vector.replicate _ 0, size := 0 } ∧
      Consistent sb (sb.image s'.disk) ∧ Loaded sb s' ip' ∧ SameElsewhere (sb.image s.disk) ip.inum (sb.image s'.disk))
      fun _ => False :=
  (itrunc_released consistent loaded).mono fun _ _ done => ⟨done.1, done.2.1, done.2.2.1, done.2.2.2.toSameElsewhere⟩

theorem free_released :
    Ensures (free sb ip) s (fun _ s' => Consistent sb (sb.image s'.disk) ∧
      (sb.image s'.disk).inode ip.inum = { ip.toDinode with type := 0, size := 0, addrs := Vector.replicate _ 0 } ∧
      Released (sb.image s.disk) ip.inum (sb.image s'.disk)) fun _ => False := by
  refine (itrunc_released consistent loaded).bind ?_
  rintro ip₁ s₁ ⟨emptied, consistent, loaded₁, released⟩
  have inum : ip₁.inum = ip.inum := by rw [emptied]
  have blank (k : ℕ) : ip₁.addr k = 0 := by rw [emptied]; exact Dinode.addr_zero k
  refine (iupdate_spec { ip₁ with type := 0 } loaded₁.known).mono fun _ s' saved => ?_
  have image : sb.image s'.disk = (sb.image s₁.disk).put ip.inum { ip₁.toDinode with type := 0 } := by
    rw [saved, view, inum]
  refine ⟨?_, ?_, released.put image⟩
  · rw [image, ← inum]
    refine consistent_put_blank consistent (slot_of_blank ?_) blank (by rw [emptied])
    rw [loaded₁.current]
    exact blank
  · rw [image, put_inode_self, emptied]

theorem free_spec :
    Ensures (free sb ip) s (fun _ s' => Consistent sb (sb.image s'.disk) ∧ ((sb.image s'.disk).inode ip.inum).type = 0 ∧
      SameElsewhere (sb.image s.disk) ip.inum (sb.image s'.disk)) fun _ => False :=
  (free_released consistent loaded).mono fun _ _ done => ⟨done.1, by rw [done.2.1], done.2.2.toSameElsewhere⟩

end

theorem ialloc_spec {type : Int16} (consistent : Consistent sb (sb.image s.disk)) :
    Ensures (ialloc sb type) s (fun r s' => Consistent sb (sb.image s'.disk) ∧
      (r = none → s' = s ∧ ∀ i, 1 ≤ i → i < sb.ninodes → ((sb.image s.disk).inode i).type ≠ 0) ∧
      ∀ i, r = some i → 1 ≤ i ∧ i < sb.ninodes ∧ ((sb.image s.disk).inode i).type = 0 ∧
        sb.image s'.disk = (sb.image s.disk).put i { Dinode.zero with type }) fun _ => False := by
  refine .get_bind ?_
  dsimp only
  cases found : (List.range' 1 (sb.ninodes - 1)).find? _ with
  | none =>
    refine .pure ⟨consistent, fun _ => ⟨rfl, fun i low high => ?_⟩, fun i absent => by cases absent⟩
    have := List.find?_eq_none.mp found i (by rw [List.mem_range'_1]; omega)
    simpa [Superblock.image, high] using this
  | some i =>
    have member := List.mem_of_find?_eq_some found
    rw [List.mem_range'_1] at member
    have high : i < sb.ninodes := by omega
    have free : ((sb.image s.disk).inode i).type = 0 := by
      simpa [Superblock.image, high] using List.find?_some found
    refine bread_bind (logWrite_bind (.pure ?_))
    rw [sb.image_inode _ high]
    refine ⟨consistent_put_blank consistent (slot_of_free free) (fun k => Dinode.addr_zero k) rfl,
      fun absent => (Option.some_ne_none _ absent).elim, ?_⟩
    rintro _ ⟨⟩
    exact ⟨member.1, high, free, rfl⟩

section Smallest

/-- One block of inodes, one of the bitmap and one of data. -/
def tiny : Superblock := ⟨3, 1, 2, 0, 1, by decide, by decide, by decide⟩

/-- The blocks before the data area are in use, and there is no file. -/
def blank : Store :=
  ⟨fun b => if b = 1 then (Vector.replicate _ 0).set 0 3 (by decide) else Vector.replicate _ 0, []⟩

theorem free_blank (i : ℕ) : ((tiny.image blank.disk).inode i).type = 0 := by
  by_cases known : i < tiny.ninodes
  · have first : tiny.iblock i = 0 := Nat.div_eq_of_lt (Nat.lt_trans known (by decide))
    simp only [Superblock.image, known, first, ↓reduceIte]
    change Dinode.low ((Vector.replicate bsize 0).word _) = 0
    rw [word_zeros]
    rfl
  · simp [Superblock.image, known, Dinode.zero]

theorem consistent_blank : Consistent tiny (tiny.image blank.disk) := by
  have empty (x : ℕ × ℕ) : (tiny.image blank.disk).held x = none := held_eq_none.mpr (slot_of_free (free_blank _) _)
  refine ⟨⟨⟨fun b => ?_, fun x _ b held => ?_⟩, fun b low => ?_⟩, fun i _ live => (live (free_blank i)).elim⟩
  · simp only [empty, reduceCtorEq, exists_false, iff_false]
    rintro ⟨low, high, used⟩
    obtain rfl : b = 2 := Nat.le_antisymm (Nat.le_of_lt_succ high) low
    revert used
    decide +kernel
  · rw [empty] at held
    cases held
  · have : b = 0 ∨ b = 1 := by
      have : b < 2 := low
      omega
    rcases this with rfl | rfl <;> decide +kernel

end Smallest

end Op

end Xv6.Fs
