import Xv6.Proofs.Fs.Layout

/-! # What keeps an image sound

Each change that the file system makes to an image, with what it does to the slots and to the bytes of
the files: a free block goes into an empty slot, a mapped block is overwritten, the slots of an inode are
emptied, an inode is allocated, freed or changed in a field that no slot depends on.
-/

namespace Xv6.Fs

open Machine Function

theorem byteAt_zeros (offset : ℕ) : (Vector.replicate bsize (0 : UInt8)).byteAt offset = 0 := by
  simp only [Vector.byteAt, Vector.getElem?_replicate]
  split <;> rfl

@[simp] theorem word_zeros (i : ℕ) : (Vector.replicate bsize (0 : UInt8)).word i = 0 := by
  simp only [Vector.word, byteAt_zeros]
  rfl

variable {j a : ℕ}

namespace Image

variable {sb : Superblock} {im im' : Image} {i k b : ℕ}

theorem slot_of_free (free : (im.inode i).type = 0) (k : ℕ) : im.slot i k = 0 := if_pos free

theorem slot_direct (live : (im.inode i).type ≠ 0) (direct : k ≤ ndirect) : im.slot i k = (im.inode i).addr k := by
  rw [slot, if_neg live, if_pos direct]

theorem slot_entry (high : ndirect < k) : im.slot i k =
    if k ≤ maxfile ∧ im.slot i ndirect ≠ 0 then
    (im.block (im.slot i ndirect).toNat).word (k - (ndirect + 1)) else 0 := by
  by_cases live : (im.inode i).type = 0
  · rw [slot_of_free live, slot_of_free live, if_neg (by simp)]
  · rw [slot_direct live le_rfl, slot, if_neg live, if_neg (by omega)]

theorem slot_of_maxfile_lt (beyond : maxfile < k) : im.slot i k = 0 := by
  have : ndirect ≤ maxfile := Nat.le_add_right ..
  rw [slot_entry (by omega), if_neg (by omega)]

variable {x : ℕ × ℕ} {o m : ℕ} {din : Dinode}

theorem held_eq_none : im.held x = none ↔ im.slot x.1 x.2 = 0 := by
  unfold held
  split <;> simp_all

theorem held_eq_some : im.held x = some b ↔ im.slot x.1 x.2 ≠ 0 ∧ (im.slot x.1 x.2).toNat = b := by
  unfold held
  split <;> simp_all

theorem held_of_slot_ne (present : im.slot i k ≠ 0) : im.held (i, k) = some (im.slot i k).toNat :=
  held_eq_some.mpr ⟨present, rfl⟩

theorem slot_entry_of_held (present : im.held (i, ndirect) = some b) (small : j < nindirect) :
    im.slot i (ndirect + 1 + j) = (im.block b).word j := by
  obtain ⟨nonzero, rfl⟩ := held_eq_some.mp present
  rw [slot_entry (by omega), if_pos ⟨by unfold maxfile; omega, nonzero⟩, Nat.add_sub_cancel_left]

theorem held_congr (same : im'.slot x.1 x.2 = im.slot x.1 x.2) : im'.held x = im.held x := by
  rw [held, held, same]

theorem slot_ne_zero_of_held (present : im.held x = some b) : im.slot x.1 x.2 ≠ 0 :=
  (held_eq_some.mp present).1

/-- The slots of an inode depend on the inode and on its indirect block. -/
theorem slot_congr (inode : im'.inode i = im.inode i)
    (block : ∀ a, im.held (i, ndirect) = some a → im'.block a = im.block a) (k : ℕ) : im'.slot i k = im.slot i k := by
  have low (j : ℕ) (direct : j ≤ ndirect) : im'.slot i j = im.slot i j := by
    rw [slot, slot, inode, if_pos direct, if_pos direct]
  by_cases direct : k ≤ ndirect
  · exact low k direct
  · simp only [slot_entry (Nat.lt_of_not_le direct), low _ le_rfl]
    by_cases present : im.slot i ndirect = 0
    · simp [present]
    · rw [block _ (held_of_slot_ne present)]

theorem byte_of_held (present : im.held (i, dataSlot (o / bsize)) = some b) :
    im.byte i o = (im.block b).get ⟨o % bsize, Nat.mod_lt _ (by decide)⟩ := by
  rw [byte, present]

theorem byte_of_none (absent : im.held (i, dataSlot (o / bsize)) = none) : im.byte i o = 0 := by
  rw [byte, absent]

/-- The bytes of an inode depend on its slots and on the blocks in them. -/
theorem byte_congr (held : ∀ bn, im'.held (i, dataSlot bn) = im.held (i, dataSlot bn))
    (block : ∀ bn b, im.held (i, dataSlot bn) = some b → im'.block b = im.block b) (o : ℕ) :
    im'.byte i o = im.byte i o := by
  cases found : im.held (i, dataSlot (o / bsize)) with
  | none => rw [byte_of_none found, byte_of_none ((held _).trans found)]
  | some b => rw [byte_of_held found, byte_of_held ((held _).trans found), block _ b found]

theorem dataSlot_ne_ndirect (bn : ℕ) : dataSlot bn ≠ ndirect := by
  unfold dataSlot
  split <;> omega

theorem dataSlot_inj {n : ℕ} (same : dataSlot m = dataSlot n) : m = n := by
  unfold dataSlot at same
  split at same <;> split at same <;> omega

theorem Sound.in_data (sound : Sound sb im) (present : im.held x = some b) :
    sb.datastart ≤ b ∧ b < sb.size :=
  have used := sound.owned.used_of_held present
  ⟨used.1, used.2.1⟩

theorem Sound.bit_of_held (sound : Sound sb im) (present : im.held x = some b) : im.bit b = true :=
  (sound.owned.used_of_held present).2.2

theorem Sound.datastart_le_of_free (sound : Sound sb im) (free : im.bit b = false) : sb.datastart ≤ b := by
  by_contra low
  rw [sound.reserved b (by omega)] at free
  cases free

theorem Sound.held_ne_free (sound : Sound sb im) (free : im.bit b = false)
    (present : im.held x = some a) : a ≠ b := by
  rintro rfl
  rw [sound.bit_of_held present] at free
  cases free

theorem ofNat_block (low : sb.datastart ≤ b) (high : b < sb.size) :
    UInt32.ofNat b ≠ 0 ∧ (UInt32.ofNat b).toNat = b := by
  have positive := sb.bmapstart_lt_datastart
  have value : (UInt32.ofNat b).toNat = b := UInt32.toNat_ofNat_of_lt' (Nat.lt_trans high sb.size_lt)
  refine ⟨fun zero => ?_, value⟩
  rw [zero] at value
  simp only [UInt32.toNat_zero] at value
  omega

section Assign

/-- A block taken from the bitmap and put, filled with zeros, into an empty slot. -/
structure Assigned (sb : Superblock) (im im' : Image) (x : ℕ × ℕ) (b : ℕ) : Prop where
  empty : im.held x = none
  free : im.bit b = false
  inside : b < sb.size
  held : im'.held = Function.update im.held x (some b)
  bit : im'.bit = Function.update im.bit b true
  zeros : im'.block b = Vector.replicate _ 0
  others : ∀ y a, y.2 ≠ ndirect → im.held y = some a → im'.block a = im.block a

theorem Assigned.sound {x : ℕ × ℕ} (assigned : Assigned sb im im' x b) (sound : Sound sb im) : Sound sb im' where
  owned := by
    have unused : ¬ (sb.datastart ≤ b ∧ b < sb.size ∧ im.bit b = true) := by simp [assigned.free]
    rw [assigned.held]
    refine (sound.owned.assign assigned.empty unused).congr (fun _ => rfl) fun a => ?_
    rw [assigned.bit, update_apply]
    by_cases here : a = b
    · simp [here, sound.datastart_le_of_free assigned.free, assigned.inside]
    · simp [here]
  reserved a low := by
    rw [assigned.bit, update_apply]
    split
    · rfl
    · exact sound.reserved a low

theorem Assigned.held_of_some {x y : ℕ × ℕ} (assigned : Assigned sb im im' x b) (present : im.held y = some a) :
    im'.held y = some a := by
  rw [assigned.held, update_of_ne, present]
  rintro rfl
  rw [assigned.empty] at present
  cases present

/-- The new block reads as the zeros that were read where no block was. -/
theorem Assigned.byte {x : ℕ × ℕ} (assigned : Assigned sb im im' x b) (i o : ℕ) : im'.byte i o = im.byte i o := by
  cases found : im.held (i, dataSlot (o / bsize)) with
  | some a =>
    rw [byte_of_held found, byte_of_held (assigned.held_of_some found),
      assigned.others _ a (dataSlot_ne_ndirect _) found]
  | none =>
    rw [byte_of_none found]
    by_cases here : (i, dataSlot (o / bsize)) = x
    · rw [byte_of_held (b := b) (by rw [assigned.held, here, update_self]), assigned.zeros]
      exact Vector.getElem_replicate ..
    · exact byte_of_none (by rw [assigned.held, update_of_ne here, found])

theorem Sound.assign_addr (sound : Sound sb im) (live : (im.inode i).type ≠ 0) (direct : k ≤ ndirect)
    (empty : (im.inode i).addr k = 0) (free : im.bit b = false) (inside : b < sb.size) :
    Assigned sb im ⟨update im.bit b true,
      update im.inode i ((im.inode i).setAddr k (UInt32.ofNat b)),
      update im.block b (Vector.replicate _ 0)⟩ (i, k) b := by
  obtain ⟨nonzero, value⟩ := ofNat_block (sound.datastart_le_of_free free) inside
  have absent : im.slot i k = 0 := by rw [slot_direct live direct, empty]
  have apart {x : ℕ × ℕ} {a : ℕ} (present : im.held x = some a) : a ≠ b := sound.held_ne_free free present
  refine ⟨held_eq_none.mpr absent, free, inside, ?_, rfl, update_self .., fun y a _ present =>
    update_of_ne (apart present) ..⟩
  set im' : Image := ⟨_, update im.inode i _, update im.block b _⟩
  have inode : im'.inode i = (im.inode i).setAddr k (UInt32.ofNat b) := update_self ..
  have low (j : ℕ) (small : j ≤ ndirect) : im'.slot i j = if k = j then UInt32.ofNat b else im.slot i j := by
    rw [slot_direct (by rwa [inode]) small, inode, Dinode.addr_setAddr _ direct, slot_direct live small]
  funext ⟨i', k'⟩
  rw [update_apply]
  by_cases other : i' = i
  · subst other
    by_cases here : k' = k
    · subst here
      rw [if_pos rfl, held_eq_some, low _ direct, if_pos rfl]
      exact ⟨nonzero, value⟩
    · rw [if_neg (by simpa using here)]
      apply held_congr
      by_cases small : k' ≤ ndirect
      · rw [low _ small, if_neg (Ne.symm here)]
      · simp only [slot_entry (Nat.lt_of_not_le small), low _ le_rfl]
        by_cases first : k = ndirect
        · -- the new indirect block has no entries, and before there was none
          subst first
          simp [absent, value, im']
        · rw [if_neg first]
          by_cases present : im.slot i' ndirect = 0
          · simp [present]
          · rw [show im'.block _ = im.block _ from update_of_ne (apart (held_of_slot_ne present)) ..]
  · rw [if_neg (by simp [other])]
    apply held_congr
    refine slot_congr (update_of_ne other ..) (fun a present => ?_) k'
    exact update_of_ne (apart present) ..

theorem Sound.assign_entry (sound : Sound sb im) (present : im.held (i, ndirect) = some a)
    (small : j < nindirect)
    (empty : (im.block a).word j = 0) (free : im.bit b = false) (inside : b < sb.size) :
    Assigned sb im ⟨update im.bit b true, im.inode,
      update (update im.block b (Vector.replicate _ 0)) a ((im.block a).setWord j (UInt32.ofNat b))⟩
      (i, ndirect + 1 + j) b := by
  obtain ⟨nonzero, value⟩ := ofNat_block (sound.datastart_le_of_free free) inside
  obtain ⟨indirect, rfl⟩ := held_eq_some.mp present
  simp only at indirect present empty ⊢
  have apart {x : ℕ × ℕ} {c : ℕ} (present : im.held x = some c) : c ≠ b := sound.held_ne_free free present
  have entry := slot_entry_of_held present small
  set a := (im.slot i ndirect).toNat
  set im' : Image := ⟨_, im.inode, update _ a _⟩
  have kept {x : ℕ × ℕ} {c : ℕ} (elsewhere : x ≠ (i, ndirect)) (holds : im.held x = some c) :
      im'.block c = im.block c := by
    have other : c ≠ a := fun same => elsewhere (sound.owned.unique _ _ c holds (same ▸ present))
    rw [show im'.block c = _ from update_of_ne other .., update_of_ne (apart holds)]
  refine ⟨held_eq_none.mpr (by rw [entry, empty]), free, inside, ?_, rfl, ?_, fun y c slot holds =>
    kept (fun same => slot (congrArg Prod.snd same)) holds⟩
  · funext ⟨i', k⟩
    rw [update_apply]
    by_cases other : i' = i
    · subst other
      have low (k : ℕ) (direct : k ≤ ndirect) : im'.slot i' k = im.slot i' k := by
        simp only [slot, direct, ↓reduceIte, im']
      by_cases direct : k ≤ ndirect
      · rw [if_neg (by simp only [Prod.mk.injEq, true_and]; omega)]
        exact held_congr (low k direct)
      · have word : (im'.block a).word (k - (ndirect + 1)) =
            if k = ndirect + 1 + j then UInt32.ofNat b else (im.block a).word (k - (ndirect + 1)) := by
          rw [show im'.block a = _ from update_self ..]
          by_cases here : k = ndirect + 1 + j
          · rw [if_pos here, here, Nat.add_sub_cancel_left, Vector.word_setWord_self]
            have : j < 256 := small
            simp only [bsize]
            omega
          · rw [if_neg here, Vector.word_setWord_of_ne _ _ (by omega)]
        have slot : im'.slot i' k = if k = ndirect + 1 + j then UInt32.ofNat b else im.slot i' k := by
          simp only [slot_entry (Nat.lt_of_not_le direct), low _ le_rfl]
          rw [word]
          by_cases fits : k ≤ maxfile
          · simp only [fits, indirect, ne_eq, not_false_eq_true, and_self, ↓reduceIte]
            rfl
          · have other : k ≠ ndirect + 1 + j := by
              unfold maxfile at fits
              omega
            rw [if_neg fun h => fits h.1, if_neg other, if_neg fun h => fits h.1]
        by_cases here : k = ndirect + 1 + j
        · rw [if_pos (by rw [here]), held_eq_some, slot, if_pos here]
          exact ⟨nonzero, value⟩
        · rw [if_neg (by simpa using here)]
          exact held_congr (by rw [slot, if_neg here])
    · rw [if_neg (by simp [other])]
      apply held_congr
      exact slot_congr (show im'.inode i' = im.inode i' from rfl) (fun c holds => kept (by simp [other]) holds) k
  · rw [show im'.block b = _ from update_of_ne (Ne.symm (apart present)) .., update_self]

end Assign

/-- Nothing but the slots and the bitmap matters. -/
theorem Sound.congr (sound : Sound sb im) (slot : ∀ i k, im'.slot i k = im.slot i k) (bit : im'.bit = im.bit) :
    Sound sb im' where
  owned := sound.owned.congr (fun _ => held_congr (slot _ _)) fun _ => by rw [bit]
  reserved := bit ▸ sound.reserved

section Overwrite

variable {bn : ℕ} (sound : Sound sb im) (present : im.held (i, dataSlot bn) = some b) (data : Block)
include sound present

theorem Sound.slot_overwrite (i' k : ℕ) :
    ({ im with block := update im.block b data } : Image).slot i' k = im.slot i' k := by
  set im' : Image := { im with block := update im.block b data }
  refine slot_congr (show im'.inode i' = im.inode i' from rfl) (fun a holds => update_of_ne ?_ ..) k
  rintro rfl
  have same := sound.owned.unique _ _ a holds present
  exact dataSlot_ne_ndirect bn (congrArg Prod.snd same).symm

theorem Sound.overwrite : Sound sb { im with block := update im.block b data } :=
  sound.congr (sound.slot_overwrite present data) rfl

theorem Sound.byte_overwrite (i' o : ℕ) :
    ({ im with block := update im.block b data } : Image).byte i' o =
      if i' = i ∧ o / bsize = bn then data.get ⟨o % bsize, Nat.mod_lt _ (by decide)⟩ else im.byte i' o := by
  have same (x : ℕ × ℕ) : ({ im with block := update im.block b data } : Image).held x = im.held x :=
    held_congr (sound.slot_overwrite present data ..)
  by_cases here : i' = i ∧ o / bsize = bn
  · obtain ⟨rfl, rfl⟩ := here
    rw [if_pos ⟨rfl, rfl⟩, byte_of_held ((same _).trans present)]
    simp only [update_self]
  · rw [if_neg here]
    cases found : im.held (i', dataSlot (o / bsize)) with
    | none => rw [byte_of_none found, byte_of_none ((same _).trans found)]
    | some a =>
      have other : a ≠ b := by
        rintro rfl
        have := sound.owned.unique _ _ a found present
        exact here ⟨congrArg Prod.fst this, dataSlot_inj (congrArg Prod.snd this)⟩
      rw [byte_of_held found, byte_of_held ((same _).trans found)]
      simp only [update_of_ne other]

end Overwrite

theorem Sound.byte_splice {off : ℕ} (sound : Sound sb im) (present : im.held (i, dataSlot (off / bsize)) = some b)
    (fits : m ≤ bsize - off % bsize) (source : ℕ → UInt8) (i' o : ℕ) :
    ({ im with block := update im.block b ((im.block b).splice (off % bsize) m source) } : Image).byte i' o =
      if i' = i ∧ off ≤ o ∧ o < off + m then source (o - off) else im.byte i' o := by
  rw [sound.byte_overwrite present]
  by_cases here : i' = i ∧ o / bsize = off / bsize
  · obtain ⟨rfl, block⟩ := here
    rw [if_pos ⟨rfl, block⟩, Vector.get_splice, byte_of_held (block ▸ present)]
    have range : (off % bsize ≤ o % bsize ∧ o % bsize < off % bsize + m) ↔ off ≤ o ∧ o < off + m := by
      simp only [bsize] at block fits ⊢
      omega
    by_cases inRange : off ≤ o ∧ o < off + m
    · rw [if_pos (range.mpr inRange), if_pos ⟨rfl, inRange⟩]
      congr 1
      simp only [bsize] at block fits ⊢
      omega
    · rw [if_neg (fun h => inRange (range.mp h)), if_neg fun h => inRange h.2]
  · rw [if_neg here, if_neg]
    rintro ⟨rfl, low, high⟩
    refine here ⟨rfl, ?_⟩
    simp only [bsize] at fits ⊢
    omega

section Put

variable {din : Dinode}

@[simp] theorem put_bit : (im.put i din).bit = im.bit := rfl
@[simp] theorem put_block : (im.put i din).block = im.block := rfl
@[simp] theorem put_inode_self : (im.put i din).inode i = din := update_self ..

theorem put_inode_of_ne (other : j ≠ i) : (im.put i din).inode j = im.inode j := update_of_ne other ..

@[simp] theorem put_put {din' : Dinode} : (im.put i din).put i din' = im.put i din' := by
  simp only [put, update_idem]

theorem put_self : im.put i (im.inode i) = im := by
  simp only [put, update_eq_self]

theorem slot_put_of_ne (other : j ≠ i) (k : ℕ) : (im.put i din).slot j k = im.slot j k :=
  slot_congr (put_inode_of_ne other) (fun _ _ => rfl) k

theorem slot_put_kept (type : din.type = (im.inode i).type) (addrs : din.addrs = (im.inode i).addrs) (j k : ℕ) :
    (im.put i din).slot j k = im.slot j k := by
  by_cases here : j = i
  · subst here
    simp only [slot, put_inode_self, put_block, Dinode.addr, type, addrs]
    rfl
  · exact slot_put_of_ne here k

theorem slot_of_blank (blank : ∀ k, (im.inode i).addr k = 0) (k : ℕ) : im.slot i k = 0 := by
  simp [slot, blank]

end Put

/-- The slots of one inode are emptied and the blocks in them are marked free. -/
theorem Sound.release (sound : Sound sb im) (gone : ∀ k, im'.slot i k = 0)
    (others : ∀ j, j ≠ i → ∀ k, im'.slot j k = im.slot j k)
    (bit : ∀ b, im'.bit b = true ↔ im.bit b = true ∧ ∀ k, im.held (i, k) ≠ some b) : Sound sb im' where
  owned := by
    refine sound.owned.release (fun x => x.1 = i) ?_ ?_ fun b => ?_
    · rintro ⟨_, k⟩ rfl
      exact held_eq_none.mpr (gone k)
    · rintro ⟨j, k⟩ other
      exact held_congr (others j other k)
    · rw [bit]
      constructor
      · rintro ⟨low, high, used, free⟩
        refine ⟨⟨low, high, used⟩, ?_⟩
        rintro ⟨_, k⟩ rfl
        exact free k
      · rintro ⟨⟨low, high, used⟩, free⟩
        exact ⟨low, high, used, fun k => free (i, k) rfl⟩
  reserved b low := (bit b).mpr ⟨sound.reserved b low, fun _ present => by
    have := (sound.in_data present).1
    omega⟩

theorem Consistent.put_kept (consistent : Consistent sb im) (type : din.type = (im.inode i).type)
    (addrs : din.addrs = (im.inode i).addrs) (size : din.size = (im.inode i).size) : Consistent sb (im.put i din) := by
  have slot := slot_put_kept type addrs
  refine ⟨consistent.toSound.congr slot rfl, fun j bn live below => ?_⟩
  rw [slot]
  by_cases here : j = i
  · subst here
    rw [put_inode_self] at live below
    exact consistent.mapped j bn (type ▸ live) (size ▸ below)
  · rw [put_inode_of_ne here] at live below
    exact consistent.mapped j bn live below

theorem SameElsewhere.trans {im'' : Image} (first : SameElsewhere im i im') (second : SameElsewhere im' i im'') :
    SameElsewhere im i im'' :=
  ⟨fun j other => (second.inode j other).trans (first.inode j other),
    fun j other o => (second.byte j other o).trans (first.byte j other o)⟩

theorem SameElsewhere.put : SameElsewhere im i (im.put i din) :=
  ⟨fun _ other => put_inode_of_ne other,
    fun _ other => byte_congr (fun _ => held_congr (slot_put_of_ne other _)) fun _ _ _ => rfl⟩

end Image

end Xv6.Fs
