import Xv6.Model.Fs.Image

/-! # The regions of a disk do not overlap

A write to a block of one region changes that part of the image and nothing else. All later proofs about
the file system speak of images; this is the only place where the bytes of the bitmap and of the inodes
matter.
-/

namespace Xv6.Fs

open Function

variable {position b i : ℕ}

namespace Dinode

theorem low_pack (l h : Int16) : low (pack l h) = l := by
  have small := l.toUInt16.toNat_lt
  have large := h.toUInt16.toNat_lt
  have value : (pack l h).toNat % 65536 = l.toUInt16.toNat := by
    rw [pack, UInt32.toNat_ofNat_of_lt' (by simp only [UInt32.size]; omega)]
    omega
  have same : UInt16.ofNat (pack l h).toNat = l.toUInt16 := by
    apply UInt16.toNat_inj.mp
    rw [UInt16.toNat_ofNat', ← value]
  rw [low, same, Int16.toInt16_toUInt16]

theorem high_pack (l h : Int16) : high (pack l h) = h := by
  have small := l.toUInt16.toNat_lt
  have large := h.toUInt16.toNat_lt
  have value : (pack l h).toNat / 65536 = h.toUInt16.toNat := by
    rw [pack, UInt32.toNat_ofNat_of_lt' (by simp only [UInt32.size]; omega)]
    omega
  rw [high, value, UInt16.ofNat_toNat, Int16.toInt16_toUInt16]

theorem length_words (din : Dinode) : din.words.length = 16 := by
  simp only [words, List.length_cons, Vector.length_toList]
  rfl

theorem word_encode (bytes : Block) (inside : position < ipb) (din : Dinode) (i : ℕ) :
    (din.encode bytes position).word i =
      if 16 * position ≤ i ∧ i < 16 * position + 16 then din.words[i - 16 * position]?.getD 0 else bytes.word i := by
  have size : position < 16 := inside
  rw [encode, Vector.word_setWords _ _ _ _ (by rw [length_words, bsize]; omega), length_words]

theorem decode_encode_self (bytes : Block) (inside : position < ipb) (din : Dinode) :
    decode (din.encode bytes position) position = din := by
  have word (k : ℕ) (small : k < 16) :
      (din.encode bytes position).word (16 * position + k) = din.words[k]?.getD 0 := by
    rw [word_encode _ inside, if_pos (by omega), Nat.add_sub_cancel_left]
  have first := word 0 (by decide)
  rw [Nat.add_zero] at first
  have addrs : (Vector.ofFn fun k : Fin (ndirect + 1) => (din.encode bytes position).word (16 * position + 3 + k)) =
      din.addrs := by
    apply Vector.ext
    intro k small
    have fits : k < 13 := small
    rw [Vector.getElem_ofFn, Nat.add_assoc, Nat.add_comm 3, word _ (by simp only; omega)]
    simp [words, small]
  simp only [decode, first, word 1 (by decide), word 2 (by decide), addrs]
  simp [words, low_pack, high_pack]

theorem decode_encode_of_ne (bytes : Block) {other : ℕ} (inside : position < ipb) (distinct : other ≠ position)
    (din : Dinode) : decode (din.encode bytes position) other = decode bytes other := by
  have word (k : ℕ) (small : k < 16) :
      (din.encode bytes position).word (16 * other + k) = bytes.word (16 * other + k) := by
    rw [word_encode _ inside, if_neg (by omega)]
  have first := word 0 (by decide)
  rw [Nat.add_zero] at first
  have addrs : (Vector.ofFn fun k : Fin (ndirect + 1) => (din.encode bytes position).word (16 * other + 3 + k)) =
      Vector.ofFn fun k : Fin (ndirect + 1) => bytes.word (16 * other + 3 + k) := by
    apply Vector.ext
    intro k small
    have fits : k < 13 := small
    simp only [Vector.getElem_ofFn, Nat.add_assoc]
    exact word _ (by omega)
  simp only [decode, first, word 1 (by decide), word 2 (by decide), addrs]

@[simp] theorem addr_zero (k : ℕ) : zero.addr k = 0 := by
  simp only [addr, zero, Vector.getElem?_replicate]
  split <;> rfl

theorem addr_setAddr (din : Dinode) {k j : ℕ} (inside : k ≤ ndirect) (a : UInt32) :
    (din.setAddr k a).addr j = if k = j then a else din.addr j := by
  have bound : k < ndirect + 1 := Nat.lt_succ_of_le inside
  simp only [addr, setAddr, Vector.getElem?_setIfInBounds]
  split_ifs <;> simp

theorem setAddr_addr (din : Dinode) (k : ℕ) : din.setAddr k (din.addr k) = din := by
  have same : din.addrs.setIfInBounds k (din.addr k) = din.addrs := by
    apply Vector.ext
    intro j small
    rw [Vector.getElem_setIfInBounds]
    split
    · next here =>
      subst here
      simp [addr, small]
    · rfl
  rw [setAddr, same]

end Dinode

namespace Superblock

variable (sb : Superblock) (disk : ℕ → Block)

theorem bmapstart_lt_datastart : sb.bmapstart < sb.datastart :=
  Nat.lt_of_le_of_lt (Nat.le_add_right _ (sb.size / bpb)) sb.bitmap_end

theorem datastart_le_size : sb.datastart ≤ sb.size := Nat.sub_le ..

theorem bblock_lt (inside : b < sb.size) : sb.bblock b < sb.datastart := by
  have := sb.bitmap_end
  have := Nat.div_le_div_right (c := bpb) (Nat.le_of_lt inside)
  unfold bblock datastart
  omega

theorem iblock_lt (inside : i < sb.ninodes) : sb.iblock i < sb.bmapstart := by
  have := sb.inodes_end
  have := Nat.div_le_div_right (c := ipb) (Nat.le_of_lt inside)
  unfold iblock
  omega

theorem le_bblock (b : ℕ) : sb.bmapstart ≤ sb.bblock b := Nat.le_add_left ..

theorem image_bitmap (inside : b < sb.size) (data : Block) (value : Bool)
    (changed : ∀ j < bpb, data.bit j = if b % bpb = j then value else (disk (sb.bblock b)).bit j) :
    sb.image (update disk (sb.bblock b) data) =
      { sb.image disk with bit := update (sb.image disk).bit b value } := by
  have low := sb.bblock_lt inside
  ext1
  · funext c
    simp only [image, update_apply]
    by_cases bound : c < sb.size
    · by_cases same : sb.bblock c = sb.bblock b
      · rw [if_pos same, changed _ (Nat.mod_lt _ (by decide))]
        have quotient : c / bpb = b / bpb := Nat.add_right_cancel same
        have iff : b % bpb = c % bpb ↔ c = b := by
          refine ⟨fun h => ?_, fun h => by rw [h]⟩
          rw [← Nat.div_add_mod c bpb, quotient, ← h, Nat.div_add_mod]
        simp only [iff, bound, decide_true, Bool.true_and, same]
      · have other : c ≠ b := fun h => same (h ▸ rfl)
        simp only [if_neg same, if_neg other]
    · have other : c ≠ b := fun h => bound (h ▸ inside)
      simp only [bound, decide_false, Bool.false_and, if_neg other]
  · funext i
    simp only [image, update_apply]
    by_cases bound : i < sb.ninodes
    · have apart : sb.iblock i ≠ sb.bblock b := Nat.ne_of_lt (Nat.lt_of_lt_of_le (sb.iblock_lt bound) (sb.le_bblock b))
      rw [if_pos bound, if_pos bound, if_neg apart]
    · rw [if_neg bound, if_neg bound]
  · funext c
    simp only [image, update_apply]
    by_cases bound : sb.datastart ≤ c
    · rw [if_pos bound, if_pos bound, if_neg (by omega)]
    · rw [if_neg bound, if_neg bound]

theorem image_inode (inside : i < sb.ninodes) (din : Dinode) :
    sb.image (update disk (sb.iblock i) (din.encode (disk (sb.iblock i)) (i % ipb))) =
      { sb.image disk with inode := update (sb.image disk).inode i din } := by
  have low := sb.iblock_lt inside
  have mid := sb.bmapstart_lt_datastart
  have small : i % ipb < ipb := Nat.mod_lt _ (by decide)
  ext1
  · funext b
    have apart : sb.bblock b ≠ sb.iblock i := Nat.ne_of_gt (Nat.lt_of_lt_of_le low (sb.le_bblock b))
    simp only [image, update_of_ne apart]
  · funext j
    simp only [image, update_apply]
    by_cases bound : j < sb.ninodes
    · rw [if_pos bound, if_pos bound]
      by_cases same : sb.iblock j = sb.iblock i
      · have quotient : j / ipb = i / ipb := Nat.add_right_cancel same
        rw [if_pos same]
        by_cases here : j = i
        · rw [if_pos here, here, Dinode.decode_encode_self _ small]
        · have other : j % ipb ≠ i % ipb := fun h => here (by
            rw [← Nat.div_add_mod j ipb, quotient, h, Nat.div_add_mod])
          rw [if_neg here, Dinode.decode_encode_of_ne _ small other, same]
      · rw [if_neg same, if_neg (by rintro rfl; exact same rfl)]
    · rw [if_neg bound, if_neg bound, if_neg (by rintro rfl; exact bound inside)]
  · funext c
    simp only [image, update_apply]
    by_cases bound : sb.datastart ≤ c
    · rw [if_pos bound, if_pos bound, if_neg (by omega)]
    · rw [if_neg bound, if_neg bound]

theorem image_data (inside : sb.datastart ≤ b) (data : Block) :
    sb.image (update disk b data) =
      { sb.image disk with block := update (sb.image disk).block b data } := by
  have mid := sb.bmapstart_lt_datastart
  ext1
  · funext c
    simp only [image, update_apply]
    by_cases bound : c < sb.size
    · have := sb.bblock_lt bound
      rw [if_neg (by omega)]
    · simp [bound]
  · funext i
    simp only [image, update_apply]
    by_cases bound : i < sb.ninodes
    · have := sb.iblock_lt bound
      rw [if_pos bound, if_pos bound, if_neg (by omega)]
    · rw [if_neg bound, if_neg bound]
  · funext c
    simp only [image, update_apply]
    by_cases here : c = b
    · rw [if_pos here, if_pos (by omega), if_pos here]
    · rw [if_neg here, if_neg here]

end Superblock

end Xv6.Fs
