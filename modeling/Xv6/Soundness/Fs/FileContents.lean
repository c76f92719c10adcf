import Xv6.Proofs.Fs.Contents
import Xv6.Proofs.Fs.Truncate

/-! # Files are byte arrays

On a consistent image `readi` and `writei` do to a file what they would do to an array of bytes, for
every range that a `uint` offset and length can name.
-/

namespace Xv6.Fs

open Machine Image

namespace Op

variable {sb : Superblock} {s s' : Store} {ip ip' : Inode}

theorem file_length (im : Image) (i : ℕ) : (im.file i).length = (im.inode i).size.toNat := by simp [file]

variable {im im' : Image} {i off tot n : ℕ} {src : ℕ → Option UInt8}

theorem file_elsewhere (same : SameElsewhere im i im') {j : ℕ} (other : j ≠ i) :
    im'.file j = im.file j := by
  rw [file, file, same.inode j other, funext (same.byte j other)]

/-- The overwriting of a range as an operation on the array. -/
theorem file_of_bytes {source : ℕ → UInt8} (low : off ≤ (im.inode i).size.toNat)
    (size : (im'.inode i).size.toNat = max (im.inode i).size.toNat (off + tot))
    (bytes : ∀ o < (im'.inode i).size.toNat,
      im'.byte i o = if off ≤ o ∧ o < off + tot then source (o - off) else im.byte i o) :
    im'.file i = (im.file i).take off ++ ((List.range tot).map source ++ (im.file i).drop (off + tot)) := by
  have taken : ((im.file i).take off).length = off := by
    rw [List.length_take, file_length]
    omega
  have middle : ((List.range tot).map source).length = tot := by simp
  apply List.ext_getElem
  · simp only [List.length_append, taken, middle, List.length_drop, file_length, size]
    omega
  · intro k left right
    have whole : (im'.file i)[k] = im'.byte i k := by simp [file]
    rw [whole, bytes k (by rwa [file_length] at left)]
    by_cases first : k < off
    · rw [if_neg (by omega), List.getElem_append_left (by rwa [taken]), List.getElem_take]
      simp [file]
    · rw [List.getElem_append_right (by rw [taken]; omega)]
      by_cases second : k < off + tot
      · rw [if_pos ⟨by omega, second⟩, List.getElem_append_left (by rw [taken, middle]; omega)]
        simp [taken]
      · rw [if_neg (by omega), List.getElem_append_right (by rw [taken, middle]; omega)]
        simp only [file, List.getElem_drop, List.getElem_map, List.getElem_range, List.length_map, List.length_range]
        congr 1
        rw [← file, taken]
        omega

theorem Written.size_after (written : Written sb src n off s ip s' ip' tot)
    (loaded : Loaded sb s ip) : ((sb.image s'.disk).inode ip.inum).size.toNat =
      max ((sb.image s.disk).inode ip.inum).size.toNat (off + tot) := by
  rw [loaded.current, ← written.inum, written.loaded.current, written.size]

theorem file_of_written (written : Written sb src n off s ip s' ip' tot)
    (loaded : Loaded sb s ip) (low : off ≤ ip.size.toNat) (all : ∀ i < n, (src i).isSome) :
    (sb.image s'.disk).file ip.inum = ((sb.image s.disk).file ip.inum).take off ++
      ((List.range tot).map (fun i => (src i).getD 0) ++ ((sb.image s.disk).file ip.inum).drop (off + tot)) := by
  refine file_of_bytes ?_ (written.size_after loaded) fun o _ => (written.exact all).2 o
  rwa [loaded.current]

/-- With the memory at the other end accessible, `readi` returns the bytes of the file that are in the range, and
`writei` puts the bytes that it returns the count of into the file, all of them unless no block is free. -/
theorem files_refine_byte_arrays (sb : Superblock) (s : Store) (ip : Inode)
    (consistent : Consistent sb (sb.image s.disk))
    (loaded : Loaded sb s ip) (off n : UInt32) (dst : ℕ → Bool) (writable : ∀ i < n.toNat, dst i = true)
    (src : ℕ → Option UInt8) (readable : ∀ i < n.toNat, (src i).isSome) :
    (∃ bytes : List UInt8, (readi sb ip dst off n).run s = .ok ((ip, bytes, (bytes.length : ℤ)), s) ∧
      bytes = if off > ip.size ∨ off + n < off then
      [] else (((sb.image s.disk).file ip.inum).drop off.toNat).take n.toNat) ∧
    ∃ ip' r s', (writei sb ip src off n).run s = .ok ((ip', r), s') ∧
      (Refused ip off n → r = -1 ∧ ip' = ip ∧ s' = s) ∧
      (¬ Refused ip off n → ∃ tot : ℕ, r = tot ∧ tot ≤ n.toNat ∧
        (tot = n.toNat ∨ ∀ b < sb.size, (sb.image s'.disk).bit b = true) ∧
        (sb.image s'.disk).file ip.inum = ((sb.image s.disk).file ip.inum).take off.toNat ++
          ((List.range tot).map (fun i => (src i).getD 0) ++ ((sb.image s.disk).file ip.inum).drop (off.toNat + tot)) ∧
        ((sb.image s'.disk).inode ip.inum).size.toNat = max ip.size.toNat (off.toNat + tot) ∧
        Consistent sb (sb.image s'.disk) ∧
        ∀ j ≠ ip.inum, (sb.image s'.disk).file j = (sb.image s.disk).file j ∧
          (sb.image s'.disk).inode j = (sb.image s.disk).inode j) := by
  constructor
  · obtain ⟨⟨ip', bytes, got⟩, s', ran, same, kept, exact⟩ := (readi_spec consistent loaded).exists_run
    obtain ⟨count, contents⟩ := exact writable
    simp only at kept count contents
    subst same kept count
    exact ⟨bytes, ran, contents⟩
  · obtain ⟨⟨ip', r⟩, s', ran, refused, accepted⟩ := (writei_spec consistent loaded).exists_run
    refine ⟨ip', r, s', ran, fun outside => ?_, fun inside => ?_⟩
    · obtain ⟨same, result⟩ := refused outside
      obtain ⟨rfl, rfl⟩ := Prod.mk.inj result
      exact ⟨rfl, rfl, same⟩
    · obtain ⟨tot, count, written⟩ := accepted inside
      have inum : ip'.inum = ip.inum := written.inum
      have low : off.toNat ≤ ip.size.toNat :=
        UInt32.le_iff_toNat_le.mp (UInt32.not_lt.mp fun high => inside (.inl high))
      refine ⟨tot, count, written.count, (written.exact readable).1, file_of_written written loaded low readable, ?_,
        written.consistent, fun j other => ⟨file_elsewhere written.elsewhere other, written.elsewhere.inode j other⟩⟩
      rw [← inum, written.loaded.current, written.size]

/-- One empty file, with number 1. -/
def emptyFile : Inode := { Dinode.zero with type := 2, inum := 1 }

def oneFile : Store :=
  ⟨Function.update blank.disk (tiny.iblock 1) (emptyFile.encode (blank.disk (tiny.iblock 1)) (1 % ipb)), []⟩

theorem image_oneFile : tiny.image oneFile.disk = (tiny.image blank.disk).put 1 emptyFile.toDinode :=
  tiny.image_inode blank.disk (by decide) emptyFile.toDinode

theorem consistent_oneFile : Consistent tiny (tiny.image oneFile.disk) := by
  rw [image_oneFile]
  exact consistent_put_blank consistent_blank (slot_of_free (free_blank 1)) Dinode.addr_zero rfl

theorem loaded_oneFile : Loaded tiny oneFile emptyFile :=
  ⟨by decide, by rw [image_oneFile]; exact put_inode_self, by decide⟩

/-- Five bytes are written to the empty file, and the rest of the image keeps its contents. -/
theorem files_refine_byte_arrays_oneFile :
    ∃ ip' r s', (writei tiny emptyFile (fun _ => some 7) 0 5).run oneFile = .ok ((ip', r), s') ∧
      Consistent tiny (tiny.image s'.disk) := by
  obtain ⟨-, ip', r, s', ran, -, accepted⟩ :=
    files_refine_byte_arrays tiny oneFile emptyFile consistent_oneFile loaded_oneFile
    0 5 (fun _ => true) (fun _ _ => rfl) (fun _ => some 7) fun _ _ => rfl
  have inside : ¬ Refused emptyFile 0 5 := by unfold Refused; decide
  obtain ⟨tot, -, -, -, -, -, consistent, -⟩ := accepted inside
  exact ⟨ip', r, s', ran, consistent⟩

end Op

end Xv6.Fs
