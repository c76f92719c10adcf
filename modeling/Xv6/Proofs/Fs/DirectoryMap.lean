import Xv6.Proofs.Fs.Directory
import Xv6.Proofs.Fs.Names

/-! # What the directory functions do to the map

`dirlookup` reads the map of a directory; `dirlink` adds one binding to it or leaves it; the write of
`sys_unlink` takes one binding out. An entry lies in one block, so it is written whole or not at all.
-/

namespace Xv6.Fs

open Machine Image

namespace Image

variable {im im' : Image} {i j : ℕ} {de : Dirent}

theorem entry_eq (inside : j < im.entries i) :
    im.entry i j = .decode ((List.range' (direntSize * j) direntSize).map (im.byte i)) := by
  rw [entry, Op.take_drop_file]
  rw [entries, direntSize, dirsiz] at inside
  rw [direntSize, dirsiz]
  omega

theorem entry_congr (inside : j < im.entries i) (inside' : j < im'.entries i)
    (bytes : ∀ o, direntSize * j ≤ o → o < direntSize * j + direntSize → im'.byte i o = im.byte i o) :
    im'.entry i j = im.entry i j := by
  rw [entry_eq inside, entry_eq inside']
  congr 1
  refine List.map_congr_left fun o listed => ?_
  rw [List.mem_range'_1] at listed
  exact bytes o listed.1 listed.2

theorem entry_of_bytes (inside : j < im.entries i) (length : de.name.length = dirsiz)
    (bytes : ∀ o, direntSize * j ≤ o → o < direntSize * j + direntSize →
      im.byte i o = (de.encode[o - direntSize * j]?).getD 0) : im.entry i j = de := by
  have size := Dirent.length_encode length
  rw [entry_eq inside]
  refine (congrArg Dirent.decode (List.ext_getElem ?_ fun r left right => ?_)).trans (Dirent.decode_encode length)
  · rw [List.length_map, List.length_range', size]
  · rw [List.length_map, List.length_range'] at left
    rw [List.getElem_map, List.getElem_range', Nat.one_mul, bytes _ (by omega) (by omega), Nat.add_sub_cancel_left,
      List.getElem?_eq_getElem right, Option.getD_some]

end Image

namespace Op

variable {sb : Superblock} {s s' : Store} {dp dp' : Inode} {name : List UInt8}

theorem toNat_direntSize : (UInt32.ofNat direntSize).toNat = direntSize := rfl

section Lookup

variable {im : Image} {i stop : ℕ} {found : Option (ℕ × Dirent)}

theorem Scanned.lookup (scanned : Scanned im i (fun de => de.inum ≠ 0 ∧ namecmp name de.name = 0) 0 found stop) :
    found.map (fun entry => entry.2.inum) = (im.directory i).lookup (key name) ∧
      ∀ off de, found = some (off, de) → ∃ j < im.entries i, off = direntSize * j ∧ de = im.entry i j ∧
        (im.directory i).slot j = some (key name, de.inum) := by
  have binds (j : ℕ) (v : UInt16) : (im.directory i).slot j = some (key name, v) ↔
      ((im.entry i j).inum ≠ 0 ∧ namecmp name (im.entry i j).name = 0) ∧ (im.entry i j).inum = v := by
    rw [namecmp_eq_zero, and_assoc, eq_comm (a := key name)]
    exact Dirent.binding_eq_some
  have passed (j : ℕ) (early : j < stop) (v : UInt16) : (im.directory i).slot j ≠ some (key name, v) := by
    intro here
    have other := scanned.passed j (Nat.zero_le j) early
    rw [decide_eq_false_iff_not] at other
    exact other ((binds j v).mp here).1
  rcases scanned.ended with ⟨rfl, rfl⟩ | ⟨inside, wanted, rfl⟩
  · refine ⟨(SlotTable.lookup_eq_none.mpr passed).symm, ?_⟩
    rintro off de ⟨⟩
  · rw [decide_eq_true_eq] at wanted
    have here := (binds stop _).mpr ⟨wanted, rfl⟩
    refine ⟨(SlotTable.lookup_of_first inside here passed).symm, ?_⟩
    rintro off de ⟨⟩
    exact ⟨stop, inside, rfl, rfl, here⟩

end Lookup

theorem dirlookup_map (consistent : Consistent sb (sb.image s.disk)) (loaded : Loaded sb s dp) (name : List UInt8) :
    Ensures (dirlookup sb dp name) s (fun r s' => s' = s ∧ r.1 = dp ∧
      r.2.map Prod.snd = ((sb.image s.disk).directory dp.inum).lookup (key name) ∧
      ∀ off v, r.2 = some (off, v) → ∃ j < (sb.image s.disk).entries dp.inum, off = direntSize * j ∧
        ((sb.image s.disk).directory dp.inum).slot j = some (key name, v)) (BadDirectory dp) := by
  refine (dirlookup_spec consistent loaded name).mono ?_
  rintro ⟨dp', r⟩ s ⟨rfl, same, stop, found, rfl, scanned⟩
  obtain ⟨value, place⟩ := scanned.lookup
  refine ⟨rfl, same, ?_, fun off v present => ?_⟩
  · rw [← value, Option.map_map]
    rfl
  · obtain ⟨⟨off, de⟩, here, same⟩ := Option.map_eq_some_iff.mp present
    cases same
    obtain ⟨j, inside, rfl, -, slot⟩ := place off de here
    exact ⟨j, inside, rfl, slot⟩

section Write

variable {j : ℕ} {de : Dirent}

theorem readable_encode (length : de.name.length = dirsiz) : ∀ i < direntSize, (de.encode[i]?).isSome := by
  intro i small
  rw [List.getElem?_eq_getElem (by rwa [Dirent.length_encode length]), Option.isSome_some]

/-- One entry of a directory is written, over an old one or behind the last. -/
structure Entered (im im' : Image) (i j : ℕ) (de : Dirent) : Prop where
  size : im'.entries i = max (im.entries i) (j + 1)
  here : im'.entry i j = de
  others : ∀ k < im.entries i, k ≠ j → im'.entry i k = im.entry i k

theorem Written.entered
    (written : Written sb (fun i => de.encode[i]?) direntSize (direntSize * j) s dp s' dp' direntSize)
    (loaded : Loaded sb s dp) (whole : dp.size.toNat % direntSize = 0) (reach : j ≤ (sb.image s.disk).entries dp.inum)
    (length : de.name.length = dirsiz) :
    Entered (sb.image s.disk) (sb.image s'.disk) dp.inum j de ∧ dp'.size.toNat % direntSize = 0 := by
  obtain ⟨-, bytes⟩ := written.exact (readable_encode length)
  have size := written.size
  have inode := written.loaded.current
  rw [written.inum] at inode
  have count : (sb.image s'.disk).entries dp.inum = max ((sb.image s.disk).entries dp.inum) (j + 1) := by
    rw [Image.entries, Image.entries, inode, loaded.current, size]
    rw [width] at whole ⊢
    omega
  refine ⟨⟨count, entry_of_bytes (by omega) length fun o low high => ?_, fun k inside other => ?_⟩, ?_⟩
  · rw [bytes, if_pos ⟨low, high⟩]
  · refine entry_congr inside (by omega) fun o low high => ?_
    rw [bytes, if_neg]
    rw [width] at low high ⊢
    omega
  · rw [size]
    rw [width] at whole ⊢
    omega

/-- An entry does not cross the end of a block, so it is written whole, or no block was there for it. -/
theorem Leaves.entry {tot k : ℕ} {l : List ℕ} (length : de.name.length = dirsiz)
    (leaves : Leaves sb (fun i => de.encode[i]?) direntSize (direntSize * j) s dp.inum s' tot k l) :
    tot = direntSize ∨ tot = 0 ∧ (sb.image s.disk).held (dp.inum, dataSlot (direntSize * j / bsize)) = none ∧
      ∀ b < sb.size, (sb.image s'.disk).bit b = true := by
  rcases (leaves.whole (readable_encode length)).2 with all | ⟨unmapped, full⟩
  · exact .inl all
  by_cases all : tot = direntSize
  · exact .inl all
  · have nothing : tot = 0 := by
      have boundary := leaves.boundary
      have within := leaves.within
      simp only [bsize, width] at all boundary within
      omega
    subst nothing
    exact .inr ⟨rfl, unmapped, full⟩

/-- The inode and the contents of all files are as before; a block may have been mapped. -/
structure Unchanged (sb : Superblock) (s : Store) (dp : Inode) (s' : Store) (dp' : Inode) : Prop where
  consistent : Consistent sb (sb.image s'.disk)
  loaded : Loaded sb s' dp'
  kept : dp' = { dp with addrs := dp'.addrs }
  elsewhere : SameElsewhere (sb.image s.disk) dp.inum (sb.image s'.disk)
  byte : ∀ o, (sb.image s'.disk).byte dp.inum o = (sb.image s.disk).byte dp.inum o

theorem Unchanged.refl (consistent : Consistent sb (sb.image s.disk)) (loaded : Loaded sb s dp) :
    Unchanged sb s dp s dp :=
  ⟨consistent, loaded, rfl, ⟨fun _ _ => rfl, fun _ _ _ => rfl⟩, fun _ => rfl⟩

theorem Written.unchanged {src : ℕ → Option UInt8} {n off : ℕ} (written : Written sb src n off s dp s' dp' 0)
    (readable : ∀ i < n, (src i).isSome) (low : off ≤ dp.size.toNat) : Unchanged sb s dp s' dp' := by
  refine ⟨written.consistent, written.loaded, ?_, written.elsewhere, fun o => ?_⟩
  · have size := written.size
    rw [Nat.add_zero, max_eq_left low] at size
    rw [written.kept, UInt32.toNat_inj.mp size]
  · rw [(written.exact readable).2, if_neg (by omega)]

section

variable (unchanged : Unchanged sb s dp s' dp') (loaded : Loaded sb s dp)
include unchanged loaded

theorem Unchanged.inode :
    (sb.image s'.disk).inode dp.inum = { (sb.image s.disk).inode dp.inum with addrs := dp'.addrs } := by
  have after := unchanged.loaded.current
  rw [unchanged.kept] at after
  rw [after, loaded.current]

theorem Unchanged.file (i : ℕ) :
    (sb.image s'.disk).file i = (sb.image s.disk).file i := by
  by_cases here : i = dp.inum
  · subst here
    rw [Image.file, Image.file, unchanged.inode loaded, funext unchanged.byte]
  · rw [Image.file, Image.file, unchanged.elsewhere.inode i here, funext (unchanged.elsewhere.byte i here)]

theorem Unchanged.directory :
    (sb.image s'.disk).directory dp.inum = (sb.image s.disk).directory dp.inum := by
  rw [Image.directory, Image.directory, Image.entries, Image.entries, unchanged.inode loaded]
  simp only [Image.entry, unchanged.file loaded]

end

/-- The place for a new entry: the first that is empty, or the end. -/
structure Vacant (im : Image) (i j : ℕ) : Prop where
  reach : j ≤ im.entries i
  first : ∀ k < j, (im.entry i k).inum ≠ 0
  free : j < im.entries i → (im.entry i j).inum = 0

theorem Scanned.vacant {im : Image} {i stop : ℕ} {found : Option (ℕ × Dirent)}
    (scanned : Scanned im i (fun de => de.inum = 0) 0 found stop) : Vacant im i stop := by
  have first (k : ℕ) (early : k < stop) : (im.entry i k).inum ≠ 0 :=
    of_decide_eq_false (scanned.passed k (Nat.zero_le k) early)
  rcases scanned.ended with ⟨rfl, -⟩ | ⟨inside, empty, -⟩
  · exact ⟨le_rfl, first, fun absurd => (lt_irrefl _ absurd).elim⟩
  · exact ⟨inside.le, first, fun _ => of_decide_eq_true empty⟩

/-- Why `dirlink` does not add a name that is not there: the directory is as large as a file can be, or a block was
needed and none is left. -/
def NoRoom (sb : Superblock) (s : Store) (dp : Inode) (j : ℕ) (s' : Store) : Prop :=
  j = (sb.image s.disk).entries dp.inum ∧
    (maxfile * bsize < direntSize * j + direntSize ∧ s' = s ∨ direntSize * j + direntSize ≤ maxfile * bsize ∧
      (sb.image s.disk).held (dp.inum, dataSlot (direntSize * j / bsize)) = none ∧ ∀ b < sb.size,
      (sb.image s'.disk).bit b = true)

/-- How `dirlink` ends. -/
inductive Linked (sb : Superblock) (s : Store) (dp : Inode) (name : List UInt8) (inum : UInt16) :
    Inode × ℤ → Store → Prop where
  | present : ((sb.image s.disk).directory dp.inum).lookup (key name) ≠ none → Linked sb s dp name inum (dp, -1) s
  | refused (dp' : Inode) (s' : Store) (j : ℕ) : ((sb.image s.disk).directory dp.inum).lookup (key name) = none →
      Vacant (sb.image s.disk) dp.inum j → NoRoom sb s dp j s' → Unchanged sb s dp s' dp' →
      Linked sb s dp name inum (dp', -1) s'
  | added (dp' : Inode) (s' : Store) (j : ℕ) : ((sb.image s.disk).directory dp.inum).lookup (key name) = none →
      Vacant (sb.image s.disk) dp.inum j →
      Written sb (fun i => (Dirent.encode ⟨inum, key name⟩)[i]?) direntSize (direntSize * j) s dp s' dp' direntSize →
      (∀ x b, (sb.image s.disk).held x = some b → (sb.image s'.disk).held x = some b) →
      Linked sb s dp name inum (dp', 0) s'

theorem dirlink_map (consistent : Consistent sb (sb.image s.disk)) (loaded : Loaded sb s dp) (name : List UInt8)
    (inum : UInt32)
    (whole : dp.size.toNat % direntSize = 0) :
    Ensures (dirlink sb dp name inum) s (Linked sb s dp name (UInt16.ofNat inum.toNat)) (BadDirectory dp) := by
  have bound := loaded.size_le consistent
  have room : maxfile * bsize = 274432 := rfl
  refine (dirlink_leaves consistent loaded name inum).mono ?_
  rintro ⟨dp', r⟩ s' (⟨stop, entry, looked, rfl, result⟩ | ⟨last, stop, found, tot, k, l, looked, scanned, outcome⟩)
  · obtain ⟨rfl, rfl⟩ := Prod.mk.inj result
    refine .present ?_
    rw [← looked.lookup.1]
    exact Option.some_ne_none _
  · have absent : ((sb.image s.disk).directory dp.inum).lookup (key name) = none := looked.lookup.1.symm
    have vacant := scanned.vacant
    have reach := vacant.reach
    have entries : (sb.image s.disk).entries dp.inum = dp.size.toNat / direntSize := by
      rw [Image.entries, loaded.current]
    have start : (UInt32.ofNat (direntSize * stop)).toNat = direntSize * stop := by
      rw [width] at entries ⊢
      exact UInt32.toNat_ofNat_of_lt' (by simp only [UInt32.size]; omega)
    -- the range starts within the file and does not wrap
    have fits : Refused dp (UInt32.ofNat (direntSize * stop)) (UInt32.ofNat direntSize) ↔
        maxfile * bsize < direntSize * stop + direntSize := by
      have sum :
          (UInt32.ofNat (direntSize * stop) + UInt32.ofNat direntSize).toNat = direntSize * stop + direntSize := by
        rw [UInt32.toNat_add, start, toNat_direntSize]
        rw [width] at entries ⊢
        omega
      rw [Refused, gt_iff_lt, UInt32.lt_iff_toNat_lt, UInt32.lt_iff_toNat_lt, sum, start]
      rw [width] at entries whole ⊢
      omega
    rcases outcome with ⟨refused, rfl, result⟩ | ⟨accepted, written, leaves, result⟩
    · obtain ⟨rfl, rfl⟩ := Prod.mk.inj result
      have large := fits.mp refused
      refine .refused dp' s' stop absent vacant ⟨?_, .inl ⟨large, rfl⟩⟩ (.refl consistent loaded)
      rw [width] at entries whole large
      omega
    · rcases leaves.entry (length_strncpy ..) with rfl | ⟨rfl, unmapped, bits⟩
      · rw [if_pos rfl] at result
        obtain rfl : r = 0 := result
        exact .added dp' s' stop absent vacant written leaves.held
      · rw [if_neg (by decide)] at result
        obtain rfl : r = -1 := result
        have low : direntSize * stop ≤ dp.size.toNat := by
          rw [width] at entries whole ⊢
          omega
        refine .refused dp' s' stop absent vacant ⟨?_, .inr ⟨Nat.le_of_not_lt (mt fits.mpr accepted), unmapped, bits⟩⟩
          (written.unchanged (readable_encode (length_strncpy ..)) low)
        by_contra early
        have inside : direntSize * stop < ((sb.image s.disk).inode dp.inum).size.toNat := by
          rw [loaded.current]
          rw [width] at entries whole ⊢
          omega
        exact held_of_lt consistent loaded.stored inside unmapped

/-- The block of an entry that is there is mapped. -/
theorem clearEntry_spec (consistent : Consistent sb (sb.image s.disk)) (loaded : Loaded sb s dp)
    (inside : j < (sb.image s.disk).entries dp.inum) :
    Ensures (clearEntry sb dp (UInt32.ofNat (direntSize * j))) s (fun r s' => r.2 = direntSize ∧
      Written sb (fun i => Dirent.zero.encode[i]?) direntSize (direntSize * j) s dp s' r.1 direntSize)
      fun _ => False := by
  have bound := loaded.size_le consistent
  have room : maxfile * bsize = 274432 := rfl
  rw [Image.entries, loaded.current, width] at inside
  have start : (UInt32.ofNat (direntSize * j)).toNat = direntSize * j := by
    rw [width]
    exact UInt32.toNat_ofNat_of_lt' (by simp only [UInt32.size]; omega)
  have accepted : ¬ Refused dp (UInt32.ofNat (direntSize * j)) (UInt32.ofNat direntSize) := by
    rw [Refused, gt_iff_lt, UInt32.lt_iff_toNat_lt, UInt32.lt_iff_toNat_lt, UInt32.toNat_add, start,
      toNat_direntSize, width]
    omega
  refine (writei_leaves consistent loaded).mono ?_
  rintro ⟨dp', r⟩ s' ⟨-, wrote⟩
  obtain ⟨tot, k, l, rfl, written, leaves⟩ := wrote accepted
  rw [start] at written leaves
  rcases leaves.entry rfl with rfl | ⟨-, unmapped, -⟩
  · exact ⟨rfl, written⟩
  · refine absurd unmapped (held_of_lt consistent loaded.stored ?_)
    rw [loaded.current, width]
    omega

end Write

end Op

end Xv6.Fs
