import Xv6.Proofs.Fs.DirectoryMap
import Xv6.Proofs.Fs.Realise

/-! # Directories are finite maps

`dirlookup`, `dirlink` and the write of `sys_unlink` are lookup, insertion and removal on the map of a
directory. An insertion is refused where the name is bound, where no block is left, and where the directory
has no empty entry and is as large as a file can be.
-/

namespace Xv6.Fs

open Machine Image

namespace Op

variable {sb : Superblock} {s s' : Store} {dp dp' : Inode} {name : List UInt8} {j : ℕ} {v : UInt16}

/-- The map of a directory. -/
def names (sb : Superblock) (s : Store) (dp : Inode) : SlotTable (List UInt8) UInt16 :=
  (sb.image s.disk).directory dp.inum

/-- A locked directory: whole entries, and no name in two of them. -/
structure IsDirectory (sb : Superblock) (s : Store) (dp : Inode) : Prop where
  consistent : Consistent sb (sb.image s.disk)
  loaded : Loaded sb s dp
  type : dp.type = tDir
  whole : dp.size.toNat % direntSize = 0
  distinct : (names sb s dp).Distinct

section

variable (valid : IsDirectory sb s dp)
include valid

theorem IsDirectory.not_bad (e : Fault) : ¬ BadDirectory dp e := by
  rintro (⟨-, other⟩ | ⟨-, partly⟩)
  · exact other valid.type
  · exact partly valid.whole

theorem IsDirectory.insert (nonzero : v ≠ 0) (absent : (names sb s dp).lookup (key name) = none)
    (vacant : Vacant (sb.image s.disk) dp.inum j)
    (written : Written sb (fun i => (Dirent.encode ⟨v, key name⟩)[i]?) direntSize (direntSize * j) s dp s'
      dp' direntSize) :
    IsDirectory sb s' dp' ∧ (sb.image s'.disk).entry dp.inum j = ⟨v, key name⟩ ∧
      (names sb s' dp').lookup = Function.update (names sb s dp).lookup (key name) (some v) := by
  obtain ⟨entered, whole⟩ := written.entered valid.loaded valid.whole vacant.reach (length_key name)
  have inserted :
      (names sb s' dp').Distinct ∧ (names sb s' dp').lookup =
      Function.update (names sb s dp).lookup (key name) (some v) :=
    valid.distinct.insert absent vacant.reach ?_ ?_ ?_ ?_
  · refine ⟨⟨written.consistent, written.loaded, ?_, whole, inserted.1⟩, entered.here, inserted.2⟩
    rw [written.kept]
    exact valid.type
  · exact fun inside => Dirent.binding_eq_none.mpr (vacant.free inside)
  · rw [names, written.inum]
    exact entered.size
  · rw [names, written.inum]
    change ((sb.image s'.disk).entry dp.inum j).binding = _
    rw [entered.here, Dirent.binding_eq_some]
    exact ⟨nonzero, key_key name, rfl⟩
  · intro i inside other
    rw [names, written.inum]
    exact congrArg Dirent.binding (entered.others i inside other)

theorem IsDirectory.unchanged (unchanged : Unchanged sb s dp s' dp') :
    IsDirectory sb s' dp' ∧ (names sb s' dp').lookup = (names sb s dp).lookup := by
  have inum : dp'.inum = dp.inum := by rw [unchanged.kept]
  have same : names sb s' dp' = names sb s dp := by
    rw [names, inum]
    exact unchanged.directory valid.loaded
  refine ⟨⟨unchanged.consistent, unchanged.loaded, ?_, ?_, ?_⟩, by rw [same]⟩
  · rw [unchanged.kept]
    exact valid.type
  · rw [unchanged.kept]
    exact valid.whole
  · rw [same]
    exact valid.distinct

theorem IsDirectory.erase (inside : j < (names sb s dp).size)
    (here : (names sb s dp).slot j = some (key name, v))
    (written : Written sb (fun i => Dirent.zero.encode[i]?) direntSize (direntSize * j) s dp s' dp' direntSize) :
    IsDirectory sb s' dp' ∧ (names sb s' dp').lookup = Function.update (names sb s dp).lookup (key name) none := by
  obtain ⟨entered, whole⟩ := written.entered valid.loaded valid.whole inside.le rfl
  have erased :
      (names sb s' dp').Distinct ∧ (names sb s' dp').lookup = Function.update (names sb s dp).lookup (key name) none :=
    valid.distinct.erase inside here ?_ ?_ ?_
  · refine ⟨⟨written.consistent, written.loaded, ?_, whole, erased.1⟩, erased.2⟩
    rw [written.kept]
    exact valid.type
  · rw [names, written.inum]
    exact entered.size.trans (max_eq_left inside)
  · rw [names, written.inum]
    change ((sb.image s'.disk).entry dp.inum j).binding = _
    rw [entered.here]
    rfl
  · intro i small other
    rw [names, written.inum]
    exact congrArg Dirent.binding (entered.others i small other)

end

/-- No entry is empty. -/
def Packed (sb : Superblock) (s : Store) (dp : Inode) : Prop :=
  ∀ j < (sb.image s.disk).entries dp.inum, ((sb.image s.disk).entry dp.inum j).inum ≠ 0

/-- The block behind the last entry is not mapped. -/
def Unmapped (sb : Superblock) (s : Store) (dp : Inode) : Prop :=
  (sb.image s.disk).held (dp.inum, dataSlot (dp.size.toNat / bsize)) = none

/-- Every block of the disk is in use. -/
def Exhausted (sb : Superblock) (s : Store) : Prop := ∀ b < sb.size, (sb.image s.disk).bit b = true

theorem IsDirectory.size_eq (valid : IsDirectory sb s dp) :
    direntSize * (sb.image s.disk).entries dp.inum = dp.size.toNat := by
  rw [Image.entries, valid.loaded.current]
  exact Nat.mul_div_cancel' (Nat.dvd_of_mod_eq_zero valid.whole)

theorem vacant_of_packed {im : Image} {i : ℕ} (packed : ∀ k < im.entries i, (im.entry i k).inum ≠ 0)
    (vacant : Vacant im i j) :
    j = im.entries i := by
  by_contra early
  have inside := Nat.lt_of_le_of_ne vacant.reach early
  exact packed j inside (vacant.free inside)

/-- A block is added at the end of a directory only if one is free. -/
theorem not_exhausted (valid : IsDirectory sb s dp) (unmapped : Unmapped sb s dp)
    (written : Written sb (fun i => (Dirent.encode ⟨v, key name⟩)[i]?) direntSize dp.size.toNat s dp s' dp' direntSize)
    (held : ∀ x b, (sb.image s.disk).held x = some b → (sb.image s'.disk).held x = some b) : ¬ Exhausted sb s := by
  intro full
  -- the block of the new entry is mapped, so it was in use, in the slot where it is now
  have inode : (sb.image s'.disk).inode dp.inum = dp'.toDinode := by rw [← written.inum, written.loaded.current]
  have mapped : (sb.image s'.disk).held (dp.inum, dataSlot (dp.size.toNat / bsize)) ≠ none := by
    refine held_of_lt written.consistent (by rw [inode]; exact written.loaded.live) ?_
    rw [inode, written.size, width]
    omega
  obtain ⟨b, now⟩ := Option.ne_none_iff_exists'.mp mapped
  have data := written.consistent.toSound.in_data now
  obtain ⟨x, before⟩ := (valid.consistent.owned.used_iff b).mp ⟨data.1, data.2, full b data.2⟩
  obtain rfl := written.consistent.owned.unique _ _ b (held x b before) now
  rw [Unmapped] at unmapped
  rw [unmapped] at before
  cases before

/-- No name is added to a directory without an empty entry that cannot grow. -/
theorem Linked.refuses {r : Inode × ℤ} (valid : IsDirectory sb s dp) (packed : Packed sb s dp)
    (room : maxfile * bsize < dp.size.toNat + direntSize ∨ Unmapped sb s dp ∧ Exhausted sb s)
    (linked : Linked sb s dp name v r s') : r.2 = -1 := by
  cases linked with
  | present | refused => rfl
  | added dp' _ j _ vacant written held =>
    rw [vacant_of_packed packed vacant, valid.size_eq] at written
    rcases room with large | ⟨unmapped, full⟩
    · have limit :=
        size_le written.consistent (i := dp'.inum) (by rw [written.loaded.current]; exact written.loaded.live)
      rw [written.loaded.current, written.size] at limit
      omega
    · exact absurd full (not_exhausted valid unmapped written held)

/-- Names are compared and bound by what `strncpy` stores of them, in `DIRSIZ` bytes with or without a NUL. -/
theorem directory_finite_map (sb : Superblock) (s : Store) (dp : Inode) (valid : IsDirectory sb s dp)
    (name : List UInt8)
    (inum : UInt32) (low : 1 ≤ inum.toNat) (high : inum.toNat ≤ 65535) :
    (∃ r, (dirlookup sb dp name).run s = .ok ((dp, r), s) ∧ r.map Prod.snd = (names sb s dp).lookup (key name) ∧
      ∀ off v, r = some (off, v) →
        ∃ j < (names sb s dp).size, off = direntSize * j ∧ (names sb s dp).slot j = some (key name, v)) ∧
    (∃ dp' r s', (dirlink sb dp name inum).run s = .ok ((dp', r), s') ∧ IsDirectory sb s' dp' ∧ dp'.inum = dp.inum ∧
      SameElsewhere (sb.image s.disk) dp.inum (sb.image s'.disk) ∧
      (r = -1 ∧ (names sb s' dp').lookup = (names sb s dp).lookup ∧ ((names sb s dp).lookup (key name) ≠ none ∨
          Packed sb s dp ∧ (maxfile * bsize < dp.size.toNat + direntSize ∨ Unmapped sb s dp ∧ Exhausted sb s')) ∨
        r = 0 ∧ (names sb s dp).lookup (key name) = none ∧
          (names sb s' dp').lookup =
          Function.update (names sb s dp).lookup (key name) (some (UInt16.ofNat inum.toNat)) ∧
          ∃ j, Vacant (sb.image s.disk) dp.inum j ∧
            (sb.image s'.disk).entry dp.inum j = ⟨UInt16.ofNat inum.toNat, key name⟩) ∧
      ((names sb s dp).lookup (key name) ≠ none ∨
        Packed sb s dp ∧ (maxfile * bsize < dp.size.toNat + direntSize ∨ Unmapped sb s dp ∧ Exhausted sb s) → r = -1)) ∧
    ∀ j v, j < (names sb s dp).size → (names sb s dp).slot j = some (key name, v) →
      ∃ dp' s', (clearEntry sb dp (UInt32.ofNat (direntSize * j))).run s = .ok ((dp', (direntSize : ℤ)), s') ∧
        IsDirectory sb s' dp' ∧ dp'.inum = dp.inum ∧ SameElsewhere (sb.image s.disk) dp.inum (sb.image s'.disk) ∧
        (names sb s' dp').lookup = Function.update (names sb s dp).lookup (key name) none := by
  have value : (UInt16.ofNat inum.toNat).toNat = inum.toNat :=
    UInt16.toNat_ofNat_of_lt' (by simp only [UInt16.size]; omega)
  have nonzero : UInt16.ofNat inum.toNat ≠ 0 := by
    intro zero
    rw [zero, UInt16.toNat_zero] at value
    omega
  have total := valid.size_eq
  refine ⟨?_, ?_, fun j v inside here => ?_⟩
  · obtain ⟨⟨dp', r⟩, s', ran, rfl, rfl, found, place⟩ :=
      ((dirlookup_map valid.consistent valid.loaded name).allow valid.not_bad).exists_run
    exact ⟨r, ran, found, place⟩
  · obtain ⟨⟨dp', r⟩, s', ran, linked⟩ :=
      ((dirlink_map valid.consistent valid.loaded name inum valid.whole).allow valid.not_bad).exists_run
    have refuses := linked.refuses valid
    refine ⟨dp', r, s', ran, ?_⟩
    cases linked with
    | present bound =>
      exact ⟨valid, rfl, ⟨fun _ _ => rfl, fun _ _ _ => rfl⟩, .inl ⟨rfl, rfl, .inl bound⟩, fun _ => rfl⟩
    | refused _ _ j absent vacant noRoom unchanged =>
      obtain ⟨still, same⟩ := valid.unchanged unchanged
      obtain ⟨rfl, room⟩ := noRoom
      rw [total] at room
      refine ⟨still, by rw [unchanged.kept], unchanged.elsewhere, .inl ⟨rfl, same, .inr ⟨vacant.first, ?_⟩⟩,
        fun _ => rfl⟩
      exact room.imp (fun large => large.1) fun out => out.2
    | added _ _ j absent vacant written held =>
      obtain ⟨still, entry, inserted⟩ := valid.insert nonzero absent vacant written
      refine ⟨still, written.inum, written.elsewhere, .inr ⟨rfl, absent, inserted, j, vacant, entry⟩, ?_⟩
      rintro (bound | ⟨packed, room⟩)
      · exact absurd absent bound
      · exact refuses packed room
  · obtain ⟨⟨dp', r⟩, s', ran, count, written⟩ := (clearEntry_spec valid.consistent valid.loaded inside).exists_run
    obtain ⟨still, erased⟩ := valid.erase inside here written
    simp only at count
    rw [count] at ran
    exact ⟨dp', s', ran, still, written.inum, written.elsewhere, erased⟩

/-- A directory without entries. -/
def empty : Dinode := { Dinode.zero with type := tDir, nlink := 1 }

theorem live_empty : empty.type ≠ 0 := by decide

def emptyInode : Inode := singleInode empty fun _ => 0

theorem directory_finite_map_empty : ∃ s dp' s', (dirlink roomy emptyInode [97] 1).run s = .ok ((dp', 0), s') ∧
    (names roomy s' dp').lookup (key [97]) = some 1 := by
  obtain ⟨s, shown⟩ := exists_single live_empty
  obtain ⟨consistent, loaded⟩ := loaded_single live_empty (by decide) shown
  have none : (names roomy s emptyInode).size = 0 := by
    change ((roomy.image s.disk).inode emptyInode.inum).size.toNat / direntSize = 0
    rw [show (roomy.image s.disk).inode emptyInode.inum = emptyInode.toDinode from loaded.current]
    rfl
  have valid : IsDirectory roomy s emptyInode := by
    refine ⟨consistent, loaded, rfl, rfl, fun i inside => ?_⟩
    rw [none] at inside
    exact absurd inside (Nat.not_lt_zero i)
  have absent : (names roomy s emptyInode).lookup (key [97]) = Option.none :=
    SlotTable.lookup_eq_none.mpr fun j inside => absurd inside (by rw [none]; exact Nat.not_lt_zero j)
  obtain ⟨-, ⟨dp', r, s', ran, -, -, -, outcome, -⟩, -⟩ :=
    directory_finite_map roomy s emptyInode valid [97] 1 (by decide) (by decide)
  rcases outcome with ⟨-, -, bound | ⟨-, large | ⟨unmapped, -⟩⟩⟩ | ⟨rfl, -, inserted, -⟩
  · exact absurd absent bound
  · exact absurd large (by decide)
  · exact absurd unmapped (held_single live_empty shown (by decide))
  · exact ⟨s, dp', s', ran, by rw [inserted, Function.update_self]; rfl⟩

section Largest

/-! A directory of the largest size, every entry of which is in use. -/

/-- One of `2 ^ 15` names. -/
def label (j : ℕ) : List UInt8 :=
  UInt8.ofNat (1 + j % 128) :: UInt8.ofNat (1 + j / 128 % 128) :: UInt8.ofNat (1 + j / 16384 % 2) :: List.replicate 11 0

theorem key_label (j : ℕ) : key (label j) = label j := by
  have nonzero {m : ℕ} (small : m < 128) : UInt8.ofNat (1 + m) ≠ 0 := by
    intro zero
    have value : (UInt8.ofNat (1 + m)).toNat = 1 + m := UInt8.toNat_ofNat_of_lt' (by simp only [UInt8.size]; omega)
    rw [zero, UInt8.toNat_zero] at value
    omega
  have first := nonzero (Nat.mod_lt j (show 0 < 128 by decide))
  have second := nonzero (Nat.mod_lt (j / 128) (show 0 < 128 by decide))
  have third := nonzero (Nat.lt_trans (Nat.mod_lt (j / 16384) (show 0 < 2 by decide)) (by decide))
  unfold key label dirsiz
  rw [strncpy_succ (by exact first), List.headD_cons, List.tail_cons, strncpy_succ (by exact second), List.headD_cons,
    List.tail_cons, strncpy_succ (by exact third), List.headD_cons, List.tail_cons, strncpy_of_ended rfl]

theorem label_inj {i j : ℕ} (lowi : i < 32768) (lowj : j < 32768) (same : label i = label j) : i = j := by
  have inj {m n : ℕ} (smallm : m < 128) (smalln : n < 128) (equal : UInt8.ofNat (1 + m) = UInt8.ofNat (1 + n)) :
      m = n := by
    have := congrArg UInt8.toNat equal
    rw [UInt8.toNat_ofNat_of_lt' (by simp only [UInt8.size]; omega),
      UInt8.toNat_ofNat_of_lt' (by simp only [UInt8.size]; omega)] at this
    omega
  obtain ⟨first, rest⟩ := List.cons.inj same
  obtain ⟨second, rest⟩ := List.cons.inj rest
  obtain ⟨third, -⟩ := List.cons.inj rest
  have := inj (Nat.mod_lt _ (by decide)) (Nat.mod_lt _ (by decide)) first
  have := inj (Nat.mod_lt _ (by decide)) (Nat.mod_lt _ (by decide)) second
  have := inj (Nat.lt_trans (Nat.mod_lt _ (by decide)) (by decide))
    (Nat.lt_trans (Nat.mod_lt _ (by decide)) (by decide)) third
  omega

/-- All entries name the directory itself. -/
def largest : Dinode := { Dinode.zero with type := tDir, nlink := 1, size := 274432 }

theorem live_largest : largest.type ≠ 0 := by decide

def largestByte : ℕ → UInt8 := Contents.ofEntries fun j => ⟨1, label j⟩

def largestInode : Inode := singleInode largest largestByte

theorem slot_largest (shown : roomy.image s.disk = (single largest largestByte).image roomy)
    (loaded : Loaded roomy s largestInode) :
    (names roomy s largestInode).size = 17152 ∧ ∀ j < 17152, (names roomy s largestInode).slot j =
    some (label j, 1) := by
  have entries : (roomy.image s.disk).entries 1 = 17152 := by
    rw [Image.entries, show (roomy.image s.disk).inode 1 = largestInode.toDinode from loaded.current]
    rfl
  refine ⟨entries, fun j small => ?_⟩
  have entry : (roomy.image s.disk).entry 1 j = ⟨1, label j⟩ := by
    rw [shown] at entries ⊢
    refine Contents.entry_eq (e := fun j => ⟨1, label j⟩) (fits_single live_largest) le_rfl le_rfl ?_ rfl
      (fun _ => rfl) ?_
    · exact (by decide : largest.size.toNat ≤ maxfile * bsize)
    · rwa [entries]
  change ((roomy.image s.disk).entry 1 j).binding = _
  rw [entry, Dirent.binding_eq_some]
  exact ⟨(by decide : (1 : UInt16) ≠ 0), key_label j, rfl⟩

theorem isDirectory_largest (shown : roomy.image s.disk = (single largest largestByte).image roomy) :
    IsDirectory roomy s largestInode := by
  obtain ⟨consistent, loaded⟩ := loaded_single live_largest (by decide) shown
  obtain ⟨size, slots⟩ := slot_largest shown loaded
  refine ⟨consistent, loaded, rfl, rfl, fun i lowi j lowj k v w first second => ?_⟩
  rw [size] at lowi lowj
  rw [slots i lowi] at first
  rw [slots j lowj] at second
  obtain ⟨here, -⟩ := Prod.mk.inj (Option.some.inj first)
  obtain ⟨there, -⟩ := Prod.mk.inj (Option.some.inj second)
  exact label_inj (by omega) (by omega) (here.trans there.symm)

/-- A block is free and the name is not in the directory, and `dirlink` refuses it. -/
theorem largest_refuses : ∃ s, IsDirectory roomy s largestInode ∧ (names roomy s largestInode).lookup (key []) = none ∧
    ¬ Exhausted roomy s ∧ ∃ dp' s', (dirlink roomy largestInode [] 1).run s = .ok ((dp', -1), s') := by
  obtain ⟨s, shown⟩ := exists_single live_largest
  have valid := isDirectory_largest shown
  obtain ⟨size, slots⟩ := slot_largest shown valid.loaded
  have absent : (names roomy s largestInode).lookup (key []) = none := by
    rw [SlotTable.lookup_eq_none]
    intro j inside v here
    rw [slots j (size ▸ inside)] at here
    have equal : label j = key [] := (Prod.mk.inj (Option.some.inj here)).1
    have first : UInt8.ofNat (1 + j % 128) = 0 := (List.cons.inj equal).1
    have value : (UInt8.ofNat (1 + j % 128)).toNat = 1 + j % 128 :=
      UInt8.toNat_ofNat_of_lt' (by simp only [UInt8.size]; omega)
    rw [first, UInt8.toNat_zero] at value
    omega
  refine ⟨s, valid, absent, fun full => ?_, ?_⟩
  · have last := full 299 (by decide)
    rw [shown] at last
    exact absurd last (by decide)
  · obtain ⟨⟨dp', r⟩, s', ran, linked⟩ :=
      ((dirlink_map valid.consistent valid.loaded [] 1 valid.whole).allow valid.not_bad).exists_run
    have packed : Packed roomy s largestInode := fun j inside empty => by
      have used := slots j (size ▸ inside)
      rw [show (names roomy s largestInode).slot j = none from Dirent.binding_eq_none.mpr empty] at used
      cases used
    obtain rfl : r = -1 := linked.refuses valid packed (.inl (by decide))
    exact ⟨dp', s', ran⟩

end Largest

end Op

end Xv6.Fs
