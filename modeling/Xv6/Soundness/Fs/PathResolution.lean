import Xv6.Proofs.Fs.Linking
import Xv6.Proofs.Fs.Realise

/-! # Paths resolve

`namei` and `nameiparent` return the inodes that the components of a path lead to, from the root directory or
from the current one. They read only, and of all the references taken on the way the one that is returned
is left. The kernel stops where the table of inodes has less than two entries free, or where an entry on the
way names an inode that is not allocated.
-/

namespace Xv6.Fs

open Machine Image
open Itable (ninode)

namespace Kern

section Walked

variable {sb : Superblock} {k k' : Kernel} {cwd : Fin ninode} {path name : List UInt8} {i : ℕ} {parent : Bool}
  {names : List (List UInt8)} {im : Image} {r : Option (Fin ninode) × List UInt8}

theorem Walked.target_eq (walked : Walked sb k.table im parent names i r k') :
    r.1.map (fun p => (k'.table p).inum) = im.target parent names i := by
  cases walked with
  | missing _ _ absent _ => exact absent.symm
  | reached q _ _ there _ _ => exact there.symm

theorem Walked.ref_eq (walked : Walked sb k.table im parent names i r k') (q : Fin ninode) :
    (k'.table q).ref = (k.table q).ref + if r.1 = some q then 1 else 0 := by
  cases walked with
  | missing _ _ _ owns => rw [owns.ref, Multiset.count_zero, if_neg (by rintro ⟨⟩)]
  | reached p _ _ _ _ owns =>
    rw [owns.ref, Multiset.count_singleton]
    exact congrArg _ (if_congr (by rw [Option.some.injEq, eq_comm]) rfl rfl)

theorem Walked.getLast?_eq (walked : Walked sb k.table im true names i r k') (found : r.1.isSome) :
    names.getLast? = some (cstring r.2) := by
  cases walked with
  | missing _ _ _ _ => cases found
  | reached _ _ _ _ last _ => exact (last rfl).1

end Walked

/-- `namei` and `nameiparent` return what the components of the path lead to, write nothing, and keep one reference to
it and none to what is on the way. -/
theorem path_resolution (sb : Superblock) (k : Kernel) (cwd : Fin ninode) (path name : List UInt8) (quiet : Quiet sb k)
    (here : 0 < (k.table cwd).ref) :
    (∀ n, path.length ≤ n → elements n path name = components path) ∧
    Ensures (namei sb cwd path) k
      (fun r k' => k'.store = k.store ∧
        r.map (fun p => (k'.table p).inum) = (sb.image k.store.disk).resolve (components path) (origin k cwd path) ∧
        ∀ q, (k'.table q).ref = (k.table q).ref + if r = some q then 1 else 0)
      (Lost k.table (sb.image k.store.disk) (components path) (origin k cwd path)) ∧
    Ensures (nameiparent sb cwd path name) k
      (fun r k' => k'.store = k.store ∧
        r.1.map (fun p => (k'.table p).inum) = (if components path = [] then none
          else ((sb.image k.store.disk).resolve (components path).dropLast (origin k cwd path)).filter fun d =>
            ((sb.image k.store.disk).inode d).type = tDir) ∧
        (r.1.isSome → (components path).getLast? = some (cstring r.2)) ∧
        ∀ q, (k'.table q).ref = (k.table q).ref + if r.1 = some q then 1 else 0)
      (Lost k.table (sb.image k.store.disk) (components path) (origin k cwd path)) := by
  refine ⟨fun n enough => elements_eq path name enough, ?_, ?_⟩
  · refine (namex_ensures quiet.tidy quiet.idle quiet.anchored here path _ false).bind ?_
    rintro r k' ⟨store, walked⟩
    exact .pure ⟨store, walked.target_eq, walked.ref_eq⟩
  · refine (namex_ensures quiet.tidy quiet.idle quiet.anchored here path name true).mono ?_
    rintro r k' ⟨store, walked⟩
    exact ⟨store, walked.target_eq, walked.getLast?_eq, walked.ref_eq⟩

namespace Sample

/-! A file system in which calls can be tried: the root directory has the directories `a` and `b`, which are as large as
files can be and have no entries left but the two they began with, and the empty file `f`. The process that calls is
at the root. -/

open Op Mkfs

def folder (nlink : Int16) (size : UInt32) : Dinode := { Dinode.zero with type := tDir, nlink, size }

def fields : ℕ → Dinode
  | 1 => folder 3 80
  | 2 => folder 1 274432
  | 3 => folder 1 274432
  | _ => { Dinode.zero with type := 2, nlink := 1 }

/-- An entry with a name of few bytes. -/
def named (inum : UInt16) (name : List UInt8) : Dirent := ⟨inum, key name⟩

def rootEntries : List Dirent := [named 1 dot, named 1 dotdot, named 2 [97], named 3 [98], named 4 [102]]

def entries (i j : ℕ) : Dirent :=
  if i = 1 then (rootEntries[j]?).getD .zero
  else if j = 0 then named (UInt16.ofNat i) dot
  else if j = 1 then named 1 dotdot
  else .zero

def contents : Contents := ⟨4, fields, fun i => Contents.ofEntries (entries i)⟩

variable {i j : ℕ} {s : Store} {name : List UInt8} {inum : UInt16}

theorem cases_of_inside (low : 1 ≤ i) (high : i ≤ contents.count) : i = 1 ∨ i = 2 ∨ i = 3 ∨ i = 4 := by
  have : contents.count = 4 := rfl
  omega

theorem fits : contents.Fits sb := by
  refine ⟨by decide, by decide, fun i low high => ?_⟩
  rcases cases_of_inside low high with rfl | rfl | rfl | rfl <;> decide

theorem size_fields (low : 1 ≤ i) (high : i ≤ contents.count) : (contents.fields i).size.toNat ≤ maxfile * bsize := by
  rcases cases_of_inside low high with rfl | rfl | rfl | rfl <;> decide

theorem length_entries (i j : ℕ) : (entries i j).name.length = dirsiz := by
  have zero : Dirent.zero.name.length = dirsiz := rfl
  have all : ∀ de ∈ rootEntries, de.name.length = dirsiz := by
    simp only [rootEntries, named, List.forall_mem_cons, length_key, true_and]
    exact fun _ absurd => nomatch absurd
  unfold entries
  split
  · cases found : rootEntries[j]? with
    | none => exact zero
    | some de => exact all de (List.mem_of_getElem? found)
  · split
    · exact length_key dot
    · split
      · exact length_key dotdot
      · exact zero

theorem inode_image (low : 1 ≤ i) (high : i ≤ contents.count) :
    ((contents.image sb).inode i).type = (fields i).type ∧ ((contents.image sb).inode i).nlink = (fields i).nlink ∧
      ((contents.image sb).inode i).size = (fields i).size := by
  rw [Contents.inode_eq low high]
  exact ⟨rfl, rfl, rfl⟩

theorem inside_of_live (live : ((contents.image sb).inode i).type ≠ 0) : 1 ≤ i ∧ i ≤ contents.count := by
  by_contra outside
  rw [Contents.inode_of_not outside] at live
  exact live rfl

theorem entry_image (inside : j < (contents.image sb).entries i)
    (live : ((contents.image sb).inode i).type ≠ 0) : (contents.image sb).entry i j = entries i j := by
  obtain ⟨low, high⟩ := inside_of_live live
  exact Contents.entry_eq fits low high (size_fields low high) rfl (length_entries i) inside

theorem inum_entries (low : 1 ≤ i) (high : i ≤ contents.count) : (entries i j).inum.toNat ≤ 4 := by
  have all : ∀ de ∈ rootEntries, de.inum.toNat ≤ 4 := by
    simp only [rootEntries, named, List.forall_mem_cons]
    exact ⟨by decide, by decide, by decide, by decide, by decide, fun _ absurd => nomatch absurd⟩
  unfold entries
  split
  · cases found : rootEntries[j]? with
    | none => exact Nat.zero_le 4
    | some de => exact all de (List.mem_of_getElem? found)
  · split
    · rcases cases_of_inside low high with rfl | rfl | rfl | rfl <;> decide
    · split <;> decide

theorem tidy : Tidy sb (contents.image sb) := by
  refine ⟨fits.consistent fun i low high => size_fields low high, by decide, fun i dir => ?_, fun i dir j inside => ?_⟩
  · obtain ⟨low, high⟩ := inside_of_live (i := i) (by rw [dir]; decide)
    rw [(inode_image low high).2.2]
    rcases cases_of_inside low high with rfl | rfl | rfl | rfl <;> decide
  · have live : ((contents.image sb).inode i).type ≠ 0 := by
      rw [dir]
      decide
    obtain ⟨low, high⟩ := inside_of_live live
    rw [entry_image inside live]
    exact Nat.lt_of_le_of_lt (inum_entries low high) (by decide)

theorem linked (low : 1 ≤ i) (high : i ≤ contents.count) : ((contents.image sb).inode i).nlink ≠ 0 := by
  rw [(inode_image low high).2.1]
  rcases cases_of_inside low high with rfl | rfl | rfl | rfl <;> decide

/-- The current directory. -/
def cwd : Fin ninode := ⟨0, by decide⟩

/-- The table of inodes, with one reference to the root directory. -/
def table (p : Fin ninode) : Incore := ⟨rootino, if p = cwd then 1 else 0, false, false, .zero⟩

theorem used_cwd : 0 < (table cwd).ref := Nat.one_pos

theorem eq_cwd_of_used {p : Fin ninode} (used : 0 < (table p).ref) : p = cwd := by
  by_contra other
  rw [table, if_neg other] at used
  exact lt_irrefl 0 used

theorem idle (s : Store) : Idle sb ⟨s, table⟩ := by
  have known : rootino < sb.ninodes := by decide
  refine ⟨fun _ => by rw [Multiset.count_zero, Nat.add_zero], fun _ _ => rfl, fun p q first second _ => ?_,
    fun _ _ => known,
    fun _ _ valid => (Bool.false_ne_true valid).elim, fun p => ?_, fun p none => (Finset.notMem_empty p none).elim⟩
  · rw [eq_cwd_of_used first, eq_cwd_of_used second]
  · exact (decide_eq_false (Finset.notMem_empty p)).symm

theorem quiet (shown : sb.image s.disk = contents.image sb) : Quiet sb ⟨s, table⟩ := by
  refine ⟨?_, idle s, fun p _ => ?_, fun i orphan => ?_⟩
  · dsimp only
    rw [shown]
    exact tidy
  · dsimp only
    have type := (inode_image (i := 1) le_rfl (by decide)).1
    rw [shown, show (table p).inum = 1 from rfl, type]
    decide
  · dsimp only at orphan
    rw [shown] at orphan
    obtain ⟨low, high⟩ := inside_of_live orphan.1
    exact absurd orphan.2 (linked low high)

theorem exists_store : ∃ s : Store, sb.image s.disk = contents.image sb := by
  obtain ⟨disk, shown⟩ := fits.superblock.exists_disk
  exact ⟨⟨disk, []⟩, shown⟩

theorem root_image : ((contents.image sb).inode 1).type = tDir ∧ (contents.image sb).entries 1 = 5 := by
  obtain ⟨type, -, size⟩ := inode_image (i := 1) le_rfl (by decide)
  rw [type, Image.entries, size]
  exact ⟨rfl, rfl⟩

theorem slot_root (inside : j < 5) : ((contents.image sb).directory 1).slot j = (entries 1 j).binding := by
  obtain ⟨type, size⟩ := root_image
  refine congrArg Dirent.binding (entry_image (by rwa [size]) ?_)
  rw [type]
  decide

theorem lookup_root (inside : j < 5) (here : (entries 1 j).binding = some (key name, inum))
    (other : ∀ i < j, key (entries 1 i).name ≠ key name) :
    ((contents.image sb).directory 1).lookup (key name) = some inum := by
  have bound : j < ((contents.image sb).directory 1).size := by
    rw [show ((contents.image sb).directory 1).size = 5 from root_image.2]
    exact inside
  refine SlotTable.lookup_of_first bound ?_ fun i low w => ?_
  · rw [slot_root inside, here]
  · rw [slot_root (by omega), Ne, Dirent.binding_eq_some]
    exact fun found => other i low found.2.1

theorem lookup_file : ((contents.image sb).directory 1).lookup (key [102]) = some 4 :=
  lookup_root (j := 4) (by decide) (by decide) (by decide)

theorem lookup_folder : ((contents.image sb).directory 1).lookup (key [97]) = some 2 :=
  lookup_root (j := 2) (by decide) (by decide) (by decide)

theorem resolve_root (found : ((contents.image sb).directory 1).lookup (key name) = some inum) :
    (contents.image sb).resolve [name] 1 = some inum.toNat := by
  rw [resolve_cons root_image.1, found]
  rfl

theorem parent_root (name : List UInt8) : (contents.image sb).parent [name] 1 = some 1 := target_last root_image.1

theorem not_dangling (name : List UInt8) : ¬ (contents.image sb).Dangling [name] 1 := by
  rintro ⟨front, next, back, d, split, walked, free⟩
  obtain rfl : front = [] := by
    cases front with
    | nil => rfl
    | cons x front => simp at split
  obtain rfl : 1 = d := Option.some.inj walked
  rw [root_image.1] at free
  exact absurd free (by decide)

theorem not_broken {path : List UInt8} (shown : sb.image s.disk = contents.image sb)
    (start : origin ⟨s, table⟩ cwd path = 1) (elems : components path = [name])
    (found : ((contents.image sb).directory 1).lookup (key name) = some inum)
    (known : 1 ≤ inum.toNat ∧ inum.toNat ≤ contents.count) :
    ¬ Broken (sb.image s.disk) path (origin ⟨s, table⟩ cwd path) := by
  rw [Broken, start, elems, shown]
  rintro (dangling | ⟨i, walked, free⟩)
  · exact not_dangling _ dangling
  · obtain rfl := Option.some.inj ((resolve_root found).symm.trans walked)
    rw [(inode_image known.1 known.2).1] at free
    exact fits.live _ known.1 known.2 free

theorem not_packed : ¬ Packed table := by
  rintro ⟨x, y, used⟩
  have taken (n : ℕ) (positive : 0 < n) (small : n < ninode) : x = ⟨n, small⟩ ∨ y = ⟨n, small⟩ := by
    by_contra neither
    rw [not_or] at neither
    have := eq_cwd_of_used (used ⟨n, small⟩ (Ne.symm neither.1) (Ne.symm neither.2))
    rw [cwd, Fin.mk.injEq] at this
    omega
  have first := taken 1 (by decide) (by decide)
  have second := taken 2 (by decide) (by decide)
  have third := taken 3 (by decide) (by decide)
  simp only [Fin.ext_iff] at first second third
  omega

theorem not_crowded : ¬ Crowded table := fun crowded => not_packed (packed_of_crowded crowded)

end Sample

/-- The path of the file at the root. -/
theorem path_resolution_file :
    ∃ s p k', (namei Mkfs.sb Sample.cwd [slash, 102]).run ⟨s, Sample.table⟩ = .ok (some p, k') ∧
    (k'.table p).inum = 4 := by
  obtain ⟨s, shown⟩ := Sample.exists_store
  have elems : components [slash, 102] = [[102]] := by decide
  obtain ⟨-, walks, -⟩ := path_resolution Mkfs.sb ⟨s, Sample.table⟩ Sample.cwd [slash, 102] [] (Sample.quiet shown)
    Sample.used_cwd
  dsimp only at walks
  rw [elems, shown] at walks
  obtain ⟨r, k', ran, -, value, -⟩ := (walks.allow (by
    rintro e (⟨-, full⟩ | ⟨-, dangling⟩)
    · exact Sample.not_crowded full
    · exact Sample.not_dangling _ dangling)).exists_run
  rw [show origin ⟨s, Sample.table⟩ Sample.cwd [slash, 102] = 1 from rfl,
    Sample.resolve_root Sample.lookup_file] at value
  obtain ⟨p, rfl, inum⟩ := Option.map_eq_some_iff.mp value
  exact ⟨s, p, k', ran, inum⟩

end Kern

end Xv6.Fs
