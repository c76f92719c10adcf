import Xv6.Proofs.Fs.Sysfile

/-! # Links

What `sys_link` does from a state between calls: it refuses and leaves the tree as it was, with the count of
links that it had raised lowered again, or it adds one entry for a file.
-/

namespace Xv6.Fs

open Machine Image Op
open Itable (ninode)

namespace Image

variable {im : Image} {i : ℕ} {nlink : Int16}

theorem resolve_relinked (names : List (List UInt8)) (j : ℕ) :
    (im.relinked i nlink).resolve names j = im.resolve names j := by
  induction names generalizing j with
  | nil => rfl
  | cons name rest ih => simp only [resolve, (fields_relinked _).1, directory_relinked, ih]

theorem parent_relinked (names : List (List UInt8)) (j : ℕ) :
    (im.relinked i nlink).parent names j = im.parent names j := by
  simp only [parent, resolve_relinked, (fields_relinked _).1]

theorem dangling_relinked {names : List (List UInt8)} {j : ℕ} (dangling : (im.relinked i nlink).Dangling names j) :
    im.Dangling names j := by
  obtain ⟨front, name, back, d, split, walked, free⟩ := dangling
  rw [resolve_relinked] at walked
  rw [(fields_relinked d).1] at free
  exact ⟨front, name, back, d, split, walked, free⟩

end Image

namespace Kern

variable {sb : Superblock} {base : Fin ninode → Incore} {own : Multiset (Fin ninode)} {h : Finset (Fin ninode)}
  {k k' : Kernel}
  {p q cwd ip : Fin ninode} {im im' : Image} {i d j : ℕ} {name : List UInt8}

theorem Anchored.congr (anchored : Anchored base im) (fewer : ∀ i, Orphan im' i → Orphan im i) : Anchored base im' :=
  fun i orphan => anchored i (fewer i orphan)

theorem orphan_of_alike (alike : Alike im im' i) (orphan : Orphan im' i) : Orphan im i := by
  have live := alike.live.mp orphan.1
  exact ⟨live, (alike.nlink live).symm.trans orphan.2⟩

theorem orphan_of_added {de : Dirent} (added : Added sb im im' d j de) (orphan : Orphan im' i) : Orphan im i := by
  by_cases here : i = d
  · subst here
    rw [Orphan, added.kept] at orphan
    exact orphan
  · exact orphan_of_alike (added.elsewhere.alike here) orphan

/-- The tree and the references are as they were. -/
structure Unmoved (sb : Superblock) (k k' : Kernel) : Prop where
  tidy : Tidy sb (sb.image k'.store.disk)
  tree : SameTree (sb.image k.store.disk) (sb.image k'.store.disk)
  owns : Owns sb k.table 0 ∅ k'

theorem Unmoved.of_store (quiet : Quiet sb k) (store : k'.store = k.store) (owns : Owns sb k.table 0 ∅ k') :
    Unmoved sb k k' := by
  refine ⟨?_, ?_, owns⟩
  · rw [store]
    exact quiet.tidy
  · rw [store]
    exact .refl _

theorem Unmoved.quiet (unmoved : Unmoved sb k k') (quiet : Quiet sb k) : Quiet sb k' := by
  have used {p : Fin ninode} : 0 < (k'.table p).ref ↔ 0 < (k.table p).ref := by
    rw [unmoved.owns.ref, Multiset.count_zero, Nat.add_zero]
  refine ⟨unmoved.tidy, unmoved.owns.idle, fun p now => ?_, fun i orphan => ?_⟩
  · rw [(unmoved.tree _).live, unmoved.owns.inum p (used.mp now)]
    exact quiet.live p (used.mp now)
  · obtain ⟨p, before, here⟩ := quiet.anchored i (orphan_of_alike (unmoved.tree i) orphan)
    exact ⟨p, used.mpr before, (unmoved.owns.inum p before).trans here⟩

/-- All entries of the table are in use, but two perhaps. -/
def Packed (base : Fin ninode → Incore) : Prop := ∃ x y, ∀ q, q ≠ x → q ≠ y → 0 < (base q).ref

theorem packed_of_crowded (crowded : Crowded base) : Packed base := by
  obtain ⟨x, used⟩ := crowded
  exact ⟨x, x, fun q other _ => used q other⟩

theorem packed_of_owns (owns : Owns sb base {p} h k) (crowded : Crowded k.table) : Packed base := by
  obtain ⟨x, used⟩ := crowded
  refine ⟨x, p, fun q other apart => ?_⟩
  have now := used q other
  rw [owns.ref, Multiset.count_singleton, if_neg apart] at now
  exact now

theorem unlinkAgain_ensures (owns : Owns sb base {ip} ∅ k) (tidy : Tidy sb (sb.image k.store.disk))
    (anchored : Anchored base im)
    (live : (im.inode (k.table ip).inum).type ≠ 0)
    (same : SameTree (im.relinked (k.table ip).inum ((im.inode (k.table ip).inum).nlink + 1)) (sb.image k.store.disk)) :
    Ensures (unlinkAgain sb ip) k (fun r k' => r = -1 ∧ Tidy sb (sb.image k'.store.disk) ∧
      SameTree im (sb.image k'.store.disk) ∧ Owns sb base 0 ∅ k') fun _ => False := by
  have mine : ip ∈ ({ip} : Multiset (Fin ninode)) := Multiset.mem_singleton_self ip
  have held : ip ∈ insert ip (∅ : Finset (Fin ninode)) := Finset.mem_insert_self ..
  have raised :
      ((im.relinked (k.table ip).inum ((im.inode (k.table ip).inum).nlink + 1)).inode (k.table ip).inum).type ≠ 0 := by
    rw [(fields_relinked _).1]
    exact live
  have now : ((sb.image k.store.disk).inode (k.table ip).inum).type ≠ 0 := (same _).live.mpr raised
  refine ((ilock_ensures owns (owns.pos_of_mem mine) (Finset.notMem_empty ip)).allow ?_).bind ?_
  · rintro e ⟨-, free⟩
    exact now free
  rintro - k₁ ⟨store₁, owns₁, inum₁, -, -⟩
  have din := din_of_held owns₁ held
  rw [store₁, inum₁] at din
  have nlink : ((sb.image k.store.disk).inode (k.table ip).inum).nlink - 1 = (im.inode (k.table ip).inum).nlink := by
    rw [(same _).nlink raised, relinked_inode_self]
    exact Int16.add_sub_cancel _ _
  refine (amend_ensures owns₁ held (by rw [din]; exact now)).bind ?_
  rintro - k₂ ⟨image₂, owns₂, -, -⟩
  rw [store₁, inum₁, din, nlink] at image₂
  have back : SameTree im (sb.image k₂.store.disk) := by
    rw [image₂]
    exact same.rollback live
  have tidy₂ : Tidy sb (sb.image k₂.store.disk) := by
    rw [image₂]
    exact tidy.relinked
  refine (iunlockput_first owns₂ (anchored.congr fun i => orphan_of_alike (back i))).bind ?_
  rintro - k₃ ⟨store₃, owns₃, -⟩
  rw [← store₃] at tidy₂ back
  exact .pure ⟨rfl, tidy₂, back, owns₃⟩

/-- The directory and the name that a path is for. -/
structure Names (im : Image) (path : List UInt8) (start d : ℕ) (name : List UInt8) : Prop where
  parent : im.parent (components path) start = some d
  last : (components path).getLast? = some name

/-- A file gets one more link: an entry in a directory that did not have the name. -/
structure NewLink (sb : Superblock) (im im' : Image) (i d j : ℕ) (name : List UInt8) : Prop where
  live : (im.inode i).type ≠ 0
  file : (im.inode i).type ≠ tDir
  known : i < sb.ninodes
  dir : (im.inode d).type = tDir
  absent : (im.directory d).lookup (key name) = none
  vacant : Vacant im d j
  added : Added sb (im.relinked i ((im.inode i).nlink + 1)) im' d j ⟨UInt16.ofNat (UInt32.ofNat i).toNat, key name⟩

theorem NewLink.nlink (newLink : NewLink sb im im' i d j name) : (im'.inode i).nlink = (im.inode i).nlink + 1 := by
  have other : i ≠ d := by
    rintro rfl
    exact newLink.file newLink.dir
  rw [newLink.added.elsewhere.inode i other, relinked_inode_self]

theorem vacant_relinked {nlink : Int16} (vacant : Vacant (im.relinked i nlink) d j) : Vacant im d j := by
  refine ⟨by rw [← entries_relinked]; exact vacant.reach, fun e low => ?_, fun inside => ?_⟩
  · rw [← entry_relinked]
    exact vacant.first e low
  · rw [← entries_relinked] at inside
    rw [← entry_relinked]
    exact vacant.free inside

/-- Nothing speaks against a new entry in a directory. -/
structure Room (im : Image) (path : List UInt8) (start d : ℕ) (name : List UInt8) :
    Prop extends Names im path start d name where
  absent : (im.directory d).lookup (key name) = none
  free : ∃ j < im.entries d, (im.entry d j).inum = 0

theorem Names.unique {path name' : List UInt8} {start d' : ℕ} (names : Names im path start d name)
    (names' : Names im path start d' name') : d' = d ∧ name' = name := by
  have first := names.parent.symm.trans names'.parent
  have second := names.last.symm.trans names'.last
  exact ⟨(Option.some.inj first).symm, (Option.some.inj second).symm⟩

/-- `nameiparent`, with a directory where it finds one. -/
theorem nameiparent_ensures (tidy : Tidy sb (sb.image k.store.disk)) (idle : Idle sb k)
    (anchored : Anchored k.table (sb.image k.store.disk)) (here : 0 < (k.table cwd).ref) (path name : List UInt8) :
    Ensures (nameiparent sb cwd path name) k (fun r k' => k'.store = k.store ∧
      (r.1 = none ∧ (∀ d last, ¬ Names (sb.image k.store.disk) path (origin k cwd path) d last) ∧
      Owns sb k.table 0 ∅ k' ∨
        ∃ dp, r.1 = some dp ∧ Names (sb.image k.store.disk) path (origin k cwd path) (k'.table dp).inum (cstring r.2) ∧
          ((sb.image k.store.disk).inode (k'.table dp).inum).type = tDir ∧ Owns sb k.table {dp} ∅ k'))
      (Lost k.table (sb.image k.store.disk) (components path) (origin k cwd path)) := by
  refine (namex_ensures tidy idle anchored here path name true).mono ?_
  rintro r k₁ ⟨store, walked⟩
  refine ⟨store, ?_⟩
  cases walked with
  | missing _ _ absent owns =>
    refine .inl ⟨rfl, fun d last names => ?_, owns⟩
    have := names.parent.symm.trans absent
    cases this
  | reached dp _ _ there last owns => exact .inr ⟨dp, rfl, ⟨there, (last rfl).1⟩, (last rfl).2, owns⟩

theorem ilock_found {dp : Fin ninode} (owns : Owns sb base {dp} ∅ k)
    (dir : ((sb.image k.store.disk).inode (k.table dp).inum).type = tDir) :
    Ensures (ilock sb dp) k (fun _ k' => k'.store = k.store ∧ Owns sb base {dp} {dp} k' ∧
      (k'.table dp).inum = (k.table dp).inum ∧ (k'.table dp).din.type = tDir) fun _ => False := by
  refine ((ilock_ensures owns (owns.pos_of_mem (Multiset.mem_singleton_self dp)) (Finset.notMem_empty dp)).allow
    ?_).mono ?_
  · rintro e ⟨-, free⟩
    rw [dir] at free
    exact absurd free (by decide)
  · rintro - k₁ ⟨store, owns₁, inum, -, -⟩
    refine ⟨store, owns₁, inum, ?_⟩
    rw [din_of_held owns₁ (Finset.mem_insert_self ..), store, inum]
    exact dir

theorem iunlockput_last {dp : Fin ninode} (owns : Owns sb base {dp} {dp} k)
    (anchored : Anchored base (sb.image k.store.disk)) :
    Ensures (iunlockput sb dp) k (fun _ k' => k'.store = k.store ∧ Owns sb base 0 ∅ k') fun _ => False := by
  refine (iunlockput_first owns anchored).mono ?_
  rintro - k₁ ⟨store, owns₁, -⟩
  exact ⟨store, owns₁⟩

/-- `sys_link` has raised the count of a file that it has a reference to. -/
structure Raised (sb : Superblock) (k k' : Kernel) (ip : Fin ninode) : Prop where
  quiet : Quiet sb k
  owns : Owns sb k.table {ip} ∅ k'
  live : ((sb.image k.store.disk).inode (k'.table ip).inum).type ≠ 0
  file : ((sb.image k.store.disk).inode (k'.table ip).inum).type ≠ tDir
  image : sb.image k'.store.disk = (sb.image k.store.disk).relinked (k'.table ip).inum
    (((sb.image k.store.disk).inode (k'.table ip).inum).nlink + 1)

namespace Raised

section

variable (raised : Raised sb k k' ip)
include raised

theorem used : 0 < (k'.table ip).ref := raised.owns.pos_of_mem (Multiset.mem_singleton_self ip)

theorem tidy : Tidy sb (sb.image k'.store.disk) := by
  rw [raised.image]
  exact raised.quiet.tidy.relinked

theorem anchored : Anchored k'.table (sb.image k'.store.disk) := by
  intro x orphan
  by_cases this : x = (k'.table ip).inum
  · exact ⟨ip, raised.used, this.symm⟩
  · have alike : Alike (sb.image k.store.disk) (sb.image k'.store.disk) x := by
      rw [raised.image]
      exact SameElsewhere.put.alike this
    obtain ⟨q, before, num⟩ := raised.quiet.anchored x (orphan_of_alike alike orphan)
    exact ⟨q, raised.owns.pos_of_base before, (raised.owns.inum q before).trans num⟩

theorem origin_eq (here : 0 < (k.table cwd).ref) (path : List UInt8) :
    origin k' cwd path = origin k cwd path := by
  rw [origin, origin, raised.owns.inum cwd here]

theorem unlinkAgain {k₁ : Kernel} (owns : Owns sb k'.table 0 ∅ k₁)
    (tidy : Tidy sb (sb.image k₁.store.disk)) (tree : SameTree (sb.image k'.store.disk) (sb.image k₁.store.disk)) :
    Ensures (unlinkAgain sb ip) k₁ (fun r k'' => r = -1 ∧ Unmoved sb k k'') fun _ => False := by
  have both := raised.owns.trans owns
  rw [Multiset.zero_add] at both
  have inum : (k₁.table ip).inum = (k'.table ip).inum := owns.inum ip raised.used
  have live := raised.live
  rw [raised.image, ← inum] at tree
  rw [← inum] at live
  refine (unlinkAgain_ensures both tidy raised.quiet.anchored live tree).mono ?_
  rintro r k'' ⟨rfl, tidy', tree', owns'⟩
  exact ⟨rfl, tidy', tree', owns'⟩

/-- The reference to the file is given back; the file has a link, unless the count was the largest. -/
theorem iput {k₁ : Kernel} {im' : Image} (owns : Owns sb k'.table 0 ∅ k₁)
    (image : sb.image k₁.store.disk = im') (consistent : Consistent sb im')
    (newLink : NewLink sb (sb.image k.store.disk) im' (k'.table ip).inum d j name) :
    Ensures (iput sb ip) k₁ (fun _ k'' => ((sb.image k.store.disk).inode (k'.table ip).inum).nlink + 1 ≠ 0 →
      sb.image k''.store.disk = im' ∧ Owns sb k.table 0 ∅ k'') fun _ => False := by
  have both := raised.owns.trans owns
  rw [Multiset.zero_add] at both
  subst image
  refine (iput_either both (Multiset.mem_singleton_self ip) (Finset.notMem_empty ip) consistent).mono ?_
  rintro - k₂ ⟨owns₂, -, outcome⟩ nonzero
  rw [Multiset.erase_singleton] at owns₂
  refine ⟨?_, owns₂⟩
  rcases outcome with ⟨store, -⟩ | ⟨gone, -⟩
  · rw [store]
  · have zero := gone.orphan.2
    rw [owns.inum ip raised.used, newLink.nlink] at zero
    exact absurd zero nonzero

end

end Raised

theorem linkAs_ensures (raised : Raised sb k k' ip) (here : 0 < (k.table cwd).ref) (new : List UInt8) :
    Ensures (linkAs sb cwd ip new) k' (fun r k'' =>
      (r = -1 ∧ Unmoved sb k k'' ∧ ∀ d name, ¬ Room (sb.image k.store.disk) new (origin k cwd new) d name) ∨
      r = 0 ∧ ∃ d j name im', Names (sb.image k.store.disk) new (origin k cwd new) d name ∧
        NewLink sb (sb.image k.store.disk) im' (k'.table ip).inum d j name ∧
        (((sb.image k.store.disk).inode (k'.table ip).inum).nlink + 1 ≠ 0 →
          sb.image k''.store.disk = im' ∧ Owns sb k.table 0 ∅ k''))
      fun e => e = .igetNoInodes ∧ Packed k.table ∨
        e = .fault .ilockNoType ∧ (sb.image k.store.disk).Dangling (components new) (origin k cwd new) := by
  have owns := raised.owns
  have start := raised.origin_eq here new
  refine ((nameiparent_ensures raised.tidy owns.idle raised.anchored (owns.pos_of_base here) new _).allow ?_).bind ?_
  · rintro e (⟨rfl, crowded⟩ | ⟨rfl, dangling⟩)
    · exact .inl ⟨rfl, packed_of_owns owns crowded⟩
    · rw [raised.image, start] at dangling
      exact .inr ⟨rfl, dangling_relinked dangling⟩
  rintro ⟨r, name⟩ k₁ ⟨store₁, outcome⟩
  rw [start] at outcome
  rcases outcome with ⟨absent, missing, owns₁⟩ | ⟨dp, found, names, dir, owns₁⟩
  · obtain rfl : r = none := absent
    refine ((raised.unlinkAgain owns₁ (by rw [store₁]; exact raised.tidy) (by rw [store₁]; exact .refl _)).mono ?_).lift
    rintro r k'' ⟨rfl, unmoved⟩
    refine .inl ⟨rfl, unmoved, fun d name room => missing d name ⟨?_, room.last⟩⟩
    rw [raised.image, parent_relinked]
    exact room.parent
  obtain rfl : r = some dp := found
  dsimp only at names
  have held : dp ∈ ({dp} : Finset (Fin ninode)) := Finset.mem_singleton_self dp
  refine (ilock_found owns₁ (by rwa [store₁])).lift.bind ?_
  rintro - k₂ ⟨store₂, owns₂, inum₂, type₂⟩
  have store : k₂.store = k'.store := store₂.trans store₁
  have num : (k₂.table ip).inum = (k'.table ip).inum := owns₂.inum ip raised.used
  refine entry_bind ?_
  refine ((dirlink_ensures owns₂ held (by rw [store]; exact raised.tidy) type₂
    (by rw [store]; exact raised.anchored) name _).allow ?_).bind ?_
  · rintro e ⟨rfl, full⟩
    exact .inl ⟨rfl, packed_of_owns owns (crowded_of_full owns₂ full)⟩
  rintro r k₃ ⟨owns₃, -, entering⟩
  rw [store, inum₂, num] at entering
  rw [raised.image, (fields_relinked _).1] at dir
  replace names : Names (sb.image k.store.disk) new (origin k cwd new) (k₁.table dp).inum (cstring name) :=
    ⟨by rw [← names.parent, raised.image, parent_relinked], names.last⟩
  generalize image₃ : sb.image k₃.store.disk = im₃ at entering
  cases entering with
  | refused tidy₃ tree full =>
    rw [if_pos (by decide)]
    rw [← image₃] at tidy₃ tree
    refine (iunlockput_last owns₃ (raised.anchored.congr fun x => orphan_of_alike (tree x))).lift.bind ?_
    rintro - k₄ ⟨store₄, owns₄⟩
    rw [← store₄] at tidy₃ tree
    refine ((raised.unlinkAgain owns₄ tidy₃ tree).mono ?_).lift
    rintro r k'' ⟨rfl, unmoved⟩
    refine .inl ⟨rfl, unmoved, fun d name' room => ?_⟩
    obtain ⟨rfl, rfl⟩ := names.unique room.toNames
    obtain ⟨e, inside, zero⟩ := room.free
    rw [raised.image, directory_relinked, entries_relinked, ← key_cstring] at full
    refine full room.absent e inside ?_
    rw [entry_relinked]
    exact zero
  | added j absent vacant added =>
    rw [if_neg (by decide)]
    refine (iunlockput_last owns₃ (raised.anchored.congr fun x => ?_)).lift.bind ?_
    · rw [image₃]
      exact orphan_of_added added
    rintro - k₄ ⟨store₄, owns₄⟩
    have consistent := added.consistent
    have newLink : NewLink sb (sb.image k.store.disk) im₃ (k'.table ip).inum (k₁.table dp).inum j (cstring name) := by
      rw [raised.image] at added vacant absent
      rw [← key_cstring] at absent added
      rw [directory_relinked] at absent
      exact ⟨raised.live, raised.file, owns.known ip raised.used, dir, absent, vacant_relinked vacant, added⟩
    refine (raised.iput owns₄ (by rw [store₄, image₃]) consistent newLink).lift.bind ?_
    rintro - k₅ done
    exact .pure (.inr ⟨rfl, _, j, cstring name, im₃, names, newLink, done⟩)

theorem namei_ensures (quiet : Quiet sb k) (here : 0 < (k.table cwd).ref) (path : List UInt8) :
    Ensures (namei sb cwd path) k (fun r k' => k'.store = k.store ∧
      (r = none ∧ (sb.image k.store.disk).resolve (components path) (origin k cwd path) = none ∧
      Owns sb k.table 0 ∅ k' ∨ ∃ p, r = some p ∧ (sb.image k.store.disk).resolve (components path) (origin k cwd path) =
        some (k'.table p).inum ∧
          Owns sb k.table {p} ∅ k'))
      (Lost k.table (sb.image k.store.disk) (components path) (origin k cwd path)) := by
  refine (namex_ensures quiet.tidy quiet.idle quiet.anchored here path _ false).bind ?_
  rintro r k₁ ⟨store, walked⟩
  cases walked with
  | missing _ _ absent owns => exact .pure ⟨store, .inl ⟨rfl, absent, owns⟩⟩
  | reached p _ _ there _ owns => exact .pure ⟨store, .inr ⟨p, rfl, there, owns⟩⟩

/-- How `sys_link` ends. -/
inductive Linking (sb : Superblock) (k : Kernel) (cwd : Fin ninode) (old new : Option (List UInt8)) :
    ℤ → Kernel → Prop where
  | refused (k' : Kernel) : Unmoved sb k k' →
      (∀ o n, old = some o → new = some n → ∀ i,
      (sb.image k.store.disk).resolve (components o) (origin k cwd o) = some i →
        ((sb.image k.store.disk).inode i).type = tDir ∨
          ∀ d name, ¬ Room (sb.image k.store.disk) n (origin k cwd n) d name) →
      Linking sb k cwd old new (-1) k'
  | linked (k' : Kernel) (o n : List UInt8) (i d j : ℕ) (name : List UInt8) (im' : Image) :
    old = some o → new = some n →
      (sb.image k.store.disk).resolve (components o) (origin k cwd o) = some i →
      Names (sb.image k.store.disk) n (origin k cwd n) d name → NewLink sb (sb.image k.store.disk) im' i d j name →
      (((sb.image k.store.disk).inode i).nlink + 1 ≠ 0 → sb.image k'.store.disk = im' ∧ Owns sb k.table 0 ∅ k') →
      Linking sb k cwd old new 0 k'

/-- A path on which a walk meets an inode that is not allocated. -/
def Broken (im : Image) (path : List UInt8) (start : ℕ) : Prop :=
  im.Dangling (components path) start ∨ ∃ i, im.resolve (components path) start = some i ∧ (im.inode i).type = 0

/-- How `sys_link` stops the kernel. -/
def LinkStop (sb : Superblock) (k : Kernel) (cwd : Fin ninode) (old new : Option (List UInt8)) (e : Stop) : Prop :=
  e = .igetNoInodes ∧ Packed k.table ∨ e = .fault .ilockNoType ∧ ∃ path, (old = some path ∨ new = some path) ∧
    Broken (sb.image k.store.disk) path (origin k cwd path)

theorem sysLink_ensures (quiet : Quiet sb k) (here : 0 < (k.table cwd).ref) (old new : Option (List UInt8)) :
    Ensures (sysLink sb cwd old new) k (Linking sb k cwd old new) (LinkStop sb k cwd old new) := by
  have unfetched (missing : ∀ o n, old = some o → new = some n → False) : Linking sb k cwd old new (-1) k :=
    .refused k (.of_store quiet rfl quiet.idle) fun o n first second => (missing o n first second).elim
  cases old with
  | none => exact .pure (unfetched fun o n first _ => by cases first)
  | some o =>
    cases new with
    | none => exact .pure (unfetched fun o n _ second => by cases second)
    | some n =>
      refine ((namei_ensures quiet here o).allow ?_).bind ?_
      · rintro e (⟨rfl, crowded⟩ | ⟨rfl, dangling⟩)
        · exact .inl ⟨rfl, packed_of_crowded crowded⟩
        · exact .inr ⟨rfl, o, .inl rfl, .inl dangling⟩
      rintro r k₁ ⟨store₁, ⟨rfl, absent, owns₁⟩ | ⟨ip, rfl, found, owns₁⟩⟩
      · refine .pure (.refused k₁ (.of_store quiet store₁ owns₁) ?_)
        rintro _ _ ⟨⟩ ⟨⟩ i there
        rw [absent] at there
        cases there
      have mine : ip ∈ ({ip} : Multiset (Fin ninode)) := Multiset.mem_singleton_self ip
      have held : ip ∈ insert ip (∅ : Finset (Fin ninode)) := Finset.mem_insert_self ..
      refine ((ilock_ensures owns₁ (owns₁.pos_of_mem mine) (Finset.notMem_empty ip)).allow ?_).bind ?_
      · rintro e ⟨rfl, free⟩
        rw [store₁] at free
        exact .inr ⟨rfl, o, .inl rfl, .inr ⟨_, found, free⟩⟩
      rintro - k₂ ⟨store₂, owns₂, inum₂, -, -⟩
      have store : k₂.store = k.store := store₂.trans store₁
      have din := din_of_held owns₂ held
      rw [store] at din
      rw [← inum₂] at found
      have anchored : Anchored k.table (sb.image k₂.store.disk) := by
        rw [store]
        exact quiet.anchored
      refine entry_bind (.ite (fun dir => ?_) fun file => ?_)
      · refine (iunlockput_first owns₂ anchored).lift.bind ?_
        rintro - k₃ ⟨store₃, owns₃, -⟩
        refine .pure (.refused k₃ (.of_store quiet (store₃.trans store) owns₃) ?_)
        rintro _ _ ⟨⟩ ⟨⟩ i there
        obtain rfl := Option.some.inj (found.symm.trans there)
        rw [← din]
        exact .inl dir
      · have live := (owns₂.loaded held).live
        refine ((amend_ensures owns₂ held live).lift).bind ?_
        rintro - k₃ ⟨image₃, owns₃, self₃, -⟩
        refine (iunlock_ensures owns₃ held).lift.bind ?_
        rintro - k₄ ⟨store₄, owns₄, self₄, -⟩
        rw [Finset.erase_insert (Finset.notMem_empty ip)] at owns₄
        have inum₄ : (k₄.table ip).inum = (k₂.table ip).inum := by rw [self₄, self₃]
        have live₀ : ((sb.image k.store.disk).inode (k₂.table ip).inum).type ≠ 0 := by
          rw [← din]
          exact live
        rw [din] at file
        rw [store, din, ← store₄] at image₃
        rw [← inum₄] at found live₀ file image₃
        refine ((linkAs_ensures ⟨quiet, owns₄, live₀, file, image₃⟩ here n).allow ?_).mono ?_
        · rintro e (full | ⟨rfl, dangling⟩)
          · exact .inl full
          · exact .inr ⟨rfl, n, .inr rfl, .inl dangling⟩
        · rintro r k₅ (⟨rfl, unmoved, full⟩ | ⟨rfl, d, j, name, im', names, newLink, done⟩)
          · refine .refused k₅ unmoved ?_
            rintro _ _ ⟨⟩ ⟨⟩ - -
            exact .inr full
          · exact .linked k₅ o n _ d j name im' rfl rfl found names newLink done

end Kern

end Xv6.Fs
