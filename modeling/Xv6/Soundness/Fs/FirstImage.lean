import Xv6.Proofs.Fs.MkfsRun
import Xv6.Soundness.Fs.BlockOwnership

/-! # The first image and the kernel

`mkfs` and the kernel are two implementations of one format. What `mkfs` ends with is what the kernel
expects, but for two counters: the number of an inode is not checked, and the size of the root directory is
rounded up by a whole block where it already is a multiple of one. The files are found and read by the
kernel in any case, because a lookup stops at the entry it is looking for.
-/

namespace Xv6.Fs.Mkfs

open Machine Image List

variable {α β : Type} {st : State} {files : List HostFile}

section Counter

/-- A program that allocates `n` inodes, if it ends. -/
def Allocates (n : ℕ) (m : Make α) : Prop :=
  ∀ st, Ensures m st (fun _ st' => st'.freeinode = st.freeinode + n) fun _ => True

theorem Allocates.pure (a : α) : Allocates 0 (pure a : Make α) := fun _ => .pure rfl

variable {n : ℕ} {m : Make α} {f : α → Make β}

theorem Allocates.throw (e : Exit) : Allocates n (throwThe Exit e : Make α) := fun _ => .throw trivial

theorem Allocates.bind {k : ℕ} (first : Allocates k m) (rest : ∀ a, Allocates n (f a)) :
    Allocates (k + n) (m >>= f) := fun st => by
  refine (first st).bind fun a st₁ counted => (rest a st₁).mono fun _ st₂ counted' => ?_
  rw [counted', counted, Nat.add_assoc]

theorem Allocates.after (first : Allocates 0 m) (rest : ∀ a, Allocates n (f a)) :
    Allocates n (m >>= f) := by
  have both := first.bind rest
  rwa [Nat.zero_add] at both

theorem Allocates.ite {c : Prop} [Decidable c] {m₁ m₂ : Make α} (pos : Allocates n m₁) (neg : Allocates n m₂) :
    Allocates n (if c then m₁ else m₂) := fun st => .ite (fun _ => pos st) fun _ => neg st

theorem allocates_wsect (sec : ℕ) (buf : Block) : Allocates 0 (wsect sec buf) := fun _ => .modify rfl

theorem allocates_rsect (sec : ℕ) : Allocates 0 (rsect sec) := fun _ =>
  .get_bind (.ite (fun _ => .throw trivial) fun _ => .pure rfl)

theorem allocates_nextBlock : Allocates 0 nextBlock := fun _ => .get_bind (.modify_bind (.pure rfl))

theorem allocates_winode (inum : ℕ) (din : Dinode) : Allocates 0 (winode inum din) :=
  (allocates_rsect _).after fun _ => allocates_wsect _ _

theorem allocates_rinode (inum : ℕ) : Allocates 0 (rinode inum) := (allocates_rsect _).after fun _ => .pure _

theorem allocates_fillAddr (din : Dinode) (k : ℕ) : Allocates 0 (fillAddr din k) :=
  .ite (allocates_nextBlock.after fun _ => (allocates_rsect _).after fun _ => .pure _)
    ((allocates_rsect _).after fun _ => .pure _)

theorem allocates_fillEntry (a : ℕ) (indirect : Block) (j : ℕ) : Allocates 0 (fillEntry a indirect j) :=
  .ite (allocates_nextBlock.after fun _ => (allocates_wsect _ _).after fun _ =>
    (allocates_rsect _).after fun _ => .pure _)
    ((allocates_rsect _).after fun _ => .pure _)

theorem allocates_fetch (din : Dinode) (fbn : ℕ) : Allocates 0 (fetch din fbn) :=
  .ite ((allocates_fillAddr _ _).after fun _ => .pure _)
    ((allocates_fillAddr _ _).after fun _ => (allocates_fillEntry _ _ _).after fun _ => .pure _)

theorem allocates_iappendLoop (fuel : ℕ) (din : Dinode) (off : ℕ) (p : List UInt8) :
    Allocates 0 (iappendLoop fuel din off p) := by
  induction fuel generalizing din off p with
  | zero => exact .pure _
  | succ fuel ih =>
    refine .ite (.pure _) (.ite (.throw _) ((allocates_fetch _ _).after fun _ => ?_))
    exact (allocates_wsect _ _).after fun _ => ih _ _ _

theorem allocates_iappend (inum : ℕ) (p : List UInt8) : Allocates 0 (iappend inum p) :=
  (allocates_rinode _).after fun _ => (allocates_iappendLoop _ _ _ _).after fun _ => allocates_winode _ _

theorem allocates_ialloc (type : Int16) : Allocates 1 (ialloc type) := fun st => by
  unfold ialloc
  refine .get_bind (.modify_bind ?_)
  exact (allocates_winode _ _ _).bind fun _ st' counted => .pure counted

theorem Allocates.forM {ι : Type} {body : ι → Make PUnit} (each : ∀ x, Allocates n (body x)) (items : List ι) :
    Allocates (n * items.length) (items.forM body) := by
  simp only [forM_eq_forM]
  induction items with
  | nil => exact .pure _
  | cons x rest ih =>
    rw [forM_cons, length_cons, Nat.mul_succ, Nat.add_comm]
    exact (each x).bind fun _ => ih

theorem allocates_addFile (root : ℕ) (file : HostFile) : Allocates 1 (addFile root file) := by
  refine .ite (.throw _) ?_
  cases file.chunks with
  | none => exact .throw _
  | some chunks =>
    refine .ite (.throw _) (.bind (k := 1) (n := 0) (allocates_ialloc _) fun inum =>
      (allocates_iappend _ _).after fun _ => ?_)
    have all := Allocates.forM (fun chunk : Chunk => allocates_iappend inum chunk.val) chunks
    rwa [Nat.zero_mul] at all

theorem allocates_blank (n : ℕ) : Allocates 0 (blank n) := by
  have all := Allocates.forM (fun i => allocates_wsect i zeroes) (range n)
  rw [Nat.zero_mul] at all
  unfold blank
  exact all

theorem allocates_main (files : List HostFile) : Allocates (1 + files.length) (main files) := by
  refine (allocates_blank _).after fun _ => (allocates_wsect _ _).after fun _ =>
    (allocates_ialloc _).bind fun root => ?_
  refine .ite (.throw _) ((allocates_iappend _ _).after fun _ => (allocates_iappend _ _).after fun _ => ?_)
  have all := (Allocates.forM (allocates_addFile root) files).bind
    (f := fun _ => do fixSize root; balloc (← get).freeblock) (n := 0) fun _ => ?_
  · rwa [Nat.one_mul] at all
  · refine Allocates.after ((allocates_rinode _).after fun _ => allocates_winode _ _) fun _ st => .get_bind ?_
    exact Allocates.ite (.throw _) (allocates_wsect _ _) st

end Counter

section Usable

/-- What the kernel relies on. -/
structure Usable (st : State) : Prop where
  /-- The block numbers in inodes and indirect blocks are on the disk and marked in the bitmap. -/
  blocks : ∀ i k b, (sb.image st.disk).held (i, k) = some b → b < sb.size ∧ (sb.image st.disk).bit b = true
  /-- The inodes that have been allocated are within the table. -/
  inodes : ∀ i < st.freeinode, i < sb.ninodes
  apart : ∀ i < st.freeinode, sb.iblock i < sb.bmapstart
  /-- No block below the size of a file is missing. -/
  mapped : ∀ i bn, ((sb.image st.disk).inode i).type ≠ 0 → bn * bsize < ((sb.image st.disk).inode i).size.toNat →
    (sb.image st.disk).held (i, dataSlot bn) ≠ none

theorem run_of_mkfs (ran : mkfs files = .ok st) : ∃ u, (main files).run start = .ok (u, st) := by
  unfold mkfs at ran
  cases outcome : (main files).run start with
  | error e =>
    rw [outcome] at ran
    cases ran
  | ok result =>
    rw [outcome] at ran
    cases ran
    exact ⟨result.1, rfl⟩

theorem made_of_mkfs (ran : mkfs files = .ok st) (few : files.length ≤ ninodes - 2) : Made st files := by
  obtain ⟨u, ran⟩ := run_of_mkfs ran
  have room : files.length + 1 < ninodes := by
    have : ninodes = 200 := rfl
    omega
  have whole : Ensures (main files) start (fun _ st => Made st files) fun _ => True :=
    main_ensures room (fun _ _ _ _ => trivial) fun _ => trivial
  exact whole.of_run ran

theorem freeinode_of_mkfs (ran : mkfs files = .ok st) : st.freeinode = files.length + 2 := by
  obtain ⟨u, ran⟩ := run_of_mkfs ran
  have counted := (allocates_main files start).of_run ran
  have first : start.freeinode = 1 := rfl
  omega

/-- The files that are not too large are mapped; the root directory is where its rounded size is in the last block. -/
theorem Made.usable_iff (made : Made st files) (few : files.length ≤ ninodes - 2) :
    Usable st ↔ (files.length + 2) % 64 ≠ 0 := by
  have count : ninodes = 200 := rfl
  have table : sb.ninodes = 200 := rfl
  have root := made.rootExact
  have size := made.rootSize
  rw [length_rootBytes] at root
  simp only [Mkfs.rootSize, direntSize, dirsiz, bsize] at root size
  constructor
  · intro usable full
    have missing := usable.mapped rootino ((files.length + 2) / 64) (by rw [made.rootType]; decide)
    rw [size, Ne, root.data] at missing
    simp only [bsize] at missing
    omega
  · intro whole
    refine ⟨fun i k b present => ⟨(made.sound.in_data present).2, made.sound.bit_of_held present⟩, fun i small => ?_,
      fun i small => sb.iblock_lt ?_, fun i bn live below => ?_⟩
    · have := made.freeinode
      omega
    · have := made.freeinode
      omega
    by_cases first : i = rootino
    · subst first
      rw [size] at below
      rw [Ne, root.data]
      simp only [bsize] at below ⊢
      omega
    · have used : i ≠ 0 ∧ i ≤ files.length + 1 := by
        by_contra unused
        exact live (made.free i (by omega))
      have second : 2 ≤ i := by
        simp only [rootino] at first
        omega
      obtain ⟨k, rfl⟩ := Nat.exists_eq_add_of_le' second
      have holds := made.holds k (files.get ⟨k, by omega⟩) (by simp)
      rw [holds.size] at below
      rw [Ne, holds.exact.data]
      omega

/-- An image that `mkfs` has ended with is usable where the number of files keeps within the table of inodes and does
not fill the last block of the root directory. -/
theorem mkfs_usable_iff (files : List HostFile) (st : State) (ran : mkfs files = .ok st) :
    Usable st ↔ files.length ≤ ninodes - 2 ∧ (files.length + 2) % 64 ≠ 0 := by
  by_cases few : files.length ≤ ninodes - 2
  · simp only [few, true_and]
    exact (made_of_mkfs ran few).usable_iff few
  · refine ⟨fun usable => absurd ?_ few, fun both => absurd both.1 few⟩
    have count : ninodes = 200 := rfl
    have allocated := freeinode_of_mkfs ran
    have last := usable.inodes (files.length + 1) (by omega)
    have table : sb.ninodes = 200 := rfl
    omega

/-- With room for all of them, `mkfs` ends. -/
theorem exists_mkfs (few : files.length ≤ ninodes - 2) (acceptable : ∀ file ∈ files, Acceptable file)
    (room : nmeta + blocks (inodes files) ≤ fssize) : ∃ st, mkfs files = .ok st ∧ Made st files := by
  have known : files.length + 1 < ninodes := by
    have : ninodes = 200 := rfl
    omega
  have whole : Ensures (main files) start (fun _ st => Made st files) fun _ => False :=
    main_ensures known (fun file listed bad => absurd (acceptable file listed) bad) fun full =>
      absurd room (Nat.not_le.mpr full)
  obtain ⟨u, st, ran, made⟩ := whole.exists_run
  exact ⟨st, by rw [mkfs, ran]; rfl, made⟩

/-- Two files, one of them in the directory `user`, read in pieces. -/
def twoFiles : List HostFile :=
  [⟨[117, 115, 101, 114, 47, 95, 108, 115], by decide, some [⟨[1, 2, 3], by decide⟩, ⟨[4, 5], by decide⟩]⟩,
    ⟨[82, 69, 65, 68, 77, 69], by decide, some []⟩]

theorem few_twoFiles : twoFiles.length ≤ ninodes - 2 := by decide

theorem acceptable_twoFiles : ∀ file ∈ twoFiles, Acceptable file := by
  intro file listed
  rcases List.mem_pair.mp listed with rfl | rfl <;> exact ⟨rfl, by decide, by decide, by decide⟩

theorem mkfs_usable_twoFiles : ∃ st, mkfs twoFiles = .ok st ∧ Usable st := by
  obtain ⟨st, ran, -⟩ := exists_mkfs few_twoFiles acceptable_twoFiles (by decide)
  exact ⟨st, ran, (mkfs_usable_iff twoFiles st ran).mpr (by decide)⟩

theorem Made.kept (made : Made st files) (few : files.length ≤ ninodes - 2) (whole : (files.length + 2) % 64 ≠ 0) :
    FileSystem.Kept sb ⟨⟨st.disk, []⟩, fun _ => none⟩ := by
  have usable := (made.usable_iff few).mpr whole
  refine ⟨⟨made.sound, fun i bn live below zero => ?_⟩, fun _ _ found => by cases found⟩
  exact usable.mapped i bn live below (held_eq_none.mpr zero)

/-- The kernel keeps a usable image consistent, whatever it is asked to do. -/
theorem mkfs_consistent (st : State) (ran : mkfs files = .ok st) (few : files.length ≤ ninodes - 2)
    (whole : (files.length + 2) % 64 ≠ 0) (calls : List (FileSystem.Call sb)) :
    let result := (FileSystem.run calls).run ⟨⟨st.disk, []⟩, fun _ => none⟩
    (∀ fs, result = .ok ((), fs) → Consistent sb (sb.image fs.store.disk)) ∧ result ≠ .error .freeingFreeBlock := by
  have start := (made_of_mkfs ran few).kept few whole
  have runs := Ensures.forM_list (FileSystem.Kept sb) start (fun call _ kept => FileSystem.step_spec kept call) calls
  exact ⟨fun fs done => (runs.of_run done).consistent, fun failed => (runs.of_error failed).1 rfl⟩

/-- The first file is written to, and its block is freed. -/
def rewrite : List (FileSystem.Call sb) := [.writei ⟨2, by decide⟩ (fun _ => some 7) 0 5, .itrunc ⟨2, by decide⟩]

theorem mkfs_consistent_twoFiles : ∃ st fs, mkfs twoFiles = .ok st ∧ (sb.image st.disk).held (2, dataSlot 0) ≠ none ∧
    (FileSystem.run rewrite).run ⟨⟨st.disk, []⟩, fun _ => none⟩ = .ok ((), fs) ∧
    Consistent sb (sb.image fs.store.disk) := by
  obtain ⟨st, ran, made⟩ := exists_mkfs few_twoFiles acceptable_twoFiles (by decide)
  have first := made.holds 0 _ rfl
  have live : FileSystem.Live sb ⟨⟨st.disk, []⟩, fun _ => none⟩ 2 := by
    rw [FileSystem.Live, first.type]
    decide
  obtain ⟨_, fs, done, -⟩ :=
    (FileSystem.run_accesses (i := ⟨2, by decide⟩) (made.kept few_twoFiles (by decide)) live rewrite
    (by simp [rewrite, FileSystem.Accesses])).exists_run
  refine ⟨st, fs, ran, ?_, done, (mkfs_consistent st ran few_twoFiles (by decide) rewrite).1 fs done⟩
  rw [Ne, first.exact.data]
  decide

/-- An empty file `fNN`. -/
def emptyFile (k : Fin 62) : HostFile where
  path := [102, 48 + UInt8.ofNat (k / 10), 48 + UInt8.ofNat (k % 10)]
  string := by revert k; decide
  chunks := some []

theorem acceptable_emptyFile (k : Fin 62) : Acceptable (emptyFile k) where
  opens := rfl
  slash := by revert k; decide
  name := by revert k; decide
  size := Nat.zero_le _

theorem blocks_emptyFiles : blocks (inodes ((finRange 62).map emptyFile)) = 1 := by
  have none : ((finRange 62).map emptyFile).map contents = replicate 62 [] := by
    rw [map_map, eq_replicate_iff]
    refine ⟨by simp, fun content listed => ?_⟩
    obtain ⟨k, -, rfl⟩ := mem_map.mp listed
    rfl
  rw [inodes, blocks_cons, length_rootBytes, none, length_map, length_finRange]
  decide

/-- The entries of `62` files and of the directory itself fill one block, and its size is two. -/
theorem mkfs_not_usable : ∃ st, mkfs ((List.finRange 62).map emptyFile) = .ok st ∧ ¬ Usable st := by
  have few : ((List.finRange 62).map emptyFile).length ≤ ninodes - 2 := by
    rw [List.length_map, List.length_finRange]
    decide
  obtain ⟨st, ran, made⟩ := exists_mkfs few (fun file listed => by
    obtain ⟨k, -, rfl⟩ := List.mem_map.mp listed
    exact acceptable_emptyFile k) (by rw [blocks_emptyFiles]; decide)
  refine ⟨st, ran, fun usable => (made.usable_iff few).mp usable ?_⟩
  rw [List.length_map, List.length_finRange]

end Usable

section Format

/-- The kernel looks a name up in the root directory and reads a range of the file. -/
def readFile (name : List UInt8) (off n : UInt32) : Op (Option (UInt32 × List UInt8 × ℤ)) := do
  let dp ← Op.ilock sb rootino
  match (← Op.dirlookup sb dp name).2 with
  | none => return none
  | some (_, inum) =>
    let ip ← Op.ilock sb inum.toNat
    let (ip, bytes, got) ← Op.readi sb ip (fun _ => true) off n
    return some (ip.size, bytes, got)

section Names

theorem takeWhile_strncpy {n : ℕ} {t : List UInt8} (string : 0 ∉ t) (short : t.length ≤ n) :
    (strncpy n t).takeWhile (· ≠ 0) = t := by
  induction n generalizing t with
  | zero => rw [length_eq_zero_iff.mp (Nat.le_zero.mp short), strncpy, takeWhile_nil]
  | succ n ih =>
    cases t with
    | nil => rw [strncpy_of_ended rfl, replicate_succ, takeWhile_cons_of_neg (by simp)]
    | cons c t =>
      obtain ⟨first, rest⟩ := not_or.mp (mem_cons.not.mp string)
      rw [strncpy_succ (by simpa using Ne.symm first), headD_cons, tail_cons,
        takeWhile_cons_of_pos (by simpa using Ne.symm first), ih rest (by simpa using short)]

/-- Names that fit into an entry are told apart. -/
theorem strncmp_strncpy {n : ℕ} {p q : List UInt8} (hp : 0 ∉ p) (hq : 0 ∉ q) (shortp : p.length ≤ n)
    (shortq : q.length ≤ n) :
    strncmp n p (strncpy n q) = 0 ↔ p = q := by
  rw [strncmp_eq_zero, strncpy_strncpy]
  refine ⟨fun same => ?_, fun same => by rw [same]⟩
  rw [← takeWhile_strncpy hp shortp, same, takeWhile_strncpy hq shortq]

theorem zero_not_mem_storedName (file : HostFile) : 0 ∉ storedName file := by
  have short : 0 ∉ shortname file.path := by
    unfold shortname
    split
    · exact fun listed => file.string (mem_of_mem_drop listed)
    · exact file.string
  unfold storedName skipUnderscore
  split
  · exact fun listed => short (mem_of_mem_tail listed)
  · exact short

theorem take_drop_flatMap {ι : Type} {f : ι → List UInt8} {w : ℕ} (width : ∀ x, (f x).length = w) {l : List ι}
    {j : ℕ} {x : ι}
    (present : l[j]? = some x) : ((l.flatMap f).drop (w * j)).take w = f x := by
  induction l generalizing j with
  | nil => simp at present
  | cons y rest ih =>
    rw [flatMap_cons]
    cases j with
    | zero =>
      obtain rfl : y = x := by simpa using present
      rw [Nat.mul_zero, drop_zero, take_append_of_le_length (by rw [width]), take_of_length_le (by rw [width])]
    | succ j =>
      rw [Nat.mul_succ, Nat.add_comm, ← width y, drop_length_add_append, width]
      exact ih (by simpa using present)

/-- The entries of the root directory. -/
def rootEntries (files : List HostFile) : List (ℕ × List UInt8) :=
  (1, [46]) :: (1, [46, 46]) :: (files.zipIdx 2).map fun x => (x.2, storedName x.1)

theorem rootBytes_eq (files : List HostFile) :
    rootBytes files = (rootEntries files).flatMap fun x => dirent x.1 x.2 := by
  simp [rootBytes, rootEntries, flatMap_map]

theorem length_rootEntries (files : List HostFile) : (rootEntries files).length = files.length + 2 := by
  simp [rootEntries]

theorem rootEntries_add_two (files : List HostFile) (k : ℕ) :
    (rootEntries files)[k + 2]? = files[k]?.map fun file => (k + 2, storedName file) := by
  simp [rootEntries, Nat.add_comm, Function.comp_def]

end Names

theorem Made.entry (made : Made st files) {j : ℕ} {x : ℕ × List UInt8} (present : (rootEntries files)[j]? = some x) :
    (sb.image st.disk).entry rootino j = ⟨UInt16.ofNat x.1, strncpy dirsiz x.2⟩ := by
  have small : j < files.length + 2 := by
    rw [← length_rootEntries]
    exact (List.getElem?_eq_some_iff.mp present).1
  have length := length_rootBytes files
  have within : direntSize * j + direntSize ≤ (Mkfs.rootBytes files).length := by
    rw [length, ← Nat.mul_succ]
    exact Nat.mul_le_mul_left _ small
  have inside : direntSize * j + direntSize ≤ ((sb.image st.disk).inode rootino).size.toNat := by
    rw [made.rootSize]
    refine within.trans ?_
    rw [length, Mkfs.rootSize, bsize]
    omega
  have same : (List.range' (direntSize * j) direntSize).map ((sb.image st.disk).byte rootino) =
      ((Mkfs.rootBytes files).drop (direntSize * j)).take direntSize := by
    apply List.ext_getElem
    · simp only [List.length_map, List.length_range', List.length_take, List.length_drop]
      omega
    · intro k left right
      simp only [List.length_map, List.length_range'] at left
      simp only [List.getElem_map, List.getElem_range', List.getElem_take, List.getElem_drop, Nat.one_mul]
      rw [made.rootBytes _ (by omega), List.getD_eq_getElem?_getD, List.getElem?_eq_getElem (by omega),
        Option.getD_some]
  rw [Image.entry, Op.take_drop_file inside, same, rootBytes_eq,
    take_drop_flatMap (fun _ => length_dirent ..) present, dirent, Dirent.decode_encode (length_strncpy ..)]

variable {s : Store} {i k : ℕ}

theorem Holds.file {im : Image} {type : Int16} {content : List UInt8} (holds : Holds im i type content) :
    im.file i = content := by
  rw [Image.file, holds.size]
  apply ext_getElem
  · simp
  · intro o left right
    rw [getElem_map, getElem_range, holds.bytes o right, getD_eq_getElem?_getD, getElem?_eq_getElem right,
      Option.getD_some]

theorem Made.dirlookup {dp : Inode} {file : HostFile} (made : Made st files)
    (acceptable : ∀ file ∈ files, Acceptable file) (distinct : (files.map storedName).Nodup)
    (special : ∀ file ∈ files, storedName file ≠ [46] ∧ storedName file ≠ [46, 46]) (few : files.length ≤ ninodes - 2)
    (disk : s.disk = st.disk) (loaded : Op.Loaded sb s dp) (root : dp.inum = rootino)
    (present : files[k]? = some file) :
    Ensures (Op.dirlookup sb dp (storedName file)) s
      (fun r s' => s' = s ∧ r.2 = some (direntSize * (k + 2), UInt16.ofNat (k + 2))) fun _ => False := by
  have count : ninodes = 200 := rfl
  have small : k < files.length := (List.getElem?_eq_some_iff.mp present).1
  have listed : file ∈ files := List.mem_of_getElem? present
  have inode := loaded.current
  rw [root, disk] at inode
  have size : dp.size.toNat = Mkfs.rootSize files := by rw [← made.rootSize, inode]
  have length := length_rootBytes files
  have at_k : (rootEntries files)[k + 2]? = some (k + 2, storedName file) := by
    rw [rootEntries_add_two, present, Option.map_some]
  have here := made.entry at_k
  -- an entry that matches has the name of the file
  have match_iff {j : ℕ} {x : ℕ × List UInt8} (at_j : (rootEntries files)[j]? = some x) (string : 0 ∉ x.2)
      (short : x.2.length ≤ dirsiz) : namecmp (storedName file) ((sb.image s.disk).entry rootino j).name = 0 ↔
        storedName file = x.2 := by
    rw [disk, made.entry at_j]
    exact strncmp_strncpy (zero_not_mem_storedName file) string (acceptable file listed).name short
  refine .ite (fun other => absurd ?_ other) fun _ => ?_
  · have type := made.rootType
    rwa [inode] at type
  refine (Op.scan_found (k := k + 2) (by rw [disk]; exact made.sound) loaded .dirlookupRead _ ?_ ?_ ?_ ?_ ?_ ?_ _ 0
    (Nat.zero_le _) ?_).bind ?_
  · rw [size, Mkfs.rootSize, show maxfile * bsize = 274432 from rfl, direntSize, dirsiz, bsize]
    omega
  · rw [size, Mkfs.rootSize, direntSize, dirsiz, bsize]
    omega
  · rw [root, disk, Image.entries, made.rootSize, Mkfs.rootSize, direntSize, dirsiz, bsize]
    omega
  · intro o early
    rw [root, disk, Ne, made.rootExact.data, length]
    have := Nat.div_mul_le_self o bsize
    have := Nat.mul_le_mul_left direntSize (show k + 2 + 1 ≤ files.length + 2 by omega)
    omega
  · have value : (UInt16.ofNat (k + 2)).toNat = k + 2 := UInt16.toNat_ofNat_of_lt' (by simp only [UInt16.size]; omega)
    have inum : UInt16.ofNat (k + 2) ≠ 0 := fun zero => by simp [zero] at value
    rw [root, decide_eq_true_eq, match_iff at_k (zero_not_mem_storedName file) (acceptable file listed).name, disk,
      made.entry at_k]
    exact ⟨inum, rfl⟩
  · intro j early
    rw [root, decide_eq_false_iff_not]
    rintro ⟨-, same⟩
    rcases j with _ | _ | j
    · exact (special file listed).1 ((match_iff (x := (1, [46])) rfl (by decide) (by decide)).mp same)
    · exact (special file listed).2 ((match_iff (x := (1, [46, 46])) rfl (by decide) (by decide)).mp same)
    · have earlier : j < files.length := by omega
      have at_j : (rootEntries files)[j + 2]? = some (j + 2, storedName files[j]) := by
        rw [rootEntries_add_two, List.getElem?_eq_getElem earlier, Option.map_some]
      have equal := (match_iff at_j (zero_not_mem_storedName _) (acceptable _ (List.getElem_mem earlier)).name).mp same
      have names : (files.map storedName)[k]? = (files.map storedName)[j]? := by
        simp [present, List.getElem?_eq_getElem earlier, equal]
      have := (List.getElem?_inj (by simpa using small) distinct).mp names
      omega
  · rw [size, Mkfs.rootSize, direntSize, dirsiz, bsize]
    omega
  · rintro ⟨dp', found, off⟩ s' ⟨rfl, -, rfl⟩
    refine .pure ⟨rfl, ?_⟩
    rw [Option.map_some, root, disk, here]

/-- The whole path of the kernel to the bytes of a file. -/
theorem Made.readFile {file : HostFile} {off n : UInt32} (made : Made st files)
    (acceptable : ∀ file ∈ files, Acceptable file) (distinct : (files.map storedName).Nodup)
    (special : ∀ file ∈ files, storedName file ≠ [46] ∧ storedName file ≠ [46, 46]) (few : files.length ≤ ninodes - 2)
    (disk : s.disk = st.disk) (present : files[k]? = some file) (noWrap : off.toNat + n.toNat < UInt32.size) :
    Ensures (Mkfs.readFile (storedName file) off n) s (fun r s' => s' = s ∧ ∃ size bytes got,
      r = some (size, bytes, got) ∧
      size.toNat = (contents file).length ∧ bytes = ((contents file).drop off.toNat).take n.toNat ∧
      got = (bytes.length : ℤ))
      fun _ => False := by
  have count : ninodes = 200 := rfl
  have table : sb.ninodes = 200 := rfl
  have small : k < files.length := (List.getElem?_eq_some_iff.mp present).1
  have holds := made.holds k file present
  refine ((FileSystem.ilock_spec (by decide)).allow fun _ failed => ?_).bind ?_
  · rw [disk, made.rootType] at failed
    exact absurd failed.2 (by decide)
  rintro dp s ⟨rfl, root, loaded⟩
  refine (made.dirlookup acceptable distinct special few disk loaded root present).bind ?_
  rintro ⟨dp, found⟩ s ⟨rfl, found_eq⟩
  have value : (UInt16.ofNat (k + 2)).toNat = k + 2 := UInt16.toNat_ofNat_of_lt' (by simp only [UInt16.size]; omega)
  simp only at found_eq
  subst found_eq
  simp only [value]
  refine ((FileSystem.ilock_spec (by omega)).allow fun _ failed => ?_).bind ?_
  · rw [disk, holds.type] at failed
    exact absurd failed.2 (by decide)
  rintro ip s ⟨rfl, inum, loaded'⟩
  have inode := loaded'.current
  rw [inum, disk] at inode
  have size : ip.size.toNat = (contents file).length := by rw [← holds.size, inode]
  refine (Op.readi_of_mapped (by rw [disk]; exact made.sound) loaded' fun o inside _ => ?_).bind ?_
  · rw [inum, disk, Ne, holds.exact.data]
    have := Nat.div_mul_le_self o bsize
    omega
  rintro ⟨ip', bytes, got⟩ s ⟨rfl, same, exact⟩
  obtain ⟨amount, range⟩ := exact fun _ _ => rfl
  simp only at same amount range
  subst same
  refine .pure ⟨rfl, _, bytes, got, rfl, size, ?_, amount⟩
  have content : (sb.image s.disk).file ip'.inum = contents file := by
    rw [inum, disk]
    exact holds.file
  rw [range, content]
  split
  · next outside =>
    have sum : ¬ off + n < off := by
      rw [UInt32.lt_iff_toNat_lt, UInt32.toNat_add, Nat.mod_eq_of_lt noWrap]
      omega
    have beyond := UInt32.lt_iff_toNat_lt.mp (outside.resolve_right sum)
    rw [List.drop_eq_nil_of_le (by omega), List.take_nil]
  · rfl

theorem word_superblockBlock (k : ℕ) (small : k < 8) : superblockBlock.word k = superblock.getD k 0 := by
  unfold superblockBlock
  rw [Vector.word_setWords _ _ _ _ (by decide), if_pos ⟨Nat.zero_le k, by simpa [superblock] using small⟩, Nat.sub_zero,
    getD_eq_getElem?_getD]

/-- For files with distinct names that fit on the disk `mkfs` ends, and on its image the kernel finds each file under
its name and reads its bytes. -/
theorem mkfs_readable (files : List HostFile) (few : files.length ≤ ninodes - 2)
    (acceptable : ∀ file ∈ files, Acceptable file)
    (distinct : (files.map storedName).Nodup)
    (special : ∀ file ∈ files, storedName file ≠ [46] ∧ storedName file ≠ [46, 46])
    (room : nmeta + blocks (inodes files) ≤ fssize) :
    ∃ st, mkfs files = .ok st ∧ (∀ k < 8, (st.disk 1).word k = superblock.getD k 0) ∧
      st.freeblock = nmeta + blocks (inodes files) ∧
      (∀ b < sb.size, (st.disk (sb.bblock b)).bit (b % bpb) = decide (b < st.freeblock)) ∧
      ∀ file ∈ files, ∀ off n : UInt32, off.toNat + n.toNat < UInt32.size → ∃ size : UInt32,
        size.toNat = (contents file).length ∧
        (readFile (storedName file) off n).run ⟨st.disk, []⟩ = .ok (some (size,
          ((contents file).drop off.toNat).take n.toNat, (((contents file).drop off.toNat).take n.toNat).length),
          ⟨st.disk, []⟩) := by
  obtain ⟨st, ran, made⟩ := exists_mkfs few acceptable room
  refine ⟨st, ran, fun k small => ?_, made.count, fun b inside => ?_, fun file listed off n noWrap => ?_⟩
  · rw [made.boot, word_superblockBlock k small]
  · rw [← Op.bit_eq inside, made.bits]
  · obtain ⟨k, small, rfl⟩ := List.getElem_of_mem listed
    have present : files[k]? = some files[k] := List.getElem?_eq_getElem small
    obtain ⟨r, s, run, rfl, size, bytes, got, rfl, exact, rfl, rfl⟩ :=
      (made.readFile (s := ⟨st.disk, []⟩) acceptable distinct special few rfl present noWrap).exists_run
    exact ⟨size, exact, run⟩

theorem mkfs_readable_twoFiles : ∃ st, mkfs twoFiles = .ok st ∧ ∃ size : UInt32, size.toNat = 5 ∧
    (readFile [108, 115] 1 3).run ⟨st.disk, []⟩ = .ok (some (size, [2, 3, 4], 3), ⟨st.disk, []⟩) := by
  obtain ⟨st, ran, -, -, -, read⟩ := mkfs_readable twoFiles few_twoFiles acceptable_twoFiles (by decide)
    (by decide) (by decide)
  obtain ⟨size, exact, run⟩ := read _ List.mem_cons_self 1 3 (by decide)
  exact ⟨st, ran, size, exact, run⟩

end Format

end Xv6.Fs.Mkfs
