import Mathlib.Algebra.BigOperators.Group.List.Basic
import Xv6.Proofs.Fs.Mkfs
import Xv6.Proofs.Fs.Names

/-! # The files in the image of `mkfs`

A stage of the run is described by the contents of the inodes that have been allocated, in order. An inode
is allocated with no contents, and bytes are appended to one of them; the blocks in use are counted by the
sizes alone.
-/

namespace Xv6.Fs.Mkfs

open Machine Image List

variable {st st' : State} {din : Dinode} {i k : ℕ} {fails : Exit → Prop} {files : List (List UInt8)}
  {content p : List UInt8}

/-- An inode with its contents and no more blocks than they need. -/
structure Holds (im : Image) (i : ℕ) (type : Int16) (content : List UInt8) : Prop where
  type : (im.inode i).type = type
  size : (im.inode i).size.toNat = content.length
  fits : content.length ≤ maxfile * bsize
  bytes : ∀ o < content.length, im.byte i o = content.getD o 0
  exact : Exact im i content.length

theorem Holds.congr {im im' : Image} {type : Int16} (holds : Holds im i type content) (inode : im'.inode i = im.inode i)
    (byte : ∀ o, im'.byte i o = im.byte i o) (held : ∀ k, im'.held (i, k) = im.held (i, k)) :
    Holds im' i type content :=
  ⟨inode ▸ holds.type, inode ▸ holds.size, holds.fits,
    fun o small => by rw [byte, holds.bytes o small], holds.exact.congr held⟩

/-- The root directory is the first inode. -/
def typeOf (k : ℕ) : Int16 := if k = 0 then tDir else tFile

theorem typeOf_ne_zero (k : ℕ) : typeOf k ≠ 0 := by
  unfold typeOf
  split <;> decide

/-- The blocks of all files. -/
def blocks (files : List (List UInt8)) : ℕ := (files.map fun content => blocksOf content.length).sum

structure Stage (st : State) (files : List (List UInt8)) : Prop where
  ready : Ready st
  sound : Sound sb (draft st)
  freeinode : st.freeinode = files.length + 1
  known : files.length < ninodes
  holds : ∀ k content, files[k]? = some content → Holds (draft st) (k + 1) (typeOf k) content
  free : ∀ i, i = 0 ∨ files.length < i → ((draft st).inode i).type = 0
  count : st.freeblock = nmeta + blocks files

theorem blocks_set (present : files[k]? = some content) (content' : List UInt8) :
    blocks (files.set k content') + blocksOf content.length = blocks files + blocksOf content'.length := by
  induction files generalizing k with
  | nil => simp at present
  | cons first rest ih =>
    cases k with
    | zero =>
      obtain rfl : first = content := by simpa using present
      simp only [blocks, set_cons_zero, map_cons, sum_cons]
      omega
    | succ k =>
      have := ih (by simpa using present)
      simp only [blocks, set_cons_succ, map_cons, sum_cons] at this ⊢
      omega

theorem blocks_append_empty : blocks (files ++ [[]]) = blocks files := by
  have zero : blocksOf 0 = 0 := by decide
  simp only [blocks, map_append, sum_append, map_cons, map_nil, sum_cons, sum_nil, length_nil,
    zero, Nat.add_zero]

section Inodes

theorem iblock_lt_nmeta (known : i < ninodes) : 1 < sb.iblock i ∧ sb.iblock i < sb.datastart :=
  ⟨Nat.lt_of_lt_of_le (by decide) (Nat.le_add_left ..), (sb.iblock_lt known).trans sb.bmapstart_lt_datastart⟩

theorem rinode_ensures (ready : Ready st) (known : i < ninodes) :
    Ensures (rinode i) st (fun din st' => din = (draft st).inode i ∧ st' = st) fails := by
  have inside : sb.iblock i < fssize := (iblock_lt_nmeta known).2.trans_le sb.datastart_le_size
  refine (rsect_ensures ready.sectors fun beyond => absurd inside (Nat.not_lt.mpr beyond)).bind ?_
  rintro buf _ ⟨-, rfl, rfl⟩
  exact .pure ⟨(if_pos known).symm, rfl⟩

theorem winode_ensures (ready : Ready st) (known : i < ninodes) :
    Ensures (winode i din) st (fun _ st' => Ready st' ∧ draft st' = (draft st).put i din ∧
      st'.freeinode = st.freeinode ∧ st'.freeblock = st.freeblock) fails := by
  obtain ⟨later, low⟩ := iblock_lt_nmeta known
  have inside : sb.iblock i < fssize := low.trans_le sb.datastart_le_size
  refine (rsect_ensures ready.sectors fun beyond => absurd inside (Nat.not_lt.mpr beyond)).bind ?_
  rintro buf _ ⟨-, rfl, rfl⟩
  refine .modify ⟨ready.write later (low.trans_le ready.low) _, ?_, rfl, rfl⟩
  simp only [draft, put, sb.image_inode _ known]

/-- A free inode is written: the others keep their slots, and it has none. -/
theorem slot_put_blank {im : Image} (free : (im.inode i).type = 0) (blank : ∀ k, din.addr k = 0) (j k : ℕ) :
    (im.put i din).slot j k = im.slot j k := by
  by_cases here : j = i
  · subst here
    rw [slot_of_blank (by rwa [put_inode_self]), slot_of_free free]
  · exact slot_put_of_ne here k

theorem Holds.empty {im : Image} {type : Int16} (known : (im.inode i).type = type) (size : (im.inode i).size = 0)
    (blank : ∀ k, im.slot i k = 0) : Holds im i type [] := by
  have none (k : ℕ) : im.held (i, k) = none := held_eq_none.mpr (blank k)
  exact ⟨known, by rw [size]; rfl, Nat.zero_le _, fun o small => by simp at small, fun bn => by simp [none],
    by simp [none]⟩

theorem ialloc_ensures (stage : Stage st files) (room : files.length + 1 < ninodes) :
    Ensures (ialloc (typeOf files.length)) st (fun inum st' => inum = files.length + 1 ∧
      Stage st' (files ++ [[]])) fails := by
  unfold ialloc
  refine .get_bind (.modify_bind ?_)
  have ready : Ready { st with freeinode := st.freeinode + 1 } :=
    ⟨stage.ready.sectors, stage.ready.low, stage.ready.high, stage.ready.blank, stage.ready.boot⟩
  rw [stage.freeinode]
  refine (winode_ensures (stage.freeinode ▸ ready) room).bind ?_
  rintro _ st' ⟨ready', after, freeinode, freeblock⟩
  change draft st' = (draft st).put _ _ at after
  have free := stage.free (files.length + 1) (.inr (Nat.lt_succ_self _))
  have blank : ∀ k, ({ Dinode.zero with type := typeOf files.length, nlink := 1 } : Dinode).addr k = 0 :=
    Dinode.addr_zero
  have slot := slot_put_blank free blank
  rw [← after] at slot
  have inode {j : ℕ} (other : j ≠ files.length + 1) : (draft st').inode j = (draft st).inode j := by
    rw [after, put_inode_of_ne other]
  have same : (draft st').inode (files.length + 1) = { Dinode.zero with type := typeOf files.length, nlink := 1 } := by
    rw [after, put_inode_self]
  refine .pure ⟨rfl, ready', stage.sound.congr slot (by rw [after, put_bit]), ?_, ?_, fun k content present => ?_,
    fun i unused => ?_, ?_⟩
  · simpa using freeinode
  · simpa using room
  · by_cases old : k < files.length
    · rw [getElem?_append_left old] at present
      refine (stage.holds k content present).congr (inode (by omega)) (byte_congr (fun _ => held_congr (slot ..)) ?_)
        fun k' => held_congr (slot ..)
      intro bn b _
      rw [after, put_block]
    · obtain ⟨rfl, rfl⟩ : k = files.length ∧ content = [] := by
        rw [getElem?_append_right (Nat.not_lt.mp old), getElem?_singleton] at present
        split at present
        · exact ⟨by omega, by simpa using present.symm⟩
        · cases present
      refine .empty (by rw [same]) (by rw [same]; rfl) fun k' => ?_
      rw [slot, slot_of_free free]
  · rw [length_append, length_singleton] at unused
    rw [inode (by omega)]
    exact stage.free i (by omega)
  · have before : st'.freeblock = st.freeblock := freeblock
    rw [before, stage.count, blocks_append_empty]

section Resize

/-- Nothing in a slot and no byte depends on the size. -/
def resize (im : Image) (i : ℕ) (size : UInt32) : Image := im.put i { im.inode i with size }

variable {im : Image} {size : UInt32}

theorem slot_resize (j k : ℕ) : (resize im i size).slot j k = im.slot j k := by
  unfold resize
  apply slot_put_kept <;> rfl

theorem held_resize (x : ℕ × ℕ) : (resize im i size).held x = im.held x := held_congr (slot_resize ..)

theorem byte_resize (j o : ℕ) : (resize im i size).byte j o = im.byte j o :=
  byte_congr (fun _ => held_resize _) (fun _ _ _ => rfl) o

theorem inode_resize_of_ne {j : ℕ} (other : j ≠ i) : (resize im i size).inode j = im.inode j := put_inode_of_ne other

end Resize

/-- The loop of `iappend`, then the inode written with its new size. -/
theorem Stage.append {st₁ : State} (stage : Stage st files) (present : files[k]? = some content)
    (appended : Appended (k + 1) content.length p st ((draft st).inode (k + 1)) st₁ din) (ready : Ready st')
    (after : draft st' = (draft st₁).put (k + 1) { din with size := UInt32.ofNat (content.length + p.length) })
    (freeinode : st'.freeinode = st₁.freeinode) (freeblock : st'.freeblock = st₁.freeblock) :
    Stage st' (files.set k (content ++ p)) := by
  have small : k < files.length := (List.getElem?_eq_some_iff.mp present).1
  have holds := stage.holds k content present
  have before : (draft st).put (k + 1) ((draft st).inode (k + 1)) = draft st := put_self
  have others := appended.others
  have kept := appended.held
  have bytes := appended.bytes
  rw [before] at others kept bytes
  have value : (UInt32.ofNat (content.length + p.length)).toNat = content.length + p.length :=
    UInt32.toNat_ofNat_of_lt' (Nat.lt_of_le_of_lt appended.fits (by decide))
  have resized :
      draft st' = resize ((draft st₁).put (k + 1) din) (k + 1) (UInt32.ofNat (content.length + p.length)) := by
    rw [after, resize, put_put, put_inode_self]
  have inode {j : ℕ} (other : j ≠ k + 1) : (draft st').inode j = (draft st).inode j := by
    rw [after, put_inode_of_ne other, appended.inode]
  have type : din.type = typeOf k := (congrArg Dinode.type appended.fields).trans holds.type
  refine ⟨ready, ?_, ?_, ?_, fun j content' at_j => ?_, fun j unused => ?_, ?_⟩
  · rw [resized]
    exact appended.sound.congr slot_resize rfl
  · rw [freeinode, appended.freeinode, stage.freeinode, List.length_set]
  · rw [List.length_set]
    exact stage.known
  · by_cases here : j = k
    · subst here
      obtain rfl : content ++ p = content' := by simpa [small] using at_j
      refine ⟨by rw [after, put_inode_self, type], ?_, by simpa using appended.fits, fun o inside => ?_, ?_⟩
      · rw [after, put_inode_self, value, List.length_append]
      · rw [List.length_append] at inside
        rw [resized, byte_resize, bytes]
        simp only [List.getD_eq_getElem?_getD]
        by_cases new : content.length ≤ o
        · rw [if_pos ⟨new, inside⟩, List.getElem?_append_right new]
        · rw [if_neg (by omega), holds.bytes o (by omega), List.getElem?_append_left (by omega),
            List.getD_eq_getElem?_getD]
      · rw [resized, List.length_append]
        exact appended.exact.congr fun _ => held_resize _
    · rw [List.getElem?_set_ne (Ne.symm here)] at at_j
      have other : j + 1 ≠ k + 1 := by omega
      refine (stage.holds j content' at_j).congr (inode other) (fun o => ?_) fun k' => ?_
      · rw [resized, byte_resize, others _ other]
      · rw [resized, held_resize, kept _ other]
  · rw [List.length_set] at unused
    rw [inode (by omega)]
    exact stage.free j unused
  · have sum := blocks_set present (content ++ p)
    have count := appended.count
    have start := stage.count
    rw [List.length_append] at sum
    omega

theorem iappend_ensures (stage : Stage st files) (present : files[k]? = some content)
    (noRoom : fssize < nmeta + blocks (files.set k (content ++ p)) → fails .die)
    (long : maxfile * bsize < (content ++ p).length → fails .assertion) :
    Ensures (iappend (k + 1) p) st (fun _ st' => Stage st' (files.set k (content ++ p))) fails := by
  have small : k < files.length := (List.getElem?_eq_some_iff.mp present).1
  have known : k + 1 < ninodes := Nat.lt_of_le_of_lt small stage.known
  have holds := stage.holds k content present
  have sum := blocks_set present (content ++ p)
  have start := stage.count
  rw [List.length_append] at long sum
  refine (rinode_ensures stage.ready known).bind ?_
  rintro _ st ⟨rfl, rfl⟩
  have before : (draft st).put (k + 1) ((draft st).inode (k + 1)) = draft st := put_self
  rw [holds.size]
  refine (iappendLoop_ensures (i := k + 1) (p := p) p.length le_rfl stage.ready (by rw [before]; exact stage.sound)
    (by rw [holds.type]; exact typeOf_ne_zero k) (by rw [before]; exact holds.exact) holds.fits
    (fun full => noRoom (by omega)) long).bind ?_
  rintro ⟨din, off⟩ st₁ ⟨appended, rfl⟩
  refine (winode_ensures appended.ready known).mono ?_
  rintro _ st' ⟨ready, after, freeinode, freeblock⟩
  exact stage.append present appended ready after freeinode freeblock

theorem blocks_set_mono (present : files[k]? = some content) {short long : List UInt8}
    (le : short.length ≤ long.length) :
    blocks (files.set k short) ≤ blocks (files.set k long) := by
  have first := blocks_set present short
  have second := blocks_set present long
  have := blocksOf_mono le
  omega

theorem appendAll_ensures {chunks : List Chunk} (stage : Stage st files) (present : files[k]? = some content)
    (noRoom : fssize < nmeta + blocks (files.set k (content ++ chunks.flatMap Subtype.val)) → fails .die)
    (long : maxfile * bsize < (content ++ chunks.flatMap Subtype.val).length → fails .assertion) :
    Ensures (chunks.forM fun chunk => iappend (k + 1) chunk.val) st
      (fun _ st' => Stage st' (files.set k (content ++ chunks.flatMap Subtype.val))) fails := by
  simp only [List.forM_eq_forM]
  induction chunks generalizing st files content with
  | nil =>
    have same : files.set k content = files := by
      obtain ⟨small, rfl⟩ := List.getElem?_eq_some_iff.mp present
      simp
    rw [List.flatMap_nil, List.append_nil, same]
    exact .pure stage
  | cons chunk rest ih =>
    have small : k < files.length := (List.getElem?_eq_some_iff.mp present).1
    have split :
        content ++ (chunk :: rest).flatMap Subtype.val = (content ++ chunk.val) ++ rest.flatMap Subtype.val := by simp
    rw [split] at noRoom long ⊢
    have le : (content ++ chunk.val).length ≤ ((content ++ chunk.val) ++ rest.flatMap Subtype.val).length := by
      simp only [List.length_append]
      omega
    have grows := blocks_set_mono present le
    rw [List.forM_cons]
    refine (iappend_ensures stage present (fun full => noRoom (by omega)) fun large => long (by omega)).bind ?_
    intro _ st₁ stage₁
    have here : (files.set k (content ++ chunk.val))[k]? = some (content ++ chunk.val) := by simp [small]
    have again := ih stage₁ here
    rw [List.set_set] at again
    exact again noRoom long

end Inodes

section Files

/-- The name that is stored for a file. -/
def storedName (file : HostFile) : List UInt8 := skipUnderscore (shortname file.path)

/-- The bytes that are read from a file. -/
def contents (file : HostFile) : List UInt8 := (file.chunks.getD []).flatMap Subtype.val

/-- A file that `mkfs` can store, as far as the file alone matters. -/
structure Acceptable (file : HostFile) : Prop where
  opens : file.chunks.isSome
  slash : 47 ∉ shortname file.path
  name : (storedName file).length ≤ dirsiz
  size : (contents file).length ≤ maxfile * bsize

theorem length_dirent (inum : ℕ) (name : List UInt8) : (dirent inum name).length = direntSize :=
  Dirent.length_encode (length_strncpy ..)

theorem blocks_cons (first : List UInt8) : blocks (first :: files) = blocksOf first.length + blocks files := rfl

theorem blocks_append_singleton : blocks (files ++ [content]) = blocks files + blocksOf content.length := by
  simp only [blocks, map_append, sum_append, map_cons, map_nil, sum_cons, sum_nil, Nat.add_zero]

theorem addFile_ensures {root : List UInt8} {file : HostFile} (stage : Stage st (root :: files))
    (room : files.length + 2 < ninodes) (short : root.length + direntSize ≤ maxfile * bsize)
    (unacceptable : ¬ Acceptable file → ∀ e, fails e)
    (noRoom : fssize < nmeta + blocks ((root ++ dirent (files.length + 2) (storedName file)) ::
      (files ++ [contents file])) → fails .die) :
    Ensures (addFile 1 file) st (fun _ st' =>
      Stage st' ((root ++ dirent (files.length + 2) (storedName file)) :: (files ++ [contents file]))) fails := by
  have width := length_dirent (files.length + 2) (storedName file)
  refine .ite (fun slash => .throw (unacceptable (fun ok => ok.slash slash) _)) fun noSlash => ?_
  cases opened : file.chunks with
  | none =>
    refine .throw (unacceptable (fun ok => ?_) _)
    have := ok.opens
    simp [opened] at this
  | some chunks =>
    have read : contents file = chunks.flatMap Subtype.val := by rw [contents, opened, Option.getD_some]
    refine .ite (fun long => .throw (unacceptable (fun ok => Nat.not_lt.mpr ok.name long) _)) fun fits => ?_
    simp only [blocks_cons, blocks_append_singleton, length_append, width] at noRoom
    have more : (root :: files).length + 1 < ninodes := room
    refine (ialloc_ensures stage more).bind ?_
    rintro _ st₁ ⟨rfl, stage₁⟩
    have first : (root :: files ++ [[]])[0]? = some root := rfl
    refine (iappend_ensures stage₁ first ?_ ?_).bind ?_
    · rw [cons_append, set_cons_zero, blocks_cons, blocks_append_empty, length_append, length_dirent]
      exact fun full => noRoom (by omega)
    · rw [length_append, length_dirent]
      exact fun large => absurd short (Nat.not_le.mpr large)
    intro _ st₂ stage₂
    rw [cons_append, set_cons_zero] at stage₂
    change Stage st₂ ((root ++ dirent (files.length + 2) (storedName file)) :: (files ++ [[]])) at stage₂
    have last : ((root ++ dirent (files.length + 2) (storedName file)) :: (files ++ [[]]))[files.length + 1]? =
        some [] := by simp
    have set (c : List UInt8) :
        ((root ++ dirent (files.length + 2) (storedName file)) :: (files ++ [[]])).set (files.length + 1) c =
        (root ++ dirent (files.length + 2) (storedName file)) :: (files ++ [c]) := by simp
    refine (appendAll_ensures stage₂ last ?_ ?_).mono ?_
    · rw [nil_append, set, ← read, blocks_cons, blocks_append_singleton, length_append, width]
      exact noRoom
    · rw [nil_append, ← read]
      exact fun large => unacceptable (fun ok => Nat.not_lt.mpr ok.size large) _
    · intro _ st' stage'
      rwa [nil_append, set, ← read] at stage'

/-- The bytes of the root directory. -/
def rootBytes (files : List HostFile) : List UInt8 :=
  dirent 1 [46] ++ dirent 1 [46, 46] ++ (files.zipIdx 2).flatMap fun x => dirent x.2 (storedName x.1)

/-- The contents of all inodes. -/
def inodes (files : List HostFile) : List (List UInt8) := rootBytes files :: files.map contents

theorem rootBytes_append (files : List HostFile) (file : HostFile) :
    rootBytes (files ++ [file]) = rootBytes files ++ dirent (files.length + 2) (storedName file) := by
  simp [rootBytes, zipIdx_append, Nat.add_comm 2]

theorem inodes_append (files : List HostFile) (file : HostFile) :
    inodes (files ++ [file]) =
      (rootBytes files ++ dirent (files.length + 2) (storedName file)) :: (files.map contents ++ [contents file]) := by
  rw [inodes, rootBytes_append, map_append, map_singleton]

theorem length_rootBytes (files : List HostFile) : (rootBytes files).length = direntSize * (files.length + 2) := by
  induction files using reverseRecOn with
  | nil => decide
  | append_singleton files file ih =>
    rw [rootBytes_append, length_append, ih, length_dirent, length_append, length_singleton]
    exact (Nat.mul_succ ..).symm

theorem blocks_inodes_append (files rest : List HostFile) :
    blocks (inodes files) ≤ blocks (inodes (files ++ rest)) := by
  have le := blocksOf_mono (show (rootBytes files).length ≤ (rootBytes (files ++ rest)).length by
    rw [length_rootBytes, length_rootBytes, length_append]
    exact Nat.mul_le_mul_left _ (by omega))
  simp only [inodes, map_append, blocks, sum_append, map_cons, sum_cons] at le ⊢
  omega

theorem addFiles_ensures {before rest : List HostFile} (stage : Stage st (inodes before))
    (room : (before ++ rest).length + 1 < ninodes) (unacceptable : ∀ file ∈ rest, ¬ Acceptable file → ∀ e, fails e)
    (noRoom : fssize < nmeta + blocks (inodes (before ++ rest)) → fails .die) :
    Ensures (rest.forM (addFile 1)) st (fun _ st' => Stage st' (inodes (before ++ rest))) fails := by
  simp only [forM_eq_forM]
  induction rest generalizing st before with
  | nil =>
    rw [append_nil]
    exact .pure stage
  | cons file rest ih =>
    have split : before ++ file :: rest = (before ++ [file]) ++ rest := by simp
    rw [split] at room noRoom ⊢
    have le := blocks_inodes_append (before ++ [file]) rest
    have length : before.length + 2 < ninodes := by
      simp only [length_append, length_singleton] at room
      omega
    rw [forM_cons]
    refine (addFile_ensures stage (by rwa [length_map]) ?_ (unacceptable file (by simp)) ?_).bind ?_
    · have : ninodes = 200 := rfl
      have : maxfile * bsize = 274432 := rfl
      rw [length_rootBytes, show direntSize = 16 from rfl]
      omega
    · rw [length_map, ← inodes_append]
      exact fun full => noRoom (by omega)
    intro _ st₁ stage₁
    rw [length_map, ← inodes_append] at stage₁
    exact ih stage₁ room (fun file' listed => unacceptable file' (by simp [listed])) noRoom

end Files

end Xv6.Fs.Mkfs
