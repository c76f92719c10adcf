import Xv6.Proofs.Fs.MkfsFiles

/-! # The run of `mkfs`

From the blank image to the last write, the bitmap. The bitmap that is written is the one the draft has had
all along, so the image on the disk is the last draft.
-/

namespace Xv6.Fs.Mkfs

open Machine Image Function

variable {st st' : State} {fails : Exit → Prop} {files : List HostFile}

section Blank

theorem type_decode_zeroes (position : ℕ) : (Dinode.decode zeroes position).type = 0 := by
  simp only [Dinode.decode, zeroes, word_zeros]
  rfl

theorem sound_of_free (low : st.freeblock = nmeta) (free : ∀ i, ((draft st).inode i).type = 0) :
    Sound sb (draft st) := by
  have none (x : ℕ × ℕ) : (draft st).held x = none := held_eq_none.mpr (slot_of_free (free _) _)
  have start : sb.datastart = nmeta := by decide
  refine ⟨⟨fun b => ?_, fun x y b present => ?_⟩, fun b small => ?_⟩
  · have unused : ¬ ∃ x, (draft st).held x = some b := by simp [none]
    refine ⟨?_, fun held => absurd held unused⟩
    rintro ⟨behind, -, used⟩
    simp only [draft, low, decide_eq_true_eq] at used
    omega
  · rw [none] at present
    cases present
  · simp only [draft, low, decide_eq_true_eq]
    omega

theorem blank_ensures (n : ℕ) : Ensures (blank n) start (fun _ st => st = ⟨fun _ => zeroes, n, 1, nmeta⟩) fails := by
  unfold blank
  refine .forM_range (fun j (st : State) => st = ⟨fun _ => zeroes, j, 1, nmeta⟩) rfl ?_
  rintro j - _ rfl
  refine .modify ?_
  have same : update (fun _ => zeroes : ℕ → Block) j zeroes = fun _ => zeroes := update_eq_self j _
  rw [State.mk.injEq]
  exact ⟨same, max_eq_right (Nat.le_succ j), rfl, rfl⟩

theorem stage_blank : Stage ⟨update (fun _ => zeroes) 1 superblockBlock, fssize, 1, nmeta⟩ [] := by
  have free (i : ℕ) : ((draft ⟨update (fun _ => zeroes) 1 superblockBlock, fssize, 1, nmeta⟩).inode i).type = 0 := by
    simp only [draft, Superblock.image]
    split
    · next known => rw [update_of_ne (Nat.ne_of_gt (iblock_lt_nmeta known).1), type_decode_zeroes]
    · rfl
  refine ⟨⟨rfl, by decide, by decide, fun b high => ?_, by simp only [update_self]⟩, sound_of_free rfl free,
    rfl, by decide, fun k content present => by simp at present, fun i _ => free i, rfl⟩
  have other : b ≠ 1 := Nat.ne_of_gt (Nat.lt_of_lt_of_le (by decide : 1 < nmeta) high)
  simp only [update_of_ne other]

theorem boot_ensures (blank : st = ⟨fun _ => zeroes, fssize, 1, nmeta⟩) :
    Ensures (wsect 1 superblockBlock) st (fun _ st' => Stage st' []) fails := by
  refine .modify ?_
  have sectors : max fssize (1 + 1) = fssize := max_eq_left (by decide)
  rw [blank, sectors]
  exact stage_blank

end Blank

section Bitmap

theorem bit_foldl_setBit {used : ℕ} (fits : used ≤ 8 * bsize) (j : ℕ) :
    ((List.range used).foldl (fun buf i => buf.setBit i) zeroes).bit j = decide (j < used) := by
  induction used with
  | zero => simp [zeroes, Vector.bit_zeros]
  | succ used ih =>
    rw [List.range_succ, List.foldl_append, List.foldl_cons, List.foldl_nil, Vector.bit_setBit,
      ih (Nat.le_of_succ_le fits)]
    by_cases here : used = j
    · rw [if_pos ⟨here, fits⟩]
      simp [here]
    · rw [if_neg (fun h => here h.1)]
      simp only [decide_eq_decide]
      omega

theorem image_bitmap_block (disk : ℕ → Block) (data : Block) :
    sb.image (update disk sb.bmapstart data) =
      { sb.image disk with bit := fun b => decide (b < fssize) && data.bit b } := by
  ext1
  · funext b
    simp only [Superblock.image]
    by_cases inside : b < sb.size
    · have small : b < 2000 := inside
      have zero : b / bpb = 0 := Nat.div_eq_of_lt (Nat.lt_trans small (by decide))
      have rest : b % bpb = b := Nat.mod_eq_of_lt (Nat.lt_trans small (by decide))
      rw [Superblock.bblock, zero, Nat.zero_add, update_self, rest]
      rfl
    · have outside : ¬ b < fssize := inside
      simp [inside, outside]
  · funext i
    simp only [Superblock.image]
    split
    · next known => rw [update_of_ne (Nat.ne_of_lt (sb.iblock_lt known))]
    · rfl
  · funext b
    simp only [Superblock.image]
    split
    · next low => rw [update_of_ne (Nat.ne_of_gt (Nat.lt_of_lt_of_le sb.bmapstart_lt_datastart low))]
    · rfl

theorem balloc_ensures (ready : Ready st) :
    Ensures (balloc st.freeblock) st (fun _ st' => sb.image st'.disk = draft st ∧ st'.disk 1 = superblockBlock ∧
      st'.freeinode = st.freeinode ∧ st'.freeblock = st.freeblock) fails := by
  have high := ready.high
  have room : fssize < bpb := by decide
  refine .ite (fun full => by omega) fun _ => ?_
  refine .modify ⟨?_, ?_, rfl, rfl⟩
  · have bits := bit_foldl_setBit (Nat.le_of_lt (Nat.lt_of_le_of_lt high room))
    simp only [image_bitmap_block, draft, bits]
    congr 1
    funext b
    simp only [← Bool.decide_and, decide_eq_decide]
    omega
  · have later : 1 ≠ sb.bmapstart := by decide
    simp only [update_of_ne later, ready.boot]

end Bitmap

/-- The size that `fixSize` gives to the root directory. -/
def rootSize (files : List HostFile) : ℕ := (direntSize * (files.length + 2) / bsize + 1) * bsize

/-- What `mkfs` has written when it ends. -/
structure Made (st : State) (files : List HostFile) : Prop where
  boot : st.disk 1 = superblockBlock
  sound : Sound sb (sb.image st.disk)
  bits : ∀ b, (sb.image st.disk).bit b = decide (b < st.freeblock)
  count : st.freeblock = nmeta + blocks (inodes files)
  freeinode : st.freeinode = files.length + 2
  rootType : ((sb.image st.disk).inode rootino).type = tDir
  rootSize : ((sb.image st.disk).inode rootino).size.toNat = Mkfs.rootSize files
  rootBytes : ∀ o < (Mkfs.rootBytes files).length, (sb.image st.disk).byte rootino o = (Mkfs.rootBytes files).getD o 0
  rootExact : Exact (sb.image st.disk) rootino (Mkfs.rootBytes files).length
  holds : ∀ k file, files[k]? = some file → Holds (sb.image st.disk) (k + 2) tFile (contents file)
  free : ∀ i, i = 0 ∨ files.length + 1 < i → ((sb.image st.disk).inode i).type = 0

theorem fixSize_ensures {root : List UInt8} {rest : List (List UInt8)} (stage : Stage st (root :: rest)) :
    Ensures (fixSize 1) st (fun _ st' => Ready st' ∧
      draft st' = resize (draft st) 1 (UInt32.ofNat ((root.length / bsize + 1) * bsize)) ∧
      st'.freeinode = st.freeinode ∧ st'.freeblock = st.freeblock) fails := by
  refine (rinode_ensures stage.ready (by decide)).bind ?_
  rintro _ st ⟨rfl, rfl⟩
  have size := (stage.holds 0 root rfl).size
  refine (winode_ensures stage.ready (by decide)).mono ?_
  rintro _ st' ⟨ready, after, freeinode, freeblock⟩
  refine ⟨ready, ?_, freeinode, freeblock⟩
  rw [after, resize]
  rw [Nat.zero_add] at size
  rw [size]

theorem Stage.made {st₁ st₂ : State} (stage : Stage st (inodes files))
    (fixed : draft st₁ = resize (draft st) 1 (UInt32.ofNat (Mkfs.rootSize files)))
    (freeinode : st₁.freeinode = st.freeinode) (freeblock : st₁.freeblock = st.freeblock)
    (image : sb.image st₂.disk = draft st₁) (boot : st₂.disk 1 = superblockBlock)
    (freeinode' : st₂.freeinode = st₁.freeinode) (freeblock' : st₂.freeblock = st₁.freeblock) : Made st₂ files := by
  have last : sb.image st₂.disk = resize (draft st) 1 (UInt32.ofNat (Mkfs.rootSize files)) := image.trans fixed
  have root := stage.holds 0 (Mkfs.rootBytes files) rfl
  have known := stage.known
  have value : (UInt32.ofNat (Mkfs.rootSize files)).toNat = Mkfs.rootSize files := by
    have : ninodes = 200 := rfl
    refine UInt32.toNat_ofNat_of_lt' ?_
    simp only [inodes, List.length_cons, List.length_map, Mkfs.rootSize, direntSize, dirsiz, bsize,
      UInt32.size] at known ⊢
    omega
  refine ⟨boot, ?_, fun b => ?_, ?_, ?_, ?_, ?_, fun o small => ?_, ?_, fun k file present => ?_, fun i unused => ?_⟩
  · rw [last]
    exact stage.sound.congr slot_resize rfl
  · rw [last, freeblock', freeblock]
    rfl
  · rw [freeblock', freeblock, stage.count]
  · rw [freeinode', freeinode, stage.freeinode, inodes, List.length_cons, List.length_map]
  · rw [last, resize, rootino, put_inode_self]
    exact root.type
  · rw [last, resize, rootino, put_inode_self]
    exact value
  · rw [last, byte_resize]
    exact root.bytes o small
  · rw [last]
    exact root.exact.congr fun _ => held_resize _
  · have at_k : (inodes files)[k + 1]? = some (contents file) := by simp [inodes, present]
    have holds := stage.holds (k + 1) _ at_k
    rw [last]
    exact holds.congr (inode_resize_of_ne (by omega)) (byte_resize _) fun _ => held_resize _
  · rw [last, inode_resize_of_ne (by omega)]
    refine stage.free i ?_
    simpa [inodes] using unused

theorem main_ensures (room : files.length + 1 < ninodes)
    (unacceptable : ∀ file ∈ files, ¬ Acceptable file → ∀ e, fails e)
    (noRoom : fssize < nmeta + blocks (inodes files) → fails .die) :
    Ensures (main files) start (fun _ st => Made st files) fails := by
  refine (blank_ensures fssize).bind ?_
  intro _ st₀ blank
  refine (boot_ensures blank).bind ?_
  intro _ st stage
  refine (ialloc_ensures stage (by decide)).bind ?_
  rintro _ st₁ ⟨rfl, stage₁⟩
  refine .ite (fun other => absurd rfl other) fun _ => ?_
  refine (iappend_ensures (k := 0) stage₁ rfl (fun full => absurd full (by decide)) fun long =>
    absurd long (by decide)).bind ?_
  intro _ st₂ stage₂
  refine (iappend_ensures (k := 0) stage₂ rfl (fun full => absurd full (by decide)) fun long =>
    absurd long (by decide)).bind ?_
  intro _ st₃ stage₃
  have none : Stage st₃ (inodes []) := by simpa [inodes, Mkfs.rootBytes] using stage₃
  refine (addFiles_ensures none room unacceptable noRoom).bind ?_
  intro _ st₄ stage₄
  refine (fixSize_ensures stage₄).bind ?_
  rintro _ st₅ ⟨ready, fixed, freeinode, freeblock⟩
  refine .get_bind ((balloc_ensures ready).mono ?_)
  rintro _ st₆ ⟨image, boot, freeinode', freeblock'⟩
  rw [length_rootBytes] at fixed
  exact stage₄.made fixed freeinode freeblock image boot freeinode' freeblock'

end Xv6.Fs.Mkfs
