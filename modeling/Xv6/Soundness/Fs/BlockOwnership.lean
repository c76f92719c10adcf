import Xv6.Model.Fs.Table
import Xv6.Proofs.Fs.Directory
import Xv6.Proofs.Fs.Truncate

/-! # Every block has one owner

From a consistent image no run of inode operations leaks a block, uses one twice or frees a free one. An
operation that stops half-way, for want of a block or because a copy fails, leaves the image consistent.
-/

namespace Xv6.Fs

open Machine Image Op

namespace FileSystem

variable {sb : Superblock} {fs : FileSystem}

/-- The image is consistent, and the in-memory inodes are those on the disk. -/
structure Kept (sb : Superblock) (fs : FileSystem) : Prop where
  consistent : Consistent sb (sb.image fs.store.disk)
  valid : ∀ i din, fs.valid i = some din → Loaded sb fs.store { din with inum := i }

/-- The failures that are not about blocks. -/
def Benign (e : Fault) : Prop := e ≠ .freeingFreeBlock ∧ e ≠ .bmapOutOfRange

theorem onStore_spec {α : Type} {m : Op α} {post : α → Store → Prop} {fails : Fault → Prop}
    (spec : Ensures m fs.store post fails) :
    Ensures (onStore m) fs (fun a fs' => post a fs'.store ∧ fs'.valid = fs.valid) fails := by
  unfold Ensures at spec ⊢
  cases result : m.run fs.store with
  | error e =>
    have ran : (onStore m).run fs = .error e := by
      change (m.run fs.store >>= _) = _
      rw [result]
      rfl
    rw [result] at spec
    rw [ran]
    exact spec
  | ok reached =>
    have ran : (onStore m).run fs = .ok (reached.1, { fs with store := reached.2 }) := by
      change (m.run fs.store >>= _) = _
      rw [result]
      rfl
    rw [result] at spec
    rw [ran]
    exact ⟨spec, rfl⟩

variable {s : Store} {i : ℕ} {ip : Inode}

theorem ilock_spec (known : i < sb.ninodes) :
    Ensures (ilock sb i) s (fun ip s' => s' = s ∧ ip.inum = i ∧ Loaded sb s ip)
      fun e => e = .ilockNoType ∧ ((sb.image s.disk).inode i).type = 0 := by
  have read : (sb.image s.disk).inode i = Dinode.decode (s.disk (sb.iblock i)) (i % ipb) := if_pos known
  rw [read]
  exact bread_bind (.ite (fun free => .throw ⟨rfl, free⟩) fun live => .pure ⟨rfl, rfl, known, read, live⟩)

theorem lock_spec (kept : Kept sb fs) (known : i < sb.ninodes) :
    Ensures (lock sb i) fs (fun ip fs' => fs' = fs ∧ ip.inum = i ∧ Loaded sb fs.store ip)
      fun e => e = .ilockNoType ∧ ((sb.image fs.store.disk).inode i).type = 0 := by
  refine .get_bind ?_
  cases found : fs.valid i with
  | some din => exact .pure ⟨rfl, rfl, kept.valid i din found⟩
  | none =>
    refine (onStore_spec (ilock_spec known)).mono ?_
    rintro ip ⟨store, valid⟩ ⟨⟨rfl, inum, loaded⟩, rfl⟩
    exact ⟨rfl, inum, loaded⟩

/-- What the work on a locked inode has to do. -/
def Keeps (sb : Superblock) (s : Store) (ip ip' : Inode) (s' : Store) : Prop :=
  Consistent sb (sb.image s'.disk) ∧ Loaded sb s' ip' ∧ ip'.inum = ip.inum ∧
    SameElsewhere (sb.image s.disk) ip.inum (sb.image s'.disk)

theorem Keeps.refl (consistent : Consistent sb (sb.image s.disk)) (loaded : Loaded sb s ip) :
    Keeps sb s ip ip s :=
  ⟨consistent, loaded, rfl, fun _ _ => rfl, fun _ _ _ => rfl⟩

/-- The other valid inodes stay those on the disk. -/
theorem Kept.elsewhere {s' : Store} (kept : Kept sb fs)
    (same : SameElsewhere (sb.image fs.store.disk) i (sb.image s'.disk))
    {j : ℕ} (other : j ≠ i) {din : Dinode} (valid : fs.valid j = some din) : Loaded sb s' { din with inum := j } := by
  have loaded := kept.valid j din valid
  exact ⟨loaded.known, (same.inode j other).trans loaded.current, loaded.live⟩

/-- The inode is allocated. -/
def Live (sb : Superblock) (fs : FileSystem) (i : ℕ) : Prop := ((sb.image fs.store.disk).inode i).type ≠ 0

variable {fails : Fault → Prop}

theorem onInode_spec (kept : Kept sb fs) (known : i < sb.ninodes) (free : ¬ Live sb fs i → fails .ilockNoType)
    {work : Inode → Op Inode}
    (works : ∀ ip, Loaded sb fs.store ip →
      Ensures (work ip) fs.store (fun ip' s' => Keeps sb fs.store ip ip' s') fails) :
    Ensures (onInode sb i work) fs (fun _ fs' => Kept sb fs' ∧ Live sb fs' i) fails := by
  refine ((lock_spec kept known).allow ?_).bind ?_
  · rintro _ ⟨rfl, unused⟩
    exact free (not_not.mpr unused)
  rintro ip fs ⟨rfl, rfl, loaded⟩
  refine (onStore_spec (works ip loaded)).bind ?_
  rintro ip' ⟨store, valid⟩ ⟨⟨consistent, loaded', inum, same⟩, rfl⟩
  refine Ensures.modify ⟨⟨consistent, fun j din found => ?_⟩, ?_⟩
  · by_cases here : j = ip.inum
    · subst here
      simp only [Function.update_self, Option.some.injEq] at found
      subst found
      rw [← inum]
      exact loaded'
    · simp only [Function.update_of_ne here] at found
      exact kept.elsewhere same here found
  · rw [Live, ← inum]
    dsimp only
    rw [loaded'.current]
    exact loaded'.live

section

variable (consistent : Consistent sb (sb.image s.disk))
include consistent

theorem keeps_writei (loaded : Loaded sb s ip) (src : ℕ → Option UInt8) (off n : UInt32) :
    Ensures (writei sb ip src off n) s (fun r s' => Keeps sb s ip r.1 s') fails := by
  refine ((writei_spec consistent loaded).mono ?_).lift
  rintro ⟨ip', r⟩ s' ⟨refused, accepted⟩
  by_cases outside : Refused ip off n
  · obtain ⟨rfl, same⟩ := refused outside
    obtain ⟨rfl, -⟩ := Prod.mk.inj same
    exact .refl consistent loaded
  · obtain ⟨tot, -, written⟩ := accepted outside
    exact ⟨written.consistent, written.loaded, by rw [written.kept], written.elsewhere⟩

theorem keeps_dirlink {dp : Inode} (loaded : Loaded sb s dp) (name : List UInt8) (inum : UInt32) :
    Ensures (dirlink sb dp name inum) s (fun r s' => Keeps sb s dp r.1 s') Benign := by
  refine ((dirlink_leaves consistent loaded name inum).mono ?_).allow ?_
  · rintro ⟨dp', r⟩ s' (⟨_, _, -, rfl, same⟩ | ⟨_, _, _, _, _, _, -, -, ⟨-, rfl, same⟩ | ⟨-, written, -⟩⟩)
    · obtain ⟨rfl, -⟩ := Prod.mk.inj same
      exact .refl consistent loaded
    · obtain ⟨rfl, -⟩ := Prod.mk.inj same
      exact .refl consistent loaded
    · exact ⟨written.consistent, written.loaded, by rw [written.kept], written.elsewhere⟩
  · rintro e (⟨rfl, -⟩ | ⟨rfl | rfl, -⟩) <;> exact ⟨by decide, by decide⟩

theorem keeps_update (loaded : Loaded sb s ip) (major minor nlink : Int16) :
    Ensures (update sb major minor nlink ip) s (fun ip' s' => Keeps sb s ip ip' s') Benign := by
  refine (iupdate_spec { ip with major, minor, nlink } loaded.known).lift.bind fun _ s' saved => .pure ?_
  have image : sb.image s'.disk = (sb.image s.disk).put ip.inum { ip.toDinode with major, minor, nlink } := saved
  refine ⟨?_, ⟨loaded.known, ?_, loaded.live⟩, rfl, ?_⟩
  · rw [image]
    apply consistent.put_kept <;> rw [loaded.current]
  · rw [image, put_inode_self]
  · rw [image]
    exact .put

end

/-- The calls that read, write or truncate an inode. -/
def Accesses (i : Fin sb.ninodes) : Call sb → Prop
  | .readi j _ _ _ | .writei j _ _ _ | .itrunc j => j = i
  | _ => False

/-- They fail only where the inode is not allocated. -/
theorem step_accesses {i : Fin sb.ninodes} (kept : Kept sb fs) (call : Call sb) (accesses : Accesses i call)
    (free : ¬ Live sb fs i → fails .ilockNoType) :
    Ensures (step call) fs (fun _ fs' => Kept sb fs' ∧ Live sb fs' i) fails := by
  cases call with
  | readi j dst off n =>
    obtain rfl := accesses
    refine onInode_spec kept j.isLt free fun ip loaded => ?_
    refine ((readi_spec kept.consistent loaded).lift).bind ?_
    rintro ⟨ip', _⟩ s ⟨rfl, same, -⟩
    obtain rfl : ip' = ip := same
    exact .pure (.refl kept.consistent loaded)
  | writei j src off n =>
    obtain rfl := accesses
    exact onInode_spec kept j.isLt free fun ip loaded => (keeps_writei kept.consistent loaded src off n).bind fun _ _ =>
      .pure
  | itrunc j =>
    obtain rfl := accesses
    refine onInode_spec kept j.isLt free fun ip loaded => ((itrunc_spec kept.consistent loaded).mono ?_).lift
    rintro ip' s' ⟨rfl, consistent, loaded', same⟩
    exact ⟨consistent, loaded', rfl, same⟩
  | _ => exact accesses.elim

/-- Whatever is read from an allocated inode, written to it or truncated, the calls all end. -/
theorem run_accesses {i : Fin sb.ninodes} (kept : Kept sb fs) (live : Live sb fs i) (calls : List (Call sb))
    (accesses : ∀ call ∈ calls, Accesses i call) : Ensures (run calls) fs (fun _ _ => True) fun _ => False := by
  induction calls generalizing fs with
  | nil => exact .pure trivial
  | cons call calls ih =>
    obtain ⟨first, rest⟩ := List.forall_mem_cons.mp accesses
    exact (step_accesses kept call first fun unused => unused live).bind fun _ _ kept => ih kept.1 kept.2 rest

theorem step_spec (kept : Kept sb fs) (call : Call sb) : Ensures (step call) fs (fun _ fs' => Kept sb fs') Benign := by
  have unused : Benign .ilockNoType := ⟨by decide, by decide⟩
  have accessed {i : Fin sb.ninodes} {call : Call sb} (accesses : Accesses i call) :
      Ensures (step call) fs (fun _ fs' => Kept sb fs') Benign :=
    (step_accesses kept call accesses fun _ => unused).mono fun _ _ => And.left
  cases call with
  | ialloc type =>
    refine (onStore_spec (ialloc_spec kept.consistent)).lift.bind ?_
    rintro r ⟨store, valid⟩ ⟨⟨consistent, none, some⟩, rfl⟩
    refine .pure ⟨consistent, fun j din found => ?_⟩
    cases r with
    | none =>
      obtain ⟨rfl, -⟩ := none rfl
      exact kept.valid j din found
    | some i =>
      obtain ⟨-, -, free, image⟩ := some i rfl
      have other : j ≠ i := by
        rintro rfl
        have loaded := kept.valid j din found
        exact loaded.live (loaded.current ▸ free)
      exact kept.elsewhere (image ▸ .put) other found
  | readi i _ _ _ | writei i _ _ _ | itrunc i =>
    exact accessed (i := i) (by exact rfl)
  | dirlink i name inum =>
    refine (onInode_spec kept i.isLt (fun _ => unused) fun ip loaded => ?_).mono fun _ _ => And.left
    exact (keeps_dirlink kept.consistent loaded name inum).bind fun _ _ => .pure
  | relink i major minor nlink =>
    refine (onInode_spec kept i.isLt (fun _ => unused) fun ip loaded => ?_).mono fun _ _ => And.left
    exact keeps_update kept.consistent loaded major minor nlink
  | iput i =>
    refine .get_bind ?_
    cases found : fs.valid i with
    | none => exact .pure kept
    | some din =>
      have loaded := kept.valid i din found
      -- the copy leaves the table; what stays valid is elsewhere
      have dropped {s' : Store} (consistent : Consistent sb (sb.image s'.disk))
          (same : SameElsewhere (sb.image fs.store.disk) i (sb.image s'.disk)) :
          Kept sb ⟨s', Function.update fs.valid i none⟩ := by
        refine ⟨consistent, fun j other valid => ?_⟩
        by_cases here : j = i
        · simp [here] at valid
        · simp only [Function.update_of_ne here] at valid
          exact kept.elsewhere same here valid
      refine .ite (fun unlinked => ?_) fun _ => ?_
      · refine (onStore_spec (free_spec kept.consistent loaded)).lift.bind ?_
        rintro _ ⟨store, valid⟩ ⟨⟨consistent, -, same⟩, rfl⟩
        exact Ensures.modify (dropped consistent same)
      · exact .pure_bind (Ensures.modify (dropped kept.consistent ⟨fun _ _ => rfl, fun _ _ _ => rfl⟩))

/-- After every run each block number in a slot lies in the data area and is in that slot alone, and the
bits set in the data area are those of these blocks; and no run frees a free block. -/
theorem block_ownership (sb : Superblock) (fs : FileSystem) (consistent : Consistent sb (sb.image fs.store.disk))
    (fresh : ∀ i, fs.valid i = none) (calls : List (Call sb)) :
    (∀ fs', (run calls).run fs = .ok ((), fs') → Consistent sb (sb.image fs'.store.disk)) ∧
      (run calls).run fs ≠ .error .freeingFreeBlock := by
  have start : Kept sb fs := ⟨consistent, fun i din found => by simp [fresh] at found⟩
  have runs := Ensures.forM_list (Kept sb) start (fun call fs kept => step_spec kept call) calls
  refine ⟨fun fs' ran => (runs.of_run ran).consistent, fun ran => (runs.of_error ran).1 rfl⟩

/-- A file is made, five bytes are written to it and it is truncated. -/
def firstFile : List (Call tiny) := [.ialloc 2, .writei ⟨1, by decide⟩ (fun _ => some 7) 0 5, .itrunc ⟨1, by decide⟩]

theorem firstFile_ends (s : Store) (consistent : Consistent tiny (tiny.image s.disk))
    (free : ((tiny.image s.disk).inode 1).type = 0) :
    ∃ fs', (run firstFile).run ⟨s, fun _ => none⟩ = .ok ((), fs') := by
  let fs : FileSystem := ⟨s, fun _ => none⟩
  have made :
      Ensures (step (.ialloc 2 : Call tiny)) fs (fun _ fs' => Kept tiny fs' ∧ Live tiny fs' 1) fun _ => False := by
    refine (onStore_spec (ialloc_spec (s := fs.store) consistent)).bind ?_
    rintro r ⟨store, valid⟩ ⟨⟨consistent, none, some⟩, rfl⟩
    refine .pure ⟨⟨consistent, fun _ _ found => by cases found⟩, ?_⟩
    cases r with
    | none => exact absurd free ((none rfl).2 1 le_rfl (by decide))
    | some i =>
      obtain ⟨low, high, -, image⟩ := some i rfl
      obtain rfl : 1 = i := Nat.le_antisymm low (Nat.le_of_lt_succ high)
      rw [Live, image, put_inode_self]
      decide
  have ends : Ensures (run firstFile) fs (fun _ _ => True) fun _ => False :=
    made.bind fun _ _ kept => run_accesses (i := ⟨1, by decide⟩) kept.1 kept.2 firstFile.tail
      (by simp [firstFile, Accesses])
  obtain ⟨_, fs', ran, -⟩ := ends.exists_run
  exact ⟨fs', ran⟩

theorem block_ownership_firstFile : ∃ fs', (run firstFile).run ⟨blank, fun _ => none⟩ = .ok ((), fs') ∧
    Consistent tiny (tiny.image fs'.store.disk) := by
  obtain ⟨fs', ran⟩ := firstFile_ends blank consistent_blank (free_blank 1)
  exact ⟨fs', ran, (block_ownership tiny ⟨blank, fun _ => none⟩ consistent_blank (fun _ => rfl) firstFile).1 fs' ran⟩

end FileSystem

end Xv6.Fs
