import Xv6.Proofs.Fs.DirectoryMap
import Xv6.Soundness.Fs.BlockOwnership
import Xv6.Soundness.Fs.CrashAtomicity

/-! # The file system after a crash

Between `begin_op` and `end_op` the file system works on the blocks that `bread` returns, and what it gives to
`log_write` is a transaction. No call changes a block without noting it, unless a copy from user space fails. Whatever a
crash leaves, the recovery therefore finds the image before the operation or the one behind it, and both are consistent.
-/

namespace Xv6.Fs

open Machine Image Function

variable {start : UInt32} {sb : Superblock} {s s' s'' : Store} {ip : Inode} {b : ℕ}

namespace Op

/-- A block changes only if it is noted. -/
def Noted (s s' : Store) : Prop := ∃ l, s'.logged = s.logged ++ l ∧ ∀ b ∉ l, s'.disk b = s.disk b

theorem Noted.refl (s : Store) : Noted s s := ⟨[], (List.append_nil _).symm, fun _ _ => rfl⟩

theorem Noted.trans (first : Noted s s') (second : Noted s' s'') : Noted s s'' := by
  obtain ⟨l, logged, same⟩ := first
  obtain ⟨l', logged', same'⟩ := second
  refine ⟨l ++ l', by rw [logged', logged, List.append_assoc], fun b absent => ?_⟩
  rw [List.mem_append, not_or] at absent
  rw [same' b absent.2, same b absent.1]

theorem Noted.logWrite (noted : Noted s s') (data : Block) : Noted s ⟨update s'.disk b data, s'.logged ++ [b]⟩ :=
  noted.trans ⟨[b], rfl, fun _ other => update_of_ne (List.ne_of_not_mem_cons other) ..⟩

/-- A program that notes what it changes, after others that did. -/
abbrev Notes {α : Type} (s : Store) (m : Op α) (s' : Store) : Prop := Ensures m s' (fun _ => Noted s) fun _ => True

section

variable (noted : Noted s s')
include noted

theorem bfree_notes : Notes s (bfree sb b) s' :=
  bread_bind (.ite (fun _ => logWrite_spec (noted.logWrite _)) fun _ => .throw trivial)

theorem bfreeAll_notes {slots : ℕ} {read : ℕ → Op UInt32} (reads : ∀ j s', Noted s s' → Notes s (read j) s') :
    Notes s (bfreeAll sb slots read) s' := by
  refine Ensures.forM_list (Noted s) noted (fun j s' noted => (reads j s' noted).bind fun a s'' noted => ?_) _
  exact .ite (fun _ => .pure noted) fun _ => bfree_notes noted

theorem iupdate_notes (ip : Inode) : Notes s (iupdate sb ip) s' := bread_bind (logWrite_spec (noted.logWrite _))

theorem itrunc_notes : Notes s (itrunc sb ip) s' := by
  have slots : Notes s (freeSlots sb ip) s' := by
    refine (bfreeAll_notes noted fun _ _ noted => .pure noted).bind fun _ _ noted =>
      .ite (fun _ => .pure noted) fun _ => ?_
    refine (bfreeAll_notes noted fun _ _ noted => ?_).bind fun _ _ noted => bfree_notes noted
    exact bread_bind (.pure noted)
  exact slots.bind fun _ _ noted => (iupdate_notes noted _).bind fun _ _ noted => .pure noted

end

theorem free_notes : Notes s (free sb ip) s := (itrunc_notes (.refl s)).bind fun _ _ noted => iupdate_notes noted _

theorem ialloc_notes (type : Int16) : Notes s (ialloc sb type) s := by
  refine .get_bind ?_
  dsimp only
  split
  · exact .pure (.refl s)
  · exact bread_bind (logWrite_bind (.pure ((Noted.refl s).logWrite _)))

/-- Where the whole source can be read, no block is torn. -/
theorem Leaves.toNoted {src : ℕ → Option UInt8} {n off tot k : ℕ} {l : List ℕ}
    (leaves : Leaves sb src n off s ip.inum s' tot k l) (readable : ∀ i < n, (src i).isSome) : Noted s s' := by
  obtain ⟨rfl, -⟩ := leaves.whole readable
  refine ⟨l, leaves.logged, fun b absent => (leaves.same b absent).elim id fun torn => torn.2.trans ?_⟩
  exact Vector.ext fun i inside => (Vector.getElem_ofFn ..).trans (if_neg (by omega))

section

variable (consistent : Consistent sb (sb.image s.disk)) (loaded : Loaded sb s ip)
include consistent loaded

theorem writei_notes {src : ℕ → Option UInt8} {off n : UInt32} (readable : ∀ i < n.toNat, (src i).isSome) :
    Notes s (writei sb ip src off n) s := by
  refine ((writei_leaves consistent loaded).mono ?_).lift
  rintro r s' ⟨refused, accepted⟩
  by_cases outside : Refused ip off n
  · rw [(refused outside).1]
    exact .refl s
  · obtain ⟨tot, k, l, -, -, leaves⟩ := accepted outside
    exact leaves.toNoted readable

theorem dirlink_notes (name : List UInt8) (inum : UInt32) : Notes s (dirlink sb ip name inum) s := by
  refine ((dirlink_leaves consistent loaded name inum).mono ?_).allow fun _ _ => trivial
  rintro r s' (⟨_, _, -, rfl, -⟩ | ⟨_, _, _, _, _, _, -, -, ⟨-, rfl, -⟩ | ⟨-, -, leaves, -⟩⟩)
  · exact .refl _
  · exact .refl _
  · exact leaves.toNoted (readable_encode (length_strncpy ..))

end

end Op

namespace FileSystem

open Op

/-- No copy fails. -/
def Call.Readable : Call sb → Prop
  | writei _ src _ n => ∀ i < n.toNat, (src i).isSome
  | _ => True

variable {fs fs' : FileSystem} {i : ℕ}

abbrev Notes (m : Sys Unit) (fs : FileSystem) : Prop :=
  Ensures m fs (fun _ fs' => Noted fs.store fs'.store) fun _ => True

theorem onInode_notes (kept : Kept sb fs) (known : i < sb.ninodes) {work : Inode → Op Inode}
    (works : ∀ ip, Loaded sb fs.store ip → Op.Notes fs.store (work ip) fs.store) : Notes (onInode sb i work) fs := by
  refine ((lock_spec kept known).allow fun _ _ => trivial).bind ?_
  rintro ip fs ⟨rfl, -, loaded⟩
  exact (onStore_spec (works ip loaded)).bind fun _ _ done => .modify done.1

theorem step_notes (kept : Kept sb fs) {call : Call sb} (readable : call.Readable) : Notes (step call) fs := by
  cases call with
  | ialloc type => exact (onStore_spec (ialloc_notes type)).bind fun _ _ done => .pure done.1
  | readi i dst off n =>
    refine onInode_notes kept i.isLt fun ip loaded => (readi_spec kept.consistent loaded).lift.bind ?_
    rintro _ s ⟨rfl, -⟩
    exact .pure (.refl _)
  | writei i src off n =>
    refine onInode_notes kept i.isLt fun ip loaded => ?_
    exact (writei_notes kept.consistent loaded readable).bind fun _ _ noted => .pure noted
  | itrunc i => exact onInode_notes kept i.isLt fun ip _ => itrunc_notes (.refl _)
  | dirlink i name inum =>
    refine onInode_notes kept i.isLt fun ip loaded => ?_
    exact (dirlink_notes kept.consistent loaded name inum).bind fun _ _ noted => .pure noted
  | relink i major minor nlink =>
    exact onInode_notes kept i.isLt fun ip _ => (iupdate_notes (.refl _) _).bind fun _ _ noted => .pure noted
  | iput i =>
    refine .get_bind ?_
    split
    · exact .pure (.refl _)
    · refine .ite (fun _ => ?_) fun _ => .pure_bind (.modify (.refl _))
      exact (onStore_spec free_notes).bind fun _ _ done => .modify done.1

theorem run_notes (kept : Kept sb fs) {calls : List (Call sb)} (readable : ∀ call ∈ calls, call.Readable) :
    Ensures (run calls) fs (fun _ fs' => Kept sb fs' ∧ Noted fs.store fs'.store) fun _ => True := by
  induction calls generalizing fs with
  | nil => exact .pure ⟨kept, .refl _⟩
  | cons call calls ih =>
    obtain ⟨first, rest⟩ := List.forall_mem_cons.mp readable
    refine (((step_spec kept call).allow fun _ _ => trivial).and (step_notes kept first)).bind ?_
    rintro _ fs' ⟨kept', noted⟩
    exact (ih kept' rest).mono fun _ _ done => ⟨done.1, noted.trans done.2⟩

theorem Kept.of_none (consistent : Consistent sb (sb.image s.disk)) : Kept sb ⟨s, fun _ => none⟩ :=
  ⟨consistent, fun _ _ found => by cases found⟩

theorem Kept.congr (kept : Kept sb fs) (image : sb.image fs'.store.disk = sb.image fs.store.disk)
    (valid : fs'.valid = fs.valid) :
    Kept sb fs' := by
  refine ⟨image ▸ kept.consistent, fun i din found => ?_⟩
  have loaded := kept.valid i din (valid ▸ found)
  exact ⟨loaded.known, image ▸ loaded.current, loaded.live⟩

end FileSystem

/-- The blocks of a disk, by their numbers. -/
def blocks (disk : Disk) (b : ℕ) : Block := if b < UInt32.size then disk (UInt32.ofNat b) else Vector.replicate _ 0

/-- The volume, with the in-memory inodes. -/
structure Mounted where
  volume : Volume
  valid : ℕ → Option Dinode

namespace Mounted

open FileSystem

/-- Calls lead to `fs`, and `tx` has the blocks they noted, with the data at the end. -/
structure Operates (sb : Superblock) (m : Mounted) (tx : Transaction start) (fs : FileSystem) : Prop where
  ran : ∃ calls : List (Call sb), (∀ call ∈ calls, call.Readable) ∧
    (FileSystem.run calls).run ⟨⟨blocks m.volume.cache, []⟩, m.valid⟩ = .ok ((), fs)
  noted : fs.store.logged = tx.writes.map (·.1.toNat)
  data : ∀ write ∈ tx.writes, write.2 = fs.store.disk write.1.toNat

/-- An operation ends, or a crash cuts it short; then nothing is in memory. -/
inductive Step (start : UInt32) (sb : Superblock) (m : Mounted) : Mounted → Prop
  | endOp {tx : Transaction start} {fs : FileSystem} {v : Volume} (operates : Operates sb m tx fs)
      (ended : m.volume.step? (.transact tx) = some v) : Step start sb m ⟨v, fs.valid⟩
  | crash {tx : Transaction start} {fs : FileSystem} {v : Volume} {count : ℕ} {retries : List ℕ}
      (operates : Operates sb m tx fs) (ended : m.volume.step? (.crash tx count retries) = some v) : Step start sb m ⟨v,
        fun _ => none⟩

/-- Between operations the log is empty and the image consistent. -/
structure Sound (start : UInt32) (sb : Superblock) (m : Mounted) : Prop where
  settled : Settled start m.volume m.volume.disk
  kept : Kept sb ⟨⟨blocks m.volume.disk, []⟩, m.valid⟩

variable {m m' : Mounted} {tx : Transaction start} {fs : FileSystem} {disk disk' : Disk}

theorem Operates.kept (operates : Operates sb m tx fs) (sound : Sound start sb m) :
    Kept sb ⟨⟨blocks (replay m.volume.disk tx.writes), []⟩, fs.valid⟩ := by
  obtain ⟨⟨calls, readable, ran⟩, logged, data⟩ := operates
  rw [sound.settled.cache] at ran
  obtain ⟨kept, l, noted, same⟩ := (run_notes sound.kept readable).of_run ran
  obtain rfl : l = _ := noted.symm.trans logged
  refine kept.congr (congrArg sb.image (funext fun b => ?_)) rfl
  change blocks (replay m.volume.disk tx.writes) b = _
  by_cases listed : b ∈ tx.writes.map (·.1.toNat)
  · obtain ⟨write, member, rfl⟩ := List.mem_map.mp listed
    rw [blocks, if_pos write.1.toNat_lt, UInt32.ofNat_toNat]
    exact replay_eq (fun other member' hit => by rw [data other member', hit]) (.inl ⟨write, member, rfl⟩)
  · refine (ite_congr rfl (fun small => ?_) fun _ => rfl).trans (same b listed).symm
    refine replay_of_not_written fun write member hit => listed (List.mem_map.mpr ⟨write, member, ?_⟩)
    rw [hit, UInt32.toNat_ofNat_of_lt' small]

section

variable (apart : start.toNat + logBlocks < sb.inodestart)
include apart

/-- The log is no part of an image. -/
theorem image_congr (home : ∀ blockno, ¬ InLog start blockno → disk' blockno = disk blockno) :
    sb.image (blocks disk') = sb.image (blocks disk) := by
  have same (b : ℕ) (low : sb.inodestart ≤ b) : blocks disk' b = blocks disk b := by
    refine ite_congr rfl (fun small => home _ fun inside => ?_) fun _ => rfl
    have value := UInt32.toNat_ofNat_of_lt' small
    rw [InLog, UInt32.toNat_sub_of_le _ _ (UInt32.le_iff_toNat_le.mpr (by omega)), value] at inside
    omega
  have bitmap : sb.inodestart ≤ sb.bmapstart := (Nat.le_add_right ..).trans (Nat.le_of_succ_le sb.inodes_end)
  have data := sb.bmapstart_lt_datastart
  ext1 <;> funext x
  · exact congrArg (fun data : Block => decide (x < sb.size) && data.bit (x % bpb))
      (same _ (bitmap.trans (sb.le_bblock x)))
  · exact ite_congr rfl (fun _ => congrArg (Dinode.decode · (x % ipb)) (same _ (Nat.le_add_left ..))) fun _ => rfl
  · exact ite_congr rfl (fun low => same x (by omega)) fun _ => rfl

theorem Sound.of_settled {v : Volume} {valid : ℕ → Option Dinode} (settled : Settled start v disk)
    (kept : Kept sb ⟨⟨blocks disk, []⟩, valid⟩) : Sound start sb ⟨v, valid⟩ :=
  ⟨⟨settled.log, settled.cache, settled.head, fun _ _ => rfl⟩, kept.congr (image_congr apart settled.home) rfl⟩

theorem Sound.step (sound : Sound start sb m) (step : Step start sb m m') : Sound start sb m' := by
  cases step with
  | @endOp tx fs v operates ended =>
    obtain ⟨next, same, settled⟩ := sound.settled.step? (.transact tx)
    cases ended.symm.trans same
    exact .of_settled apart settled (operates.kept sound)
  | @crash tx fs v count retries operates ended =>
    obtain ⟨next, same, settled⟩ := sound.settled.step? (.crash tx count retries)
    cases ended.symm.trans same
    rw [Event.survivors] at settled
    split at settled
    · exact .of_settled apart settled (.of_none (operates.kept sound).consistent)
    · exact .of_settled apart settled (.of_none sound.kept.consistent)

/-- From a disk that holds a consistent image on, however operations end or crash, a consistent image is on the disk. -/
theorem crash_consistency {image : Disk} {boot : Volume} (holds : Holds start image disk)
    (consistent : Consistent sb (sb.image (blocks disk))) (booted : Volume.initlog? start image = some boot)
    (steps : Relation.ReflTransGen (Step start sb) ⟨boot, fun _ => none⟩ m) :
    Consistent sb (sb.image (blocks m.volume.disk)) := by
  obtain ⟨v, recovered, settled, -⟩ := holds.initlog?
  cases booted.symm.trans recovered
  have sound : Sound start sb m := by
    induction steps with
    | refl => exact .of_settled apart settled (.of_none consistent)
    | tail _ step sound => exact sound.step apart step
  exact sound.kept.consistent

end

/-- A log, one block of inodes, one of the bitmap and one of data. -/
def small : Superblock := ⟨36, 1, 2, 33, 34, by decide, by decide, by decide⟩

def fresh : Disk := fun b =>
  if b = 34 then Vector.ofFn fun k => if k.val < 4 then 255 else if k.val = 4 then 7 else 0 else .replicate _ 0

theorem type_fresh (i : ℕ) : ((small.image (blocks fresh)).inode i).type = 0 := by
  by_cases known : i < small.ninodes
  · revert i
    decide +kernel
  · simp [Superblock.image, known, Dinode.zero]

theorem consistent_fresh : Consistent small (small.image (blocks fresh)) := by
  have bits : (∀ b < 35, (small.image (blocks fresh)).bit b = true) ∧ (small.image (blocks fresh)).bit 35 = false := by
    decide +kernel
  have empty (x : ℕ × ℕ) : (small.image (blocks fresh)).held x = none :=
    held_eq_none.mpr (slot_of_free (type_fresh _) _)
  refine ⟨⟨⟨fun b => ?_, fun x _ b held => by simp [empty] at held⟩, bits.1⟩,
    fun i _ live => (live (type_fresh i)).elim⟩
  simp only [empty, reduceCtorEq, exists_false, iff_false]
  rintro ⟨low, high, used⟩
  obtain rfl : b = 35 := Nat.le_antisymm (Nat.le_of_lt_succ high) low
  exact Bool.false_ne_true (bits.2.symm.trans used)

/-- One `log_write` of the block of inodes. -/
def inodeWrite (data : Block) : Transaction 2 := ⟨[(⟨33, by decide⟩, data)], fun past update rest split => by
  have length := congrArg List.length split
  obtain rfl : past = [] := List.eq_nil_of_length_eq_zero (by simp at length; omega)
  decide⟩

theorem ialloc_logged (type : Int16) :
    Ensures (Op.ialloc sb type) s (fun r s' => s'.logged = s.logged ++ (r.map sb.iblock).toList) fun _ => True := by
  refine .get_bind ?_
  dsimp only
  split
  · exact .pure (List.append_nil _).symm
  · exact Op.bread_bind (Op.logWrite_bind (.pure rfl))

/-- `ialloc` on a disk without inodes in use. -/
theorem exists_ialloc {disk : Disk} (same : small.image (blocks disk) = small.image (blocks fresh)) :
    ∃ fs, (FileSystem.run ([.ialloc 2] : List (FileSystem.Call small))).run ⟨⟨blocks disk, []⟩, fun _ => none⟩ =
      .ok ((), fs) ∧ fs.store.logged = [33] ∧ ((small.image fs.store.disk).inode 1).type = 2 := by
  have op : Ensures (Op.ialloc small 2) ⟨blocks disk, []⟩
      (fun _ s => s.logged = [33] ∧ ((small.image s.disk).inode 1).type = 2) fun _ => False := by
    refine ((Op.ialloc_spec (same ▸ consistent_fresh)).and (ialloc_logged 2)).mono ?_
    rintro (_ | i) s ⟨⟨-, absent, allocated⟩, logged⟩
    · exact absurd (same ▸ type_fresh 1) ((absent rfl).2 1 le_rfl (by decide))
    · obtain ⟨low, high, -, image⟩ := allocated i rfl
      obtain rfl : i = 1 := Nat.le_antisymm (Nat.le_of_lt_succ high) low
      exact ⟨logged, by rw [image, put_inode_self]⟩
  have spec : Ensures (FileSystem.run ([.ialloc 2] : List (FileSystem.Call small))) ⟨⟨blocks disk, []⟩, fun _ => none⟩
      (fun _ fs => fs.store.logged = [33] ∧ ((small.image fs.store.disk).inode 1).type = 2) fun _ => False :=
    ((onStore_spec op).bind fun _ _ done => .pure done.1).bind fun _ _ done => .pure done
  obtain ⟨_, fs, ran, done⟩ := spec.exists_run
  exact ⟨fs, ran, done⟩

/-- `ialloc`, and a crash behind the write of the header, the second write of the commit. The first recovery is cut
short when it has installed the block; the second one ends, and the inode is there. -/
theorem crash_consistency_fresh : ∃ boot v fs, Volume.initlog? 2 fresh = some boot ∧
    (FileSystem.run ([.ialloc 2] : List (FileSystem.Call small))).run ⟨⟨blocks boot.cache, []⟩, fun _ => none⟩ =
      .ok ((), fs) ∧ fs.store.logged = [33] ∧ boot.step? (.crash (inodeWrite (fs.store.disk 33)) 2 [1]) = some v ∧
    ((small.image (blocks v.disk)).inode 1).type = 2 ∧ Consistent small (small.image (blocks v.disk)) := by
  have clean : Holds 2 fresh fresh := .of_clean (by decide +kernel) fun _ _ => rfl
  obtain ⟨boot, booted, settled, -⟩ := clean.initlog?
  have apart : (2 : UInt32).toNat + logBlocks < small.inodestart := by decide
  have same : small.image (blocks boot.cache) = small.image (blocks fresh) := by
    rw [settled.cache]
    exact image_congr apart settled.home
  obtain ⟨fs, ran, logged, type⟩ := exists_ialloc same
  generalize written : inodeWrite (fs.store.disk 33) = tx
  have writes : tx.writes = [(33, fs.store.disk 33)] := by rw [← written]; rfl
  have size : tx.size = 1 := by rw [← written]; rfl
  obtain ⟨v, crashed, recovered⟩ := settled.step? (.crash tx 2 [1])
  have operates : Operates small ⟨boot, fun _ => none⟩ tx fs := by
    refine ⟨⟨_, fun call member => ?_, ran⟩, ?_, fun write member => ?_⟩
    · rw [List.mem_singleton.mp member]
      trivial
    · rw [logged, writes]
      rfl
    · rw [writes] at member
      rw [List.mem_singleton.mp member]
      rfl
  have step : Step 2 small ⟨boot, fun _ => none⟩ ⟨v, fun _ => none⟩ := .crash operates crashed
  have sound := crash_consistency apart clean consistent_fresh booted (.single step)
  have installed : v.disk 33 = fs.store.disk 33 := by
    rw [recovered.home 33 (by decide), Event.survivors, if_pos (by rw [size]; decide), contents,
      List.foldl_cons, writes, replay_cons, List.foldl_nil, replay_nil, update_self]
  have kept : ((small.image (blocks v.disk)).inode 1).type = 2 := by
    rw [← type]
    change (Dinode.decode (blocks v.disk 33) 1).type = (Dinode.decode (fs.store.disk 33) 1).type
    rw [blocks, if_pos (by decide), show UInt32.ofNat 33 = 33 from rfl, installed]
  exact ⟨boot, v, fs, booted, ran, logged, written ▸ crashed, kept, sound⟩

end Mounted

end Xv6.Fs
