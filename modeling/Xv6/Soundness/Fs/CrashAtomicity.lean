import Xv6.Proofs.Fs.Log

/-! # Crash atomicity of the redo log

A disk holds some contents if a completed recovery gives them to the home blocks. Every write of a
recovery keeps what the disk holds, and every write of a commit but one does; that one write, of the
header that lists the blocks, replaces the old contents by the new ones, and from there on the commit
writes what a recovery would. So whatever prefix of the writes a crash leaves, and however often the
recovery is cut short, whole transactions survive.
-/

namespace Xv6.Fs

open Machine Volume List Volume

variable {start : UInt32}

/-- A completed recovery of the disk gives these contents to the home blocks. -/
def Holds (start : UInt32) (disk data : Disk) : Prop :=
  ∃ lh, decodeHead? (disk start) = some lh ∧ (∀ blockno ∈ lh, ¬ InLog start blockno) ∧
    ∀ blockno, ¬ InLog start blockno → replay disk (installs start lh disk) blockno = data blockno

/-- A disk whose header lists nothing holds what it contains. -/
theorem Holds.of_clean {disk data : Disk} (clean : decodeHead? (disk start) = some [])
    (home : ∀ blockno, ¬ InLog start blockno → disk blockno = data blockno) : Holds start disk data :=
  ⟨[], clean, by simp, home⟩

theorem Holds.congr {disk data other : Disk} (holds : Holds start disk data)
    (same : ∀ blockno, ¬ InLog start blockno → data blockno = other blockno) : Holds start disk other := by
  obtain ⟨lh, decoded, home, redone⟩ := holds
  exact ⟨lh, decoded, home, fun blockno outside => (redone blockno outside).trans (same blockno outside)⟩

/-- Between transactions nothing is logged, the cache shows the disk, and the header is clear. -/
structure Settled (start : UInt32) (v : Volume) (data : Disk) : Prop where
  log : v.log = ⟨start, 0, false, []⟩
  cache : v.cache = v.disk
  head : decodeHead? (v.disk start) = some []
  home : ∀ blockno, ¬ InLog start blockno → v.disk blockno = data blockno

theorem ne_start_of_home {blockno : UInt32} (home : ¬ InLog start blockno) : start ≠ blockno :=
  fun same => home (same ▸ start_inLog start)

section Recovery
variable {disk data : Disk} {lh : List UInt32}

/-- A whole recovery clears the header and installs what the log has. -/
theorem replay_recoveryTrace
    (redone : ∀ blockno, ¬ InLog start blockno → replay disk (installs start lh disk) blockno = data blockno) :
    decodeHead? (replay disk (recoveryTrace start lh disk) start) = some [] ∧
      ∀ blockno, ¬ InLog start blockno → replay disk (recoveryTrace start lh disk) blockno = data blockno := by
  simp only [recoveryTrace, replay_append, replay_cons, replay_nil, Function.update_self]
  refine ⟨decodeHead?_encodeHead _ (by simp), fun blockno home => ?_⟩
  rw [Function.update_of_ne (ne_start_of_home home).symm]
  exact redone blockno home

/-- Every prefix of a recovery keeps what the disk holds. -/
theorem Holds.take_recoveryTrace (decoded : decodeHead? (disk start) = some lh)
    (home : ∀ blockno ∈ lh, ¬ InLog start blockno)
    (redone : ∀ blockno, ¬ InLog start blockno → replay disk (installs start lh disk) blockno = data blockno)
    (count : ℕ) : Holds start (replay disk ((recoveryTrace start lh disk).take count)) data := by
  rcases Nat.lt_or_ge (installs start lh disk).length count with finished | unfinished
  · obtain ⟨cleared, installed⟩ := replay_recoveryTrace redone
    rw [take_of_length_le (by rw [recoveryTrace, length_append, length_singleton]; omega)]
    exact .of_clean cleared installed
  · rw [recoveryTrace, take_append_of_le_length unfinished]
    have listable : Listable start lh := ⟨home, length_of_decodeHead? decoded⟩
    have again : installs start lh (replay disk ((installs start lh disk).take count)) =
        installs start lh disk :=
      map_congr_left fun entry member => congrArg (Prod.mk entry.1)
        (replay_take_installs home count (slot_inLog (lt_logBlocks_of_mem listable member)))
    refine ⟨lh, ?_, home, fun blockno outside => ?_⟩
    · rwa [replay_take_installs home count (start_inLog start)]
    · rw [again, replay_replay_take]
      exact redone blockno outside

/-- Recovery completes, and a crash after any of its writes leaves a disk that holds the same. -/
theorem Holds.initlog? (holds : Holds start disk data) :
    ∃ v, initlog? start disk = some v ∧ Settled start v data ∧
      ∀ count, Holds start (v.diskAfter count) data := by
  obtain ⟨lh, decoded, home, redone⟩ := holds
  obtain ⟨pins, recovered⟩ := initlog?_eq decoded home
  obtain ⟨cleared, installed⟩ := replay_recoveryTrace redone
  exact ⟨_, recovered, ⟨rfl, rfl, cleared, installed⟩, .take_recoveryTrace decoded home redone⟩

/-- Any number of crashed recoveries and a completed one settle on what the disk held. -/
theorem Holds.reboot? (holds : Holds start disk data) (retries : List ℕ) :
    ∃ v, reboot? start disk retries = some v ∧ Settled start v data := by
  induction retries generalizing disk with
  | nil =>
    obtain ⟨v, recovered, settled, _⟩ := holds.initlog?
    exact ⟨v, recovered, settled⟩
  | cons count rest ih =>
    obtain ⟨v, recovered, _, after⟩ := holds.initlog?
    obtain ⟨final, finished, settled⟩ := ih (after count)
    exact ⟨final, by simp [reboot?, recovered, finished], settled⟩

end Recovery

section Commit
variable {v : Volume} {disk data : Disk}

section

variable (listable : Listable v.log.start v.log.lh)
include listable

private theorem replay_take_logCopies (disk : Disk) (count : ℕ)
    {blockno : UInt32} (home : ¬ InLog v.log.start blockno) :
    replay disk (v.logCopies.take count) blockno = disk blockno :=
  replay_of_not_written fun _ member same =>
    home (same ▸ (inLog_of_mem_logCopies listable (mem_of_mem_take member)).1)

/-- Redoing a committed log gives the home blocks their cached data, if the others had it already. -/
theorem redone_committedDisk (agree : ∀ blockno, blockno ∉ v.log.lh → v.cache blockno = disk blockno)
    (blockno : UInt32) (home : ¬ InLog v.log.start blockno) :
    replay (v.committedDisk disk) (installs v.log.start v.log.lh (v.committedDisk disk)) blockno =
      v.cache blockno := by
  rw [installs_committedDisk listable]
  refine replay_eq ?_ ?_
  · intro write member same
    obtain ⟨other, _, rfl⟩ := mem_map.mp member
    exact congrArg v.cache same
  · by_cases listed : blockno ∈ v.log.lh
    · exact .inl ⟨_, mem_map_of_mem listed, rfl⟩
    · have untouched := replay_take_logCopies listable disk v.logCopies.length home
      rw [take_length] at untouched
      rw [committedDisk, Function.update_of_ne (ne_start_of_home home).symm, untouched]
      exact .inr (agree blockno listed).symm

/-- A whole commit leaves the cached data in the home blocks and a header that lists nothing. -/
theorem replay_commitTrace (agree : ∀ blockno, blockno ∉ v.log.lh → v.cache blockno = disk blockno) :
    decodeHead? (replay disk v.commitTrace v.log.start) = some [] ∧
      ∀ blockno, ¬ InLog v.log.start blockno → replay disk v.commitTrace blockno = v.cache blockno := by
  rw [commitTrace_eq listable disk, replay_append, replay_cons]
  exact replay_recoveryTrace (redone_committedDisk listable agree)

/-- A crash after any prefix of a commit's writes leaves the old contents until the header is written,
and the new ones from then on. -/
theorem holds_commitTrace (clean : decodeHead? (disk v.log.start) = some [])
    (old : ∀ blockno, ¬ InLog v.log.start blockno → disk blockno = data blockno)
    (agree : ∀ blockno, blockno ∉ v.log.lh → v.cache blockno = disk blockno) (count : ℕ) :
    Holds v.log.start (replay disk (v.commitTrace.take count))
      (if v.log.lh.length < count then v.cache else data) := by
  have copies : v.logCopies.length = v.log.lh.length := by simp [logCopies]
  rcases Nat.lt_or_ge v.log.lh.length count with committed | uncommitted
  · obtain ⟨rest, rfl⟩ : ∃ rest, count = v.logCopies.length + (rest + 1) :=
      ⟨count - v.log.lh.length - 1, by omega⟩
    rw [if_pos committed, commitTrace_eq listable disk, take_length_add_append, take_succ_cons,
      replay_append, replay_cons]
    refine .take_recoveryTrace ?_ listable.home (redone_committedDisk listable agree) rest
    rw [committedDisk, Function.update_self]
    exact decodeHead?_encodeHead _ listable.fits
  · rw [if_neg (by omega), commitTrace, take_append_of_le_length (by omega)]
    refine .of_clean ?_ fun blockno home => ?_
    · rwa [replay_of_not_written fun write member =>
        (inLog_of_mem_logCopies listable (mem_of_mem_take member)).2]
    · rw [replay_take_logCopies listable disk count home, old blockno home]

end

end Commit

section Transaction
variable {source v : Volume} {past : List (HomeBlock start × Block)}

/-- Inside a transaction the log lists each block written so far once, the cache shows the writes, and
the disk is untouched. -/
structure Writing (source v : Volume) (past : List (HomeBlock start × Block)) : Prop where
  log : v.log = ⟨start, 1, false, v.log.lh⟩
  nodup : v.log.lh.Nodup
  fits : v.log.lh.length ≤ logBlocks
  listed : ∀ blockno, blockno ∈ v.log.lh ↔ blockno ∈ (past.map (·.1)).map Subtype.val
  cache : v.cache = replay source.cache (past.map fun update => (update.1, update.2))
  image : v.image = source.image
  writes : v.writes = source.writes

theorem Writing.length (writing : Writing source v past) :
    v.log.lh.length = (past.map (·.1)).dedup.length := by
  have same : v.log.lh.Perm ((past.map (·.1)).dedup.map Subtype.val) := by
    rw [perm_ext_iff_of_nodup writing.nodup ((nodup_dedup _).map Subtype.val_injective)]
    intro blockno
    rw [writing.listed, mem_map, mem_map]
    simp only [mem_dedup]
  rw [same.length_eq, length_map]

/-- A block is listed by its first `log_write` and absorbed by later ones. -/
theorem Writing.logWrite (writing : Writing source v past) (room : (past.map (·.1)).dedup.length < logBlocks)
    (update : HomeBlock start × Block) :
    ∃ next, v.logWrite update.1 update.2 = .ok next ∧ Writing source next (past ++ [update]) := by
  have begun : 1 ≤ v.log.outstanding := by
    rw [writing.log]
  have accepted := Log.logWrite_eq (writing.length ▸ room) begun update.1
  have listed : ∀ blockno, blockno ∈ absorb v.log.lh update.1 ↔
      blockno ∈ ((past ++ [update]).map (·.1)).map Subtype.val := by
    intro blockno
    rw [mem_absorb, writing.listed]
    simp
  have cache : Function.update v.cache update.1 update.2 =
      replay source.cache ((past ++ [update]).map fun update => (update.1, update.2)) := by
    simp [writing.cache]
  have log : ({ v.log with lh := absorb v.log.lh update.1 } : Log) =
      ⟨start, 1, false, absorb v.log.lh update.1⟩ := by
    rw [writing.log]
  have fits : (absorb v.log.lh update.1).length ≤ logBlocks :=
    (length_absorb_le _ _).trans (writing.length ▸ room)
  simp only [Volume.logWrite, accepted]
  refine ⟨_, rfl, ?_⟩
  split
  · exact ⟨log, nodup_absorb writing.nodup _, fits, listed, cache, writing.image, writing.writes⟩
  · exact ⟨log, nodup_absorb writing.nodup _, fits, listed, cache, writing.image, writing.writes⟩

theorem logWrites_ok (tx : Transaction start) (opened : source.log = ⟨start, 1, false, []⟩) :
    ∃ v, source.logWrites tx.updates = .ok v ∧ Writing source v tx.updates := by
  suffices prefixes : ∀ past rest, tx.updates = past ++ rest →
      ∃ v, source.logWrites past = .ok v ∧ Writing source v past from
    prefixes tx.updates [] (by simp)
  intro past
  induction past using reverseRecOn with
  | nil =>
    intro rest _
    exact ⟨source, rfl, by simp [opened], by simp [opened], by simp [opened], by simp [opened], rfl, rfl, rfl⟩
  | append_singleton past update ih =>
    intro rest split
    obtain ⟨v, reached, writing⟩ := ih (update :: rest) (by simpa using split)
    have room := tx.fits past update rest (by simpa using split)
    obtain ⟨next, accepted, extended⟩ := writing.logWrite room update
    refine ⟨next, ?_, extended⟩
    rw [logWrites] at reached ⊢
    rw [foldlM_append, reached]
    simp only [foldlM_cons, foldlM_nil, bind_pure]
    exact accepted

/-- The last operation has ended and the commit is about to run: outside the listed blocks the cache
shows the disk, and on the home blocks it shows the new contents. -/
structure Prepared (start : UInt32) (source ready : Volume) (after : Disk) : Prop where
  log : ready.log = ⟨start, 0, true, ready.log.lh⟩
  listable : Listable start ready.log.lh
  image : ready.image = source.image
  writes : ready.writes = source.writes
  agree : ∀ blockno, blockno ∉ ready.log.lh → ready.cache blockno = source.disk blockno
  renewed : ∀ blockno, ¬ InLog start blockno → ready.cache blockno = after blockno

theorem Writing.prepared {data : Disk} (settled : Settled start source data) {tx : Transaction start}
    (writing : Writing { source with log := ⟨start, 1, false, []⟩ } v tx.updates) :
    Prepared start source { v with log := ⟨start, 0, true, v.log.lh⟩ } (replay data tx.writes) := by
  have cached : v.cache = replay source.disk tx.writes := by
    rw [← settled.cache]
    exact writing.cache
  refine ⟨rfl, ⟨fun blockno member => ?_, writing.fits⟩, writing.image, writing.writes,
    fun blockno unlisted => ?_, fun blockno home => ?_⟩
  · obtain ⟨home, _, rfl⟩ := mem_map.mp ((writing.listed blockno).mp member)
    exact home.property
  · refine (congrFun cached blockno).trans (replay_of_not_written fun write member same => ?_)
    obtain ⟨update, updated, rfl⟩ := mem_map.mp member
    exact unlisted ((writing.listed blockno).mpr
      (same ▸ mem_map_of_mem (mem_map_of_mem updated)))
  · exact (congrFun cached blockno).trans (replay_congr (.inr (settled.home blockno home)))

namespace Prepared

variable {ready : Volume} {data after : Disk}

theorem base (prepared : Prepared start source ready after) : ready.log.start = start := by
  rw [prepared.log]

theorem endCommit_log (prepared : Prepared start source ready after) :
    ready.endCommit.log = ⟨start, 0, false, []⟩ := by
  rw [endCommit, commit_log, prepared.log]
  rfl

theorem commit_nil (settled : Settled start source data) (prepared : Prepared start source ready after)
    (empty : ready.log.lh = []) :
    Settled start ready.endCommit after ∧
      ∀ count, Holds start (ready.endCommit.diskAfter (source.writes.length + count))
        (if ready.log.lh.length < count then after else data) := by
  have idle : ready.endCommit = { ready with log := ready.log.endCommit } := by
    simp [endCommit, commit, empty]
  have disk : ready.disk = source.disk := by simp only [Volume.disk, prepared.image, prepared.writes]
  have cache : ready.cache = source.disk := funext fun blockno => prepared.agree blockno (by simp [empty])
  have same : ∀ blockno, ¬ InLog start blockno → source.disk blockno = after blockno :=
    fun blockno home => (congrFun cache blockno).symm.trans (prepared.renewed blockno home)
  have log := prepared.endCommit_log
  rw [idle] at log ⊢
  constructor
  · exact ⟨log, cache.trans disk.symm, disk ▸ settled.head, disk ▸ same⟩
  · intro count
    have untouched : ({ ready with log := ready.log.endCommit } : Volume).diskAfter
        (source.writes.length + count) = source.disk := by
      rw [diskAfter, take_of_length_le (by simp [prepared.writes]), ← disk]
      rfl
    rw [untouched]
    split
    · exact .of_clean settled.head same
    · exact .of_clean settled.head settled.home

/-- Any other commit appends its writes to those issued before it. -/
theorem endCommit_eq (prepared : Prepared start source ready after) (pending : ready.log.lh.length > 0) :
    ready.endCommit.cache = replay ready.cache ready.commitTrace ∧
      ready.endCommit.disk = replay source.disk ready.commitTrace ∧
      ∀ count, ready.endCommit.diskAfter (source.writes.length + count) =
        replay source.disk (ready.commitTrace.take count) := by
  obtain ⟨pins, committed⟩ := commit_eq (prepared.base ▸ prepared.listable) pending
  have disk : replay ready.image ready.writes = source.disk := by
    rw [prepared.image, prepared.writes, Volume.disk]
  rw [endCommit, committed, ← disk, ← prepared.writes]
  refine ⟨rfl, replay_append _ _ _, fun count => ?_⟩
  simp only [diskAfter, puts, clearHead, take_length_add_append, replay_append]

theorem settles (prepared : Prepared start source ready after) (pending : ready.log.lh.length > 0) :
    Settled start ready.endCommit after := by
  obtain ⟨cache, disk, _⟩ := prepared.endCommit_eq pending
  obtain ⟨cleared, installed⟩ := replay_commitTrace (prepared.base ▸ prepared.listable) prepared.agree
  rw [prepared.base] at cleared installed
  refine ⟨prepared.endCommit_log, ?_, disk ▸ cleared, fun blockno home => ?_⟩
  · rw [cache, disk]
    funext blockno
    refine replay_congr ?_
    by_cases listed : blockno ∈ ready.log.lh
    · exact .inl ⟨(blockno, ready.cache blockno), by simp [commitTrace, homeCopies, listed], rfl⟩
    · exact .inr (prepared.agree blockno listed)
  · rw [disk, installed blockno home]
    exact prepared.renewed blockno home

theorem holds (settled : Settled start source data) (prepared : Prepared start source ready after)
    (pending : ready.log.lh.length > 0) (count : ℕ) :
    Holds start (ready.endCommit.diskAfter (source.writes.length + count))
      (if ready.log.lh.length < count then after else data) := by
  have held := holds_commitTrace (prepared.base ▸ prepared.listable) (prepared.base ▸ settled.head)
    (prepared.base ▸ settled.home) prepared.agree count
  rw [prepared.base] at held
  rw [(prepared.endCommit_eq pending).2.2 count]
  refine held.congr fun blockno home => ?_
  split
  · exact prepared.renewed blockno home
  · rfl

/-- A commit settles on the new contents, and a crash after any number of its writes leaves the old or
the new ones. -/
theorem commit (settled : Settled start source data) (prepared : Prepared start source ready after) :
    Settled start ready.endCommit after ∧
      ∀ count, Holds start (ready.endCommit.diskAfter (source.writes.length + count))
        (if ready.log.lh.length < count then after else data) := by
  rcases Nat.eq_zero_or_pos ready.log.lh.length with empty | pending
  · exact prepared.commit_nil settled (length_eq_zero_iff.mp empty)
  · exact ⟨prepared.settles pending, prepared.holds settled pending⟩

end Prepared

/-- A transaction runs to its end and settles on its writes; a crash after any number of its writes
leaves it whole or absent. -/
theorem Settled.transact? {data : Disk} (settled : Settled start source data) (tx : Transaction start) :
    ∃ next, source.transact? tx = some next ∧ Settled start next (replay data tx.writes) ∧
      ∀ count, Holds start (next.diskAfter (source.writes.length + count))
        (if tx.size < count then replay data tx.writes else data) := by
  have begun : source.log.beginOp? = some ⟨start, 1, false, []⟩ := by
    rw [settled.log]
    rfl
  obtain ⟨v, written, writing⟩ := logWrites_ok tx
    (show ({ source with log := ⟨start, 1, false, []⟩ } : Volume).log = _ from rfl)
  have ended : v.log.endOp = .ok (⟨start, 0, true, v.log.lh⟩, true) := by
    rw [writing.log]
    rfl
  have size : tx.size = v.log.lh.length := writing.length.symm
  refine ⟨Volume.endCommit { v with log := ⟨start, 0, true, v.log.lh⟩ }, ?_,
    size ▸ (writing.prepared settled).commit settled⟩
  simp only [Volume.transact?, begun, Option.bind_some, written, Except.bind, Volume.endOp, ended]
  rfl

end Transaction

/-- One event takes settled contents to the contents after its surviving transactions. -/
theorem Settled.step? {v : Volume} {data : Disk} (settled : Settled start v data) (event : Event start) :
    ∃ next, v.step? event = some next ∧ Settled start next (contents data event.survivors) := by
  cases event with
  | transact tx =>
    obtain ⟨next, finished, after, _⟩ := settled.transact? tx
    exact ⟨next, finished, after⟩
  | crash tx count retries =>
    obtain ⟨unfinished, finished, _, held⟩ := settled.transact? tx
    obtain ⟨next, recovered, after⟩ := (held count).reboot? retries
    refine ⟨next, by simp [Volume.step?, finished, recovered], ?_⟩
    rw [Event.survivors]
    split
    · next committed =>
      rw [if_pos committed] at after
      exact after
    · next lost =>
      rw [if_neg lost] at after
      exact after

/-- Every run of transactions and crashes from a clean disk goes through, and after it the home blocks
hold exactly the whole transactions that committed: those that returned before a crash, and those
whose header was written when it came. -/
theorem crash_atomicity (start : UInt32) (image : Disk) (clean : decodeHead? (image start) = some [])
    (events : List (Event start)) :
    ∃ boot v, Volume.initlog? start image = some boot ∧ run? Volume.step? boot events = some v ∧
      ∀ blockno, ¬ InLog start blockno →
        v.disk blockno = contents image (events.flatMap Event.survivors) blockno := by
  obtain ⟨boot, recovered, settled, _⟩ := (Holds.of_clean clean fun _ _ => rfl).initlog?
  refine ⟨boot, ?_⟩
  suffices reached : ∃ v, run? Volume.step? boot events = some v ∧
      Settled start v (contents image (events.flatMap Event.survivors)) by
    obtain ⟨v, finished, after⟩ := reached
    exact ⟨v, recovered, finished, after.home⟩
  induction events using List.reverseRecOn with
  | nil => exact ⟨boot, rfl, settled⟩
  | append_singleton past event ih =>
    obtain ⟨v, finished, before⟩ := ih
    obtain ⟨next, last, after⟩ := before.step? event
    refine ⟨next, (run?_concat _).mpr ⟨v, finished, last⟩, ?_⟩
    simpa [contents] using after

/-- A transaction of one write. -/
def Transaction.single (blockno : HomeBlock start) (data : Block) : Transaction start where
  updates := [(blockno, data)]
  fits past update rest split := by
    have short : past.length = 0 := by
      have lengths := congrArg List.length split
      simp only [List.length_cons, List.length_nil, List.length_append] at lengths
      omega
    rw [List.length_eq_zero_iff.mp short]
    simp [logBlocks, maxOpBlocks]

/-- The theorem applies to a zeroed disk and a crash right after the commit point, with a recovery
that crashes once. -/
theorem crash_atomicity_zeroed :
    decodeHead? (Vector.replicate bsize 0) = some [] ∧
    ∃ boot v, Volume.initlog? 2 (fun _ => Vector.replicate bsize 0) = some boot ∧
      run? Volume.step? boot
        [Event.crash (.single (⟨45, by decide⟩ : HomeBlock 2) (Vector.replicate bsize 1)) 2 [1]] = some v ∧
      ∀ blockno, ¬ InLog 2 blockno → v.disk blockno = contents (fun _ => Vector.replicate bsize 0)
        [Transaction.single (⟨45, by decide⟩ : HomeBlock 2) (Vector.replicate bsize 1)] blockno := by
  have clean : decodeHead? (Vector.replicate bsize 0) = some [] := by decide +kernel
  exact ⟨clean, crash_atomicity 2 (fun _ => Vector.replicate bsize 0) clean
    [.crash (.single ⟨45, by decide⟩ (Vector.replicate bsize 1)) 2 [1]]⟩

end Xv6.Fs
