import Xv6.Machine.Ledger
import Xv6.Model.Fs.Operations
import Xv6.Proofs.Fs.Log

/-! # Log space reservations

Every operation enters with `MAXOPBLOCKS` slots set aside and spends at most one of them for each
distinct block it logs, so the log has room for every block that is new to its operation. The size
check of `log_write` comes before absorption, though: with the log filled to the last reserved slot, a
repeated write that needs no slot still panics. Nothing else does.
-/

namespace Xv6.Fs

open Machine Fs.System Ledger Finset

namespace Log

variable {log next : Log}

theorem beginOp?_eq_some (begun : log.beginOp? = some next) :
    log.committing = false ∧ log.lh.length + (log.outstanding + 1) * maxOpBlocks ≤ (logBlocks : ℤ) ∧
      next = { log with outstanding := log.outstanding + 1 } := by
  unfold beginOp? at begun
  split at begun
  · cases begun
  · next opened =>
    split at begun
    · cases begun
    · next room =>
      exact ⟨by simpa using opened, by omega, (Option.some.inj begun).symm⟩

/-- The log after an operation has left it, as the last one or not. -/
def left (log : Log) (last : Bool) : Log := { log with outstanding := log.outstanding - 1, committing := last }

theorem endOp_eq (opened : log.committing = false) :
    log.endOp = .ok (log.left (decide (log.outstanding = 1)), decide (log.outstanding = 1)) := by
  by_cases last : log.outstanding = 1
  · simp [endOp, left, opened, last]
  · have remaining : log.outstanding - 1 ≠ 0 := by omega
    simp [endOp, left, opened, last, remaining]

end Log

/-- The process is between the two critical sections of a committing `end_op`. -/
def Proc.InCommit (p : Proc) : Prop := p = .committing ∨ p = .committed

namespace System

/-- What each step does. -/
inductive Step (s : System) : Act → System → Prop
  | beginOp {pid log} : s.proc pid = .idle → s.log.beginOp? = some log →
      Step s (.beginOp pid) (s.move pid log (.operating ∅))
  | refuse {pid blockno logged panic} : s.proc pid = .operating logged → (insert blockno logged).card ≤ maxOpBlocks →
      s.log.logWrite blockno = .error panic → Step s (.logWrite pid blockno) { s with panic := some panic }
  | logWrite {pid blockno logged log pinned} : s.proc pid = .operating logged →
      (insert blockno logged).card ≤ maxOpBlocks → s.log.logWrite blockno = .ok (log, pinned) →
      Step s (.logWrite pid blockno) (s.move pid log (.operating (insert blockno logged)))
  | fail {pid logged panic} : s.proc pid = .operating logged → s.log.endOp = .error panic →
      Step s (.endOp pid) { s with panic := some panic }
  | endOp {pid logged log doCommit} : s.proc pid = .operating logged → s.log.endOp = .ok (log, doCommit) →
      Step s (.endOp pid) (s.move pid log (if doCommit then .committing else .idle))
  | commit {pid} : s.proc pid = .committing → Step s (.commit pid) (s.move pid { s.log with lh := [] } .committed)
  | endCommit {pid} : s.proc pid = .committed → Step s (.endCommit pid) (s.move pid s.log.endCommit .idle)

variable {s s' : System} {act : Act} {pid other : ℕ} {log : Log} {p : Proc}

@[simp] theorem move_log : (s.move pid log p).log = log := rfl

@[simp] theorem move_proc_self : (s.move pid log p).proc pid = p := Function.update_self _ _ _

theorem move_proc_of_ne (distinct : other ≠ pid) : (s.move pid log p).proc other = s.proc other :=
  Function.update_of_ne distinct _ _

theorem move_proc_eq_iff {q : Proc} : (s.move pid log p).proc other = q ↔
    (other = pid ∧ p = q) ∨ (other ≠ pid ∧ s.proc other = q) := by
  rcases eq_or_ne other pid with rfl | distinct
  · simp
  · simp [move_proc_of_ne distinct, distinct]

theorem operating_of_move {current : Finset UInt32} (outside : ∀ logged, p ≠ .operating logged) :
    (s.move pid log p).proc other = .operating current ↔ other ≠ pid ∧ s.proc other = .operating current := by
  simp [move_proc_eq_iff, outside]

theorem Step.of_step? (enabled : s.step? act = some s') : s.panic = none ∧ Step s act s' := by
  unfold step? at enabled
  split at enabled
  · cases enabled
  · next running =>
    refine ⟨running, ?_⟩
    cases act <;> simp only at enabled <;> split at enabled
    · next idle =>
      obtain ⟨log, begun, rfl⟩ := Option.map_eq_some_iff.mp enabled
      exact .beginOp idle begun
    · cases enabled
    · next operating =>
      split_ifs at enabled with disciplined
      split at enabled <;> cases enabled
      · next failed => exact .refuse operating disciplined failed
      · next accepted => exact .logWrite operating disciplined accepted
    · cases enabled
    · next operating =>
      split at enabled <;> cases enabled
      · next failed => exact .fail operating failed
      · next ended => exact .endOp operating ended
    · cases enabled
    · next committing =>
      cases enabled
      exact .commit committing
    · cases enabled
    · next committed =>
      cases enabled
      exact .endCommit committed
    · cases enabled

end System

/-- The ledger of a state: its holders are the processes in an operation, each with one slot for every
distinct block it may still log. A commit runs alone. -/
structure Accounts (s : System) (l : Ledger ℕ) : Prop where
  used : l.used = s.log.lh.length
  holders : ∀ pid, pid ∈ l.holders ↔ ∃ logged, s.proc pid = .operating logged
  credit : ∀ pid logged, s.proc pid = .operating logged → l.credit pid + logged.card = maxOpBlocks
  listed : ∀ pid logged, s.proc pid = .operating logged → ∀ blockno ∈ logged, blockno ∈ s.log.lh
  outstanding : s.log.outstanding = l.holders.card
  commit : ∀ pid, (s.proc pid).InCommit →
    s.log.committing = true ∧ ∀ other, (s.proc other).InCommit → other = pid
  alone : s.log.committing = true → l.holders = ∅
  within : l.claimed ≤ logBlocks

namespace Accounts

variable {s : System} {l : Ledger ℕ} {pid : ℕ} {blockno : UInt32} {logged : Finset UInt32}

theorem start (logstart : UInt32) : Accounts (System.start logstart) ⟨0, ∅, fun _ => 0⟩ where
  used := rfl
  holders := by simp [System.start]
  credit := by simp [System.start]
  listed := by simp [System.start]
  outstanding := rfl
  commit := by simp [System.start, Proc.InCommit]
  alone := fun _ => rfl
  within := Nat.zero_le _

section

variable (accounts : Accounts s l)
include accounts

section

variable (operating : s.proc pid = .operating logged)
include operating

theorem not_committing :
    s.log.committing = false := by
  by_contra running
  have empty := accounts.alone (by simpa using running)
  have member := (accounts.holders pid).mpr ⟨logged, operating⟩
  rw [empty] at member
  exact absurd member (notMem_empty pid)

theorem one_le_outstanding :
    1 ≤ s.log.outstanding := by
  have member := (accounts.holders pid).mpr ⟨logged, operating⟩
  have positive := card_pos.mpr ⟨pid, member⟩
  rw [accounts.outstanding]
  omega

/-- A block that is new to its operation finds a free slot in the log. -/
theorem room_of_new (disciplined : (insert blockno logged).card ≤ maxOpBlocks) (new : blockno ∉ logged) :
    s.log.lh.length < logBlocks := by
  have left : 0 < l.credit pid := by
    have balance := accounts.credit pid logged operating
    rw [card_insert_of_notMem new] at disciplined
    omega
  rw [← accounts.used]
  exact used_lt accounts.within ((accounts.holders pid).mpr ⟨logged, operating⟩) left

end

theorem length_le : s.log.lh.length ≤ logBlocks := by
  have within := accounts.within
  rw [claimed, accounts.used] at within
  omega

theorem not_inCommit (opened : s.log.committing = false) (pid : ℕ) :
    ¬ (s.proc pid).InCommit := by
  intro running
  have committing := (accounts.commit pid running).1
  rw [opened] at committing
  cases committing

/-- A step to a state outside of the commit, made while no commit runs. -/
private theorem commit_of_move {log : Log} {p : Proc}
    (opened : s.log.committing = false) (outside : ¬ p.InCommit) (other : ℕ) :
    ¬ ((s.move pid log p).proc other).InCommit := by
  rcases eq_or_ne other pid with rfl | distinct
  · rwa [move_proc_self]
  · rw [move_proc_of_ne distinct]
    exact accounts.not_inCommit opened other

theorem beginOp {log : Log} (idle : s.proc pid = .idle) (begun : s.log.beginOp? = some log) :
    Accounts (s.move pid log (.operating ∅)) (l.enter pid maxOpBlocks) := by
  obtain ⟨opened, room, rfl⟩ := Log.beginOp?_eq_some begun
  have absent : pid ∉ l.holders := by
    rw [accounts.holders]
    simp [idle]
  refine ⟨accounts.used, fun other => ?_, fun other logged operating => ?_, fun other logged operating => ?_,
    ?_, fun other running => ?_, fun committing => ?_, ?_⟩
  · rcases eq_or_ne other pid with rfl | distinct
    · simp [enter]
    · rw [move_proc_of_ne distinct, ← accounts.holders]
      simp [enter, distinct]
  · rcases move_proc_eq_iff.mp operating with ⟨rfl, entered⟩ | ⟨distinct, before⟩
    · cases entered
      simp [enter]
    · simpa [enter, distinct] using accounts.credit other logged before
  · rcases move_proc_eq_iff.mp operating with ⟨rfl, entered⟩ | ⟨_, before⟩
    · cases entered
      simp
    · exact accounts.listed other logged before
  · simp only [move_log, accounts.outstanding, enter, card_insert_of_notMem absent]
    omega
  · exact absurd running (accounts.commit_of_move opened (by simp [Proc.InCommit]) other)
  · exact absurd committing (by simp [opened])
  · have bounded : ∀ i ∈ l.holders, l.credit i ≤ maxOpBlocks := by
      intro i member
      obtain ⟨logged, operating⟩ := (accounts.holders i).mp member
      have := accounts.credit i logged operating
      omega
    have total := claimed_le bounded
    rw [accounts.outstanding, ← accounts.used] at room
    rw [l.claimed_enter absent]
    push_cast [maxOpBlocks, logBlocks] at room total ⊢
    omega

/-- An accepted `log_write` spends a slot for a block that the log does not list, and none for a listed
one. -/
theorem logWrite (operating : s.proc pid = .operating logged)
    (disciplined : (insert blockno logged).card ≤ maxOpBlocks) :
    Accounts (s.move pid { s.log with lh := absorb s.log.lh blockno } (.operating (insert blockno logged)))
      { l.adjust pid (maxOpBlocks - (insert blockno logged).card) with
        used := (absorb s.log.lh blockno).length } := by
  have opened := accounts.not_committing operating
  have holder := (accounts.holders pid).mpr ⟨logged, operating⟩
  refine ⟨rfl, fun other => ?_, fun other current now => ?_, fun other current now => ?_,
    accounts.outstanding, fun other running => ?_, fun committing => ?_, ?_⟩
  · rcases eq_or_ne other pid with rfl | distinct
    · simpa [adjust] using holder
    · rw [move_proc_of_ne distinct, ← accounts.holders]
      rfl
  · rcases move_proc_eq_iff.mp now with ⟨rfl, grown⟩ | ⟨distinct, before⟩
    · cases grown
      simpa [adjust] using Nat.sub_add_cancel disciplined
    · simpa [adjust, distinct] using accounts.credit other current before
  · intro block member
    rw [move_log, mem_absorb]
    rcases move_proc_eq_iff.mp now with ⟨rfl, grown⟩ | ⟨_, before⟩
    · cases grown
      rcases mem_insert.mp member with rfl | earlier
      · exact .inr rfl
      · exact .inl (accounts.listed other logged operating block earlier)
    · exact .inl (accounts.listed other current before block member)
  · exact absurd running (accounts.commit_of_move opened (by simp [Proc.InCommit]) other)
  · exact absurd committing (by simp [opened])
  · have balance := accounts.credit pid logged operating
    have adjusted := l.claimed_adjust holder (maxOpBlocks - (insert blockno logged).card)
    have within := accounts.within
    simp only [claimed, adjust, accounts.used] at adjusted within ⊢
    by_cases listed : blockno ∈ s.log.lh
    · have smaller := card_le_card (subset_insert blockno logged)
      rw [absorb, if_pos listed]
      omega
    · have new : blockno ∉ logged := fun member =>
        listed (accounts.listed pid logged operating blockno member)
      rw [card_insert_of_notMem new] at adjusted disciplined ⊢
      rw [absorb, if_neg listed, List.length_append, List.length_singleton]
      omega

/-- A process that leaves its operation gives up its slots; the last one to do so starts a commit. -/
theorem endOp (operating : s.proc pid = .operating logged) {last : Bool} (final : last = true ↔ s.log.outstanding = 1) :
    Accounts (s.move pid (s.log.left last) (if last then .committing else .idle)) (l.leave pid) := by
  have opened := accounts.not_committing operating
  have holder := (accounts.holders pid).mpr ⟨logged, operating⟩
  have positive := card_pos.mpr ⟨pid, holder⟩
  have outside (current : Finset UInt32) : (if last then Proc.committing else .idle) ≠ .operating current := by
    cases last <;> simp
  have entered (other : ℕ)
      (inside : ((s.move pid (s.log.left last) (if last then .committing else .idle)).proc other).InCommit) :
      other = pid := by
    by_contra distinct
    rw [move_proc_of_ne distinct] at inside
    exact accounts.not_inCommit opened other inside
  refine ⟨accounts.used, fun other => ?_,
    fun other current now => accounts.credit other current ((operating_of_move outside).mp now).2,
    fun other current now => accounts.listed other current ((operating_of_move outside).mp now).2,
    ?_, fun other running => ?_, fun committing => ?_, (l.claimed_leave_le pid).trans accounts.within⟩
  · rw [leave, mem_erase, accounts.holders]
    simp only [operating_of_move outside, exists_and_left]
  · simp only [move_log, Log.left, accounts.outstanding, leave, card_erase_of_mem holder]
    omega
  · obtain rfl := entered other running
    refine ⟨?_, entered⟩
    rw [move_proc_self] at running
    cases last with
    | true => rfl
    | false => simp [Proc.InCommit] at running
  · have single : l.holders.card = 1 := by
      have := accounts.outstanding
      have := final.mp committing
      omega
    rw [leave, ← card_eq_zero, card_erase_of_mem holder, single]

theorem committed (committing : s.proc pid = .committing) :
    Accounts (s.move pid { s.log with lh := [] } .committed) { l with used := 0 } := by
  obtain ⟨flag, unique⟩ := accounts.commit pid (.inl committing)
  have empty := accounts.alone flag
  have nobody (other : ℕ) (current : Finset UInt32) :
      (s.move pid { s.log with lh := [] } .committed).proc other ≠ .operating current := by
    intro now
    have member := (accounts.holders other).mpr ⟨current, ((operating_of_move (by simp)).mp now).2⟩
    rw [empty] at member
    exact absurd member (notMem_empty other)
  refine ⟨rfl, fun other => ?_, fun other current now => absurd now (nobody other current),
    fun other current now => absurd now (nobody other current), accounts.outstanding,
    fun other running => ⟨flag, fun process inside => ?_⟩, fun _ => empty, ?_⟩
  · simp only [empty, notMem_empty, false_iff, not_exists]
    exact nobody other
  · have both (process : ℕ)
        (inside : ((s.move pid { s.log with lh := [] } .committed).proc process).InCommit) : process = pid := by
      by_contra distinct
      rw [move_proc_of_ne distinct] at inside
      exact distinct (unique process inside)
    rw [both process inside, both other running]
  · simp [claimed, empty]

theorem endCommit (committed : s.proc pid = .committed) :
    Accounts (s.move pid s.log.endCommit .idle) l := by
  obtain ⟨flag, unique⟩ := accounts.commit pid (.inr committed)
  have outside (current : Finset UInt32) : Proc.idle ≠ .operating current := nofun
  refine ⟨accounts.used, fun other => ?_,
    fun other current now => accounts.credit other current ((operating_of_move outside).mp now).2,
    fun other current now => accounts.listed other current ((operating_of_move outside).mp now).2,
    accounts.outstanding, fun other running => ?_, nofun, accounts.within⟩
  · have elsewhere (current : Finset UInt32) (before : s.proc other = .operating current) : other ≠ pid := by
      rintro rfl
      cases committed.symm.trans before
    rw [accounts.holders]
    refine exists_congr fun current => (operating_of_move outside).trans ?_ |>.symm
    exact and_iff_right_of_imp (elsewhere current)
  · rcases eq_or_ne other pid with rfl | distinct
    · simp [Proc.InCommit] at running
    · rw [move_proc_of_ne distinct] at running
      exact absurd (unique other running) distinct

/-- A step keeps a ledger, whether it panics or not. -/
theorem step? {s' : System} {act : Act} (enabled : s.step? act = some s') :
    ∃ next, Accounts s' next := by
  cases (Step.of_step? enabled).2 with
  | beginOp idle begun => exact ⟨_, accounts.beginOp idle begun⟩
  | refuse | fail => exact ⟨l, { accounts with }⟩
  | logWrite operating disciplined accepted =>
    have room : s.log.lh.length < logBlocks := by
      by_contra full
      simp [Log.logWrite, not_lt.mp full] at accepted
    rw [Log.logWrite_eq room (accounts.one_le_outstanding operating)] at accepted
    cases accepted
    exact ⟨_, accounts.logWrite operating disciplined⟩
  | endOp operating ended =>
    rw [Log.endOp_eq (accounts.not_committing operating)] at ended
    cases ended
    exact ⟨_, accounts.endOp operating decide_eq_true_iff⟩
  | commit committing => exact ⟨_, accounts.committed committing⟩
  | endCommit committed => exact ⟨_, accounts.endCommit committed⟩

/-- The only panic is that of a `log_write` that repeats a block of its own operation while the log is
full. -/
theorem panic_step {s' : System} {act : Act} {panic : Panic}
    (enabled : s.step? act = some s') (stopped : s'.panic = some panic) :
    ∃ pid blockno logged, act = .logWrite pid blockno ∧ s.proc pid = .operating logged ∧
      blockno ∈ logged ∧ logBlocks ≤ s.log.lh.length := by
  obtain ⟨running, step⟩ := Step.of_step? enabled
  cases step with
  | @refuse pid blockno logged _ operating disciplined failed =>
    have full : logBlocks ≤ s.log.lh.length := by
      by_contra room
      rw [Log.logWrite_eq (not_le.mp room) (accounts.one_le_outstanding operating)] at failed
      cases failed
    refine ⟨pid, blockno, logged, rfl, operating, ?_, full⟩
    by_contra new
    exact absurd (accounts.room_of_new operating disciplined new) (not_lt.mpr full)
  | fail operating failed =>
    rw [Log.endOp_eq (accounts.not_committing operating)] at failed
    cases failed
  | _ => cases running.symm.trans stopped

end

end Accounts

/-- Every reachable state has a ledger within the capacity of the log. -/
theorem reachable_accounts {logstart : UInt32} {acts : List Act} {s : System}
    (reached : run? step? (start logstart) acts = some s) : ∃ l, Accounts s l :=
  run?_history step? (fun _ s => ∃ l, Accounts s l) ⟨_, .start logstart⟩
    (fun _ _ _ _ _ ⟨_, accounts⟩ enabled => accounts.step? enabled) reached

/-- At no point of the run has `log_write` panicked for size, or the header outgrown the log. -/
def NeverTooBig (logstart : UInt32) (acts : List Act) : Prop :=
  ∀ past rest s, acts = past ++ rest → run? System.step? (System.start logstart) past = some s →
    s.panic ≠ some .tooBig ∧ s.log.lh.length ≤ logBlocks

/-- No operation repeats a `log_write` of one of its own blocks while the log is full. -/
def NoRepeatWhenFull (logstart : UInt32) (acts : List Act) : Prop :=
  ∀ past pid blockno rest s logged, acts = past ++ .logWrite pid blockno :: rest →
    run? System.step? (System.start logstart) past = some s → s.panic = none →
    s.proc pid = .operating logged → blockno ∈ logged → s.log.lh.length < logBlocks

/-- In every run of disciplined operations the reservations suffice exactly when no operation repeats
a block of its own at a moment when the log is full. -/
theorem neverTooBig_iff_noRepeatWhenFull (logstart : UInt32) (acts : List Act) :
    NeverTooBig logstart acts ↔ NoRepeatWhenFull logstart acts := by
  constructor
  · intro safe past pid blockno rest s logged split reached running operating repeated
    obtain ⟨l, accounts⟩ := reachable_accounts reached
    by_contra full
    have disciplined : (insert blockno logged).card ≤ maxOpBlocks := by
      rw [Finset.insert_eq_of_mem repeated]
      have := accounts.credit pid logged operating
      omega
    have stops : s.step? (.logWrite pid blockno) = some { s with panic := some .tooBig } := by
      simp [System.step?, running, operating, disciplined, Log.logWrite, not_lt.mp full]
    exact (safe (past ++ [.logWrite pid blockno]) rest _ (by simpa using split)
      ((run?_concat _).mpr ⟨s, reached, stops⟩)).1 rfl
  · intro clear past rest s split reached
    obtain ⟨l, accounts⟩ := reachable_accounts reached
    refine ⟨fun stopped => ?_, accounts.length_le⟩
    rcases List.eq_nil_or_concat past with rfl | ⟨before, act, rfl⟩
    · cases reached
      cases stopped
    · rw [List.concat_eq_append] at split reached
      obtain ⟨middle, earlier, enabled⟩ := (run?_concat _).mp reached
      obtain ⟨ledger, books⟩ := reachable_accounts earlier
      obtain ⟨pid, blockno, logged, rfl, operating, repeated, full⟩ := books.panic_step enabled stopped
      have room := clear before pid blockno rest middle logged (by simpa using split) earlier
        (System.Step.of_step? enabled).1 operating repeated
      omega

/-- Three operations log ten blocks each; then the first one writes one of its blocks again. -/
def fullLogRun : List Act :=
  (List.range 3).map .beginOp ++
    (List.range 30).map (fun n => .logWrite (n / 10) (UInt32.ofNat (100 + n))) ++ [.logWrite 0 100]

theorem neverTooBig_fails :
    (run? System.step? (System.start 2) fullLogRun).map System.panic = some (some .tooBig) ∧
      ¬ NeverTooBig 2 fullLogRun := by
  have stopped : (run? System.step? (System.start 2) fullLogRun).map System.panic = some (some .tooBig) := by
    decide +kernel
  refine ⟨stopped, fun safe => ?_⟩
  obtain ⟨s, reached, panicked⟩ := Option.map_eq_some_iff.mp stopped
  exact (safe fullLogRun [] s (by simp) reached).1 panicked

end Xv6.Fs

