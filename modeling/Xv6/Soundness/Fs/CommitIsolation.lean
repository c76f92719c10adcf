import Xv6.Machine.Census
import Xv6.Model.Fs.GroupCommit
import Xv6.Soundness.Fs.Reservation

/-! # Commit isolation

A commit runs without a lock. What keeps it alone is `outstanding`, which counts the processes in an
operation, together with `committing`, which keeps new ones out: a commit starts when the count drops to
zero, so while it runs nobody is left to change the list of logged blocks. A listed block is pinned once,
when it enters the list, and unpinned once, when it is installed.
-/

namespace Xv6.Fs

open Machine

namespace Volume

variable {v next : Volume} {blockno : UInt32} {data : Block}

/-- An accepted `log_write` lists the block, and pins it if it was not listed before. -/
theorem logWrite_eq_ok (accepted : v.logWrite blockno data = .ok next) :
    next.log = { v.log with lh := absorb v.log.lh blockno } ∧
      next.pins = if blockno ∈ v.log.lh then v.pins
        else Function.update v.pins blockno (v.pins blockno + 1) := by
  simp only [logWrite, Log.logWrite] at accepted
  split at accepted
  · cases accepted
  · split at accepted
    · cases accepted
    · split at accepted
      · next listed =>
        cases accepted
        simp [modify, absorb, listed]
      · next fresh =>
        cases accepted
        simp [modify, bpin, absorb, fresh]

theorem logWrite_eq_error {panic : Panic} (failed : v.logWrite blockno data = .error panic) :
    panic ≠ .committing := by
  simp only [logWrite, Log.logWrite] at failed
  split at failed
  · cases failed
    simp
  · split at failed
    · cases failed
      simp
    · split at failed <;> cases failed

end Volume

namespace Group

/-- What each step does. -/
inductive Step (s : Group) : Move → Group → Prop
  | beginOp {pid log} : s.worker pid = .idle → s.volume.log.beginOp? = some log →
      Step s (.beginOp pid) (s.move pid { s.volume with log } .operating)
  | refuse {pid blockno data panic} : s.worker pid = .operating → s.volume.logWrite blockno data = .error panic →
      Step s (.logWrite pid blockno data) { s with panic := some panic }
  | logWrite {pid blockno data volume} : s.worker pid = .operating → s.volume.logWrite blockno data = .ok volume →
      Step s (.logWrite pid blockno data) (s.move pid volume .operating)
  | fail {pid panic} : s.worker pid = .operating → s.volume.log.endOp = .error panic →
      Step s (.endOp pid) { s with panic := some panic }
  | endOp {pid log doCommit} : s.worker pid = .operating → s.volume.log.endOp = .ok (log, doCommit) →
      Step s (.endOp pid) (s.move pid { s.volume with log } (if doCommit then .committing .test else .idle))
  | commit {pid stage} : s.worker pid = .committing stage →
      Step s (.commit pid stage) (s.move pid (s.volume.commitStep stage).1 (.committing (s.volume.commitStep stage).2))
  | endCommit {pid} : s.worker pid = .committing .done →
      Step s (.endCommit pid) (s.move pid { s.volume with log := s.volume.log.endCommit } .idle)

variable {s s' : Group} {act : Move} {pid other : ℕ} {volume : Volume} {w : Worker}

@[simp] theorem move_volume : (s.move pid volume w).volume = volume := rfl

@[simp] theorem move_worker : (s.move pid volume w).worker = Function.update s.worker pid w := rfl

theorem Step.of_step? (enabled : s.step? act = some s') : s.panic = none ∧ Step s act s' := by
  unfold step? at enabled
  split at enabled
  · cases enabled
  · next running =>
    refine ⟨running, ?_⟩
    cases act <;> simp only at enabled <;> split at enabled
    · next idle =>
      obtain ⟨log, begun, rfl⟩ := Option.map_eq_some_iff.mp enabled
      exact .beginOp idle begun
    · cases enabled
    · next operating =>
      split at enabled <;> cases enabled
      · next failed => exact .refuse operating failed
      · next accepted => exact .logWrite operating accepted
    · cases enabled
    · next operating =>
      split at enabled <;> cases enabled
      · next failed => exact .fail operating failed
      · next ended => exact .endOp operating ended
    · cases enabled
    · next ready =>
      cases enabled
      exact .commit ready.1
    · cases enabled
    · next finished =>
      cases enabled
      exact .endCommit finished
    · cases enabled

end Group

/-- The listed blocks that a commit has not unpinned yet. -/
def Stage.pinned (lh : List UInt32) : Stage → List UInt32
  | .install tail => lh.drop tail
  | .clear => []
  | _ => lh

/-- Behind the assignment in `commit` the list is empty. -/
def Stage.Cleared (lh : List UInt32) (stage : Stage) : Prop := stage = .eraseHead ∨ stage = .done → lh = []

/-- The steps that a commit has in front of it. -/
def Stage.left (lh : List UInt32) : Stage → ℕ
  | .test => 2 * lh.length + 6
  | .writeLog tail => (lh.length - tail) + lh.length + 5
  | .writeHead => lh.length + 4
  | .install tail => (lh.length - tail) + 3
  | .clear => 2
  | .eraseHead => 1
  | .done => 0

/-- One pin for each block of `held`, and no other. -/
def Volume.Pinned (v : Volume) (held : List UInt32) : Prop :=
  ∀ blockno, v.pins blockno = if blockno ∈ held then 1 else 0

/-- What holds between any two steps, after the steps `acts`. -/
structure Isolated (acts : List Move) (s : Group) : Prop where
  census : Census s.worker (· = .operating) s.volume.log.outstanding
  exclusive : ∀ pid stage, s.worker pid = .committing stage →
    s.volume.log.committing = true ∧ ∀ other last, s.worker other = .committing last → other = pid
  alone : s.volume.log.committing = true →
    s.volume.log.outstanding = 0 ∧ ∃ pid stage, s.worker pid = .committing stage
  panic : s.panic ≠ some .committing
  nodup : s.volume.log.lh.Nodup
  logged : s.panic = none → ∀ blockno, blockno ∈ s.volume.log.lh ↔ blockno ∈ loggedSince acts
  pinned : s.volume.log.committing = false → s.volume.Pinned s.volume.log.lh
  unpinning : ∀ pid stage, s.worker pid = .committing stage →
    s.panic = none ∧ s.volume.Pinned (stage.pinned s.volume.log.lh) ∧ stage.Cleared s.volume.log.lh

theorem loggedSince_concat (acts : List Move) (act : Move) :
    loggedSince (acts ++ [act]) = noteLogged (loggedSince acts) act := by
  simp [loggedSince]

variable {stage : Stage}

namespace Volume

variable {v : Volume}

theorem commitStep_counters (v : Volume) (stage : Stage) :
    (v.commitStep stage).1.log.outstanding = v.log.outstanding ∧
      (v.commitStep stage).1.log.committing = v.log.committing := by
  fun_cases commitStep <;> exact ⟨rfl, rfl⟩

/-- Only the assignment in `commit` changes the list of logged blocks. -/
theorem commitStep_lh (v : Volume) (stage : Stage) :
    (v.commitStep stage).1.log.lh = if stage = .clear then [] else v.log.lh := by
  fun_cases commitStep <;> rfl

/-- `install_trans` takes the pin of the block it has copied home; the other steps leave the pins alone. -/
theorem commitStep_pins (v : Volume) (stage : Stage) (blockno : UInt32) :
    (v.commitStep stage).1.pins blockno = v.pins blockno ∨
      ((v.commitStep stage).1.pins blockno = v.pins blockno - 1 ∧
        ∃ tail, stage = .install tail ∧ v.log.lh[tail]? = some blockno) := by
  fun_cases commitStep
  case case5 tail target found =>
    rcases eq_or_ne blockno target with rfl | distinct
    · exact .inr ⟨by simp [copyHome, bunpin, bwrite, modify], tail, rfl, found⟩
    · exact .inl (by simp [copyHome, bunpin, bwrite, modify, distinct])
  all_goals exact .inl rfl

theorem Cleared.commitStep (cleared : stage.Cleared v.log.lh) :
    (v.commitStep stage).2.Cleared (v.commitStep stage).1.log.lh := by
  fun_cases Volume.commitStep
  case case1 =>
    split
    · simp [Stage.Cleared]
    · next empty => exact fun _ => List.eq_nil_of_length_eq_zero (Nat.eq_zero_of_not_pos empty)
  case case7 => exact fun _ => rfl
  case case8 => exact fun _ => cleared (.inl rfl)
  case case9 => exact cleared
  all_goals simp [Stage.Cleared]

theorem left_commitStep (v : Volume) (unfinished : stage ≠ .done) :
    (v.commitStep stage).2.left (v.commitStep stage).1.log.lh < stage.left v.log.lh := by
  fun_cases Volume.commitStep
  case case1 => split <;> simp only [Stage.left] <;> omega
  case case2 tail target found =>
    have inside := (List.getElem?_eq_some_iff.mp found).1
    change v.log.lh.length - (tail + 1) + v.log.lh.length + 5 < v.log.lh.length - tail + v.log.lh.length + 5
    omega
  case case5 tail target found =>
    have inside := (List.getElem?_eq_some_iff.mp found).1
    change v.log.lh.length - (tail + 1) + 3 < v.log.lh.length - tail + 3
    omega
  case case9 => exact absurd rfl unfinished
  all_goals
    simp only [Stage.left, writeHead, modify, bwrite]
    omega

theorem Pinned.commitStep (nodup : v.log.lh.Nodup) (pinned : v.Pinned (stage.pinned v.log.lh)) :
    (v.commitStep stage).1.Pinned ((v.commitStep stage).2.pinned (v.commitStep stage).1.log.lh) := by
  fun_cases Volume.commitStep
  case case1 =>
    split <;> exact pinned
  case case5 tail target found =>
    obtain ⟨inside, rfl⟩ := List.getElem?_eq_some_iff.mp found
    have split : v.log.lh.drop tail = v.log.lh[tail] :: v.log.lh.drop (tail + 1) :=
      List.drop_eq_getElem_cons inside
    have fresh : v.log.lh[tail] ∉ v.log.lh.drop (tail + 1) :=
      (List.nodup_cons.mp (split ▸ nodup.sublist (List.drop_sublist tail _))).1
    intro blockno
    have before := pinned blockno
    simp only [Stage.pinned, split, List.mem_cons] at before
    rcases eq_or_ne blockno v.log.lh[tail] with rfl | distinct
    · simp [copyHome, bunpin, bwrite, modify, Stage.pinned, before, fresh]
    · simpa [copyHome, bunpin, bwrite, modify, Stage.pinned, distinct] using before
  case case6 tail ended =>
    intro blockno
    simpa [Stage.pinned, List.drop_eq_nil_of_le (List.getElem?_eq_none_iff.mp ended)] using pinned blockno
  all_goals exact pinned

end Volume

namespace Isolated

variable {acts : List Move} {s : Group} {pid : ℕ}

theorem initial {v : Volume} {start : UInt32} (fresh : v.log = ⟨start, 0, false, []⟩) (unpinned : v.pins = fun _ => 0) :
    Isolated [] ⟨v, fun _ => .idle, none⟩ := by
  refine ⟨?_, by simp, ?_, by simp, ?_, ?_, ?_, by simp⟩
  · rw [fresh]
    exact Census.none_inside (by simp)
  · simp [fresh]
  · simp [fresh]
  · simp [fresh, loggedSince]
  · intro _ blockno
    simp [fresh, unpinned]

section

variable (isolated : Isolated acts s)
include isolated

theorem not_committing (operating : s.worker pid = .operating) :
    s.volume.log.committing = false := by
  by_contra running
  have counted := isolated.census.one_le operating
  have none_left := (isolated.alone (by simpa using running)).1
  omega

theorem not_inCommit (opened : s.volume.log.committing = false) (pid : ℕ)
    (stage : Stage) : s.worker pid ≠ .committing stage := by
  intro running
  have committing := (isolated.exclusive pid stage running).1
  rw [opened] at committing
  cases committing

/-- A panic other than the one of `end_op` changes nothing else. -/
theorem stopped (operating : s.worker pid = .operating) {panic : Panic} (other : panic ≠ .committing) (act : Move) :
    Isolated (acts ++ [act]) { s with panic := some panic } :=
  { isolated with
    panic := by simpa using other
    logged := by simp
    unpinning := fun pid stage running =>
      absurd running (isolated.not_inCommit (isolated.not_committing operating) pid stage) }

/-- A step of a process that is not in a commit, and does not enter one, made while no commit runs. -/
private theorem not_inCommit_of_move (opened : s.volume.log.committing = false)
    {w : Worker} (outside : ∀ stage, w ≠ .committing stage) (pid other : ℕ) (stage : Stage) :
    Function.update s.worker pid w other ≠ .committing stage := by
  rcases eq_or_ne other pid with rfl | distinct
  · simpa using outside stage
  · simpa [distinct] using isolated.not_inCommit opened other stage

section

variable (alive : s.panic = none)
include alive

theorem beginOp {log : Log} (idle : s.worker pid = .idle) (begun : s.volume.log.beginOp? = some log) :
    Isolated (acts ++ [.beginOp pid]) (s.move pid { s.volume with log } .operating) := by
  obtain ⟨opened, -, rfl⟩ := Log.beginOp?_eq_some begun
  have outside := isolated.not_inCommit_of_move opened (w := .operating) (by simp) pid
  refine ⟨isolated.census.enter (by simp [idle]) rfl, fun other stage running => absurd running (outside other stage),
    fun committing => ?_, isolated.panic, isolated.nodup, fun _ blockno => ?_, fun _ => isolated.pinned opened,
    fun other stage running => absurd running (outside other stage)⟩
  · simp [opened] at committing
  · rw [loggedSince_concat]
    exact isolated.logged alive blockno

theorem logWrite (operating : s.worker pid = .operating)
    {blockno : UInt32} {data : Block} {volume : Volume} (accepted : s.volume.logWrite blockno data = .ok volume) :
    Isolated (acts ++ [.logWrite pid blockno data]) (s.move pid volume .operating) := by
  obtain ⟨listed, pins⟩ := Volume.logWrite_eq_ok accepted
  have opened := isolated.not_committing operating
  have outside := isolated.not_inCommit_of_move opened (w := .operating) (by simp) pid
  refine ⟨?_, fun other stage running => absurd running (outside other stage), fun committing => ?_, isolated.panic, ?_,
    fun _ block => ?_, fun _ block => ?_, fun other stage running => absurd running (outside other stage)⟩
  · simp only [Group.move_volume, listed]
    exact isolated.census.stay (by simp [operating])
  · simp [listed, opened] at committing
  · simpa only [Group.move_volume, listed] using nodup_absorb isolated.nodup blockno
  · simp only [Group.move_volume, listed, mem_absorb, isolated.logged alive, loggedSince_concat, noteLogged,
      List.mem_append, List.mem_singleton]
  · have before := isolated.pinned opened block
    simp only [Group.move_volume, listed, pins, mem_absorb]
    by_cases member : blockno ∈ s.volume.log.lh
    · rw [if_pos member, before]
      rcases eq_or_ne block blockno with rfl | distinct <;> simp [*]
    · rw [if_neg member]
      rcases eq_or_ne block blockno with rfl | distinct <;> simp [*]

/-- The last process to leave its operation starts a commit, alone. -/
theorem endOp (operating : s.worker pid = .operating)
    {last : Bool} (final : last = true ↔ s.volume.log.outstanding = 1) :
    Isolated (acts ++ [.endOp pid]) (s.move pid { s.volume with log := s.volume.log.left last }
      (if last then .committing .test else .idle)) := by
  have opened := isolated.not_committing operating
  have entered (other : ℕ) (stage : Stage) (inside : (s.move pid { s.volume with log := s.volume.log.left last }
      (if last then .committing .test else .idle)).worker other = .committing stage) :
      other = pid ∧ last = true ∧ stage = .test := by
    rcases eq_or_ne other pid with rfl | distinct
    · cases last with
      | true => simpa [eq_comm] using inside
      | false => simp at inside
    · rw [Group.move_worker, Function.update_of_ne distinct] at inside
      exact absurd inside (isolated.not_inCommit opened other stage)
  refine ⟨isolated.census.leave operating ?_, fun other stage running => ?_, fun committing => ?_, isolated.panic,
    isolated.nodup, fun _ block => ?_, fun _ => isolated.pinned opened, fun other stage running => ?_⟩
  · cases last <;> simp
  · obtain ⟨rfl, rfl, -⟩ := entered other stage running
    exact ⟨rfl, fun another later inside => (entered another later inside).1⟩
  · have single := final.mp committing
    exact ⟨by simp [Log.left, single], pid, .test, by simp [show last = true from committing]⟩
  · rw [loggedSince_concat]
    exact isolated.logged alive block
  · obtain ⟨rfl, rfl, rfl⟩ := entered other stage running
    exact ⟨alive, isolated.pinned opened, by simp [Stage.Cleared]⟩

theorem commit (committing : s.worker pid = .committing stage) :
    Isolated (acts ++ [.commit pid stage])
      (s.move pid (s.volume.commitStep stage).1 (.committing (s.volume.commitStep stage).2)) := by
  obtain ⟨flag, unique⟩ := isolated.exclusive pid stage committing
  obtain ⟨outstanding, running⟩ := s.volume.commitStep_counters stage
  have inside (other : ℕ) (later : Stage) (at_stage : (s.move pid (s.volume.commitStep stage).1
      (.committing (s.volume.commitStep stage).2)).worker other = .committing later) :
      other = pid ∧ later = (s.volume.commitStep stage).2 := by
    rcases eq_or_ne other pid with rfl | distinct
    · simpa [eq_comm] using at_stage
    · rw [Group.move_worker, Function.update_of_ne distinct] at at_stage
      exact absurd (unique other later at_stage) distinct
  refine ⟨?_, fun other later at_stage => ?_, fun _ => ?_, isolated.panic, ?_, fun _ block => ?_, fun opened => ?_,
    fun other later at_stage => ?_⟩
  · rw [Group.move_volume, outstanding]
    exact isolated.census.stay (by simp [committing])
  · obtain ⟨rfl, -⟩ := inside other later at_stage
    exact ⟨running.trans flag, fun another last ahead => (inside another last ahead).1⟩
  · rw [Group.move_volume, outstanding]
    exact ⟨(isolated.alone flag).1, pid, _, Function.update_self _ _ _⟩
  · rw [Group.move_volume, s.volume.commitStep_lh]
    split
    · exact List.nodup_nil
    · exact isolated.nodup
  · rw [Group.move_volume, s.volume.commitStep_lh, loggedSince_concat]
    cases stage with
    | clear => simp [noteLogged]
    | _ => exact isolated.logged alive block
  · rw [Group.move_volume, running, flag] at opened
    cases opened
  · obtain ⟨-, rfl⟩ := inside other later at_stage
    obtain ⟨-, pinned, cleared⟩ := isolated.unpinning pid stage committing
    exact ⟨alive, pinned.commitStep isolated.nodup, Volume.Cleared.commitStep cleared⟩

theorem endCommit (committed : s.worker pid = .committing .done) :
    Isolated (acts ++ [.endCommit pid]) (s.move pid { s.volume with log := s.volume.log.endCommit } .idle) := by
  obtain ⟨-, unique⟩ := isolated.exclusive pid .done committed
  have outside (other : ℕ) (stage : Stage) : (s.move pid { s.volume with log := s.volume.log.endCommit } .idle).worker
      other ≠ .committing stage := by
    rcases eq_or_ne other pid with rfl | distinct
    · simp
    · rw [Group.move_worker, Function.update_of_ne distinct]
      exact fun inside => distinct (unique other stage inside)
  refine ⟨isolated.census.stay (by simp [committed]), fun other stage running => absurd running (outside other stage),
    fun committing => ?_, isolated.panic, isolated.nodup, fun _ block => ?_,
    fun _ => (isolated.unpinning pid .done committed).2.1, fun other stage running =>
    absurd running (outside other stage)⟩
  · simp [Log.endCommit] at committing
  · rw [loggedSince_concat]
    exact isolated.logged alive block

end

variable {s' : Group} {act : Move}

theorem step (enabled : s.step? act = some s') :
    Isolated (acts ++ [act]) s' := by
  obtain ⟨alive, step⟩ := Group.Step.of_step? enabled
  cases step with
  | beginOp idle begun => exact isolated.beginOp alive idle begun
  | refuse operating failed => exact isolated.stopped operating (Volume.logWrite_eq_error failed) _
  | logWrite operating accepted => exact isolated.logWrite alive operating accepted
  | fail operating failed =>
    rw [Log.endOp_eq (isolated.not_committing operating)] at failed
    cases failed
  | endOp operating left =>
    rw [Log.endOp_eq (isolated.not_committing operating)] at left
    cases left
    exact isolated.endOp alive operating (by simp)
  | commit committing => exact isolated.commit alive committing
  | endCommit committed => exact isolated.endCommit alive committed

/-- A block is pinned when `log_write` lists it, and unpinned when `install_trans` has copied it home. -/
theorem pins_step (enabled : s.step? act = some s')
    {blockno : UInt32} (changed : s'.volume.pins blockno ≠ s.volume.pins blockno) :
    (∃ pid data, act = .logWrite pid blockno data ∧ blockno ∉ s.volume.log.lh ∧ blockno ∈ s'.volume.log.lh ∧
        s.volume.pins blockno = 0 ∧ s'.volume.pins blockno = 1) ∨
      ∃ pid tail, act = .commit pid (.install tail) ∧ s.volume.log.lh[tail]? = some blockno ∧
        s.volume.pins blockno = 1 ∧ s'.volume.pins blockno = 0 := by
  cases (Group.Step.of_step? enabled).2 with
  | @logWrite pid block data volume operating accepted =>
    obtain ⟨listed, pins⟩ := Volume.logWrite_eq_ok accepted
    have before := isolated.pinned (isolated.not_committing operating) blockno
    simp only [Group.move_volume, pins] at changed ⊢
    split at changed
    · exact absurd rfl changed
    · next fresh =>
      obtain rfl : blockno = block := by
        by_contra distinct
        exact changed (Function.update_of_ne distinct _ _)
      simp only [if_neg fresh] at before
      exact .inl ⟨pid, data, rfl, fresh, by simp [listed, mem_absorb], before, by simp [fresh, before]⟩
  | @commit pid stage committing =>
    rcases s.volume.commitStep_pins stage blockno with same | ⟨dropped, tail, rfl, listed⟩
    · exact absurd same changed
    · have before := (isolated.unpinning pid _ committing).2.1 blockno
      have member : blockno ∈ s.volume.log.lh.drop tail :=
        List.mem_of_getElem? (i := 0) (by simpa using listed)
      rw [Stage.pinned, if_pos member] at before
      exact .inr ⟨pid, tail, rfl, listed, before, by simp [dropped, before]⟩
  | _ => exact absurd rfl changed

end

end Isolated

theorem Volume.initlog?_fresh {start : UInt32} {image : Disk} {v : Volume} (booted : initlog? start image = some v) :
    v.log = ⟨start, 0, false, []⟩ ∧ v.pins = fun _ => 0 := by
  have installed (v : Volume) : (v.installTrans true).log = v.log ∧ (v.installTrans true).pins = v.pins := by
    unfold installTrans
    generalize v.log.lh.zipIdx = entries
    induction entries generalizing v with
    | nil => exact ⟨rfl, rfl⟩
    | cons entry rest ih => exact ih _
  simp only [initlog?, recoverFromLog?, readHead?, Option.map_map, Option.map_eq_some_iff,
    Function.comp_apply] at booted
  obtain ⟨lh, -, rfl⟩ := booted
  simp only [writeHead, clearHead, modify, bwrite, installed, and_self]

theorem Group.isolated {logstart : UInt32} {image : Disk} {first s : Group} {acts : List Move}
    (booted : Group.boot? logstart image = some first) (reached : run? Group.step? first acts = some s) :
    Isolated acts s := by
  obtain ⟨volume, recovered, rfl⟩ := Option.map_eq_some_iff.mp booted
  obtain ⟨fresh, unpinned⟩ := Volume.initlog?_fresh recovered
  exact run?_history _ Isolated (.initial fresh unpinned) (fun _ _ _ _ _ isolated enabled => isolated.step enabled)
    reached

/-- Alone, a commit comes to its end. -/
theorem Group.commit_finishes {s : Group} {pid : ℕ} (alive : s.panic = none)
    (committing : s.worker pid = .committing stage) :
    ∃ (stages : List Stage) (s' : Group), run? Group.step? s (stages.map (.commit pid)) = some s' ∧
      s'.worker pid = .committing .done := by
  -- The induction is on the steps that are left.
  induction left : stage.left s.volume.log.lh using Nat.strong_induction_on generalizing s stage with
  | _ _ ih =>
    by_cases finished : stage = .done
    · exact ⟨[], s, rfl, finished ▸ committing⟩
    · have fewer := s.volume.left_commitStep finished
      obtain ⟨stages, s', ran, ended⟩ := ih _ (left ▸ fewer) (s := s.move pid (s.volume.commitStep stage).1
        (.committing (s.volume.commitStep stage).2)) alive (Function.update_self ..) rfl
      refine ⟨stage :: stages, s', ?_, ended⟩
      simpa [run?, Group.step?, alive, committing, finished] using ran

/-- In every state that any interleaving reaches: a commit has no operation beside it and runs alone, no
`end_op` finds one running, the list of logged blocks has no duplicates, has every block logged since it
was last emptied, and cannot be changed by `log_write` while a commit runs; and each listed block holds
one pin until `install_trans` drops it. A commit comes to its end, and then nothing is listed or pinned. -/
theorem Group.commit_isolated {logstart : UInt32} {image : Disk} {first s : Group} {acts : List Move}
    (booted : Group.boot? logstart image = some first) (reached : run? Group.step? first acts = some s) :
    (s.volume.log.committing = true → s.volume.log.outstanding = 0) ∧
      (∀ pid other stage last, s.worker pid = .committing stage → s.worker other = .committing last →
        s.volume.log.committing = true ∧ other = pid) ∧
      s.panic ≠ some .committing ∧
      s.volume.log.lh.Nodup ∧
      (s.panic = none → ∀ blockno ∈ loggedSince acts, blockno ∈ s.volume.log.lh) ∧
      (s.volume.log.committing = true → ∀ pid blockno data, s.step? (.logWrite pid blockno data) = none) ∧
      (s.volume.log.committing = false →
        ∀ blockno, s.volume.pins blockno = if blockno ∈ s.volume.log.lh then 1 else 0) ∧
      (s.volume.log.committing = true → ∃ pid stage, s.worker pid = .committing stage ∧
        ∀ blockno, s.volume.pins blockno = if blockno ∈ stage.pinned s.volume.log.lh then 1 else 0) ∧
      (∀ pid stage, s.worker pid = .committing stage → ∃ (stages : List Stage) (s' : Group),
        run? Group.step? s (stages.map (.commit pid)) = some s' ∧ s'.worker pid = .committing .done) ∧
      (∀ pid, s.worker pid = .committing .done → s.volume.log.lh = [] ∧ ∀ blockno, s.volume.pins blockno = 0) ∧
      ∀ act s' blockno, s.step? act = some s' → s'.volume.pins blockno ≠ s.volume.pins blockno →
        (∃ pid data, act = .logWrite pid blockno data ∧ blockno ∉ s.volume.log.lh ∧
          blockno ∈ s'.volume.log.lh ∧ s.volume.pins blockno = 0 ∧ s'.volume.pins blockno = 1) ∨
        ∃ pid tail, act = .commit pid (.install tail) ∧ s.volume.log.lh[tail]? = some blockno ∧
          s.volume.pins blockno = 1 ∧ s'.volume.pins blockno = 0 := by
  have isolated := Group.isolated booted reached
  refine ⟨fun committing => (isolated.alone committing).1, fun pid other stage last here there => ?_,
    isolated.panic, isolated.nodup, fun alive blockno => (isolated.logged alive blockno).mpr,
    fun committing pid blockno data => ?_, isolated.pinned, fun committing => ?_,
    fun pid stage running => commit_finishes (isolated.unpinning pid stage running).1 running,
    fun pid finished => ?_, fun act s' blockno enabled => isolated.pins_step enabled⟩
  · obtain ⟨flag, unique⟩ := isolated.exclusive pid stage here
    exact ⟨flag, unique other last there⟩
  · by_contra enabled
    obtain ⟨s', next⟩ := Option.ne_none_iff_exists'.mp enabled
    cases (Group.Step.of_step? next).2 with
    | refuse operating | logWrite operating => cases (isolated.not_committing operating).symm.trans committing
  · obtain ⟨-, pid, stage, running⟩ := isolated.alone committing
    exact ⟨pid, stage, running, (isolated.unpinning pid stage running).2.1⟩
  · obtain ⟨-, pinned, cleared⟩ := isolated.unpinning pid _ finished
    have empty := cleared (.inr rfl)
    exact ⟨empty, fun blockno => by simpa [Stage.pinned, empty] using pinned blockno⟩

/-- Two processes log a block that is listed and pinned once, and the last one to leave commits it. -/
theorem Group.commit_isolated_absorbed : ∃ first middle s : Group,
    boot? 2 (fun _ => Vector.replicate bsize 0) = some first ∧
      run? step? first [.beginOp 0, .beginOp 1, .logWrite 0 40 (Vector.replicate bsize 7),
        .logWrite 1 40 (Vector.replicate bsize 8)] = some middle ∧ middle.volume.pins 40 = 1 ∧
      run? step? middle [.endOp 0, .endOp 1, .commit 1 .test, .commit 1 (.writeLog 0), .commit 1 (.writeLog 1),
        .commit 1 .writeHead, .commit 1 (.install 0), .commit 1 (.install 1), .commit 1 .clear, .commit 1 .eraseHead] =
          some s ∧ s.volume.log.lh = [] ∧ s.volume.pins 40 = 0 := by
  obtain ⟨first, middle, s, booted, reached, opened, listed, ran, finished⟩ : ∃ first middle s : Group,
      boot? 2 (fun _ => Vector.replicate bsize 0) = some first ∧
        run? step? first [.beginOp 0, .beginOp 1, .logWrite 0 40 (Vector.replicate bsize 7),
          .logWrite 1 40 (Vector.replicate bsize 8)] = some middle ∧
        middle.volume.log.committing = false ∧ 40 ∈ middle.volume.log.lh ∧
        run? step? middle [.endOp 0, .endOp 1, .commit 1 .test, .commit 1 (.writeLog 0), .commit 1 (.writeLog 1),
          .commit 1 .writeHead, .commit 1 (.install 0), .commit 1 (.install 1), .commit 1 .clear,
          .commit 1 .eraseHead] = some s ∧ s.worker 1 = .committing .done :=
    ⟨_, _, _, rfl, rfl, rfl, by decide, rfl, rfl⟩
  obtain ⟨-, -, -, -, -, -, pinned, -⟩ := commit_isolated booted reached
  obtain ⟨-, -, -, -, -, -, -, -, -, dropped, -⟩ := commit_isolated booted ((run?_append _).mpr ⟨_, reached, ran⟩)
  obtain ⟨empty, unpinned⟩ := dropped 1 finished
  exact ⟨first, middle, s, booted, reached, by rw [pinned opened, if_pos listed], ran, empty, unpinned 40⟩

end Xv6.Fs
