import Xv6.Proofs.Proc.Steps

/-! # The life of a process

A slot is allocated, made runnable by the parent, run and put to sleep in turns, exits and is freed. Each
step of the kernel moves every process along that course or leaves it where it is (`Step.life`).
-/

namespace Xv6.Proc

open Function Proc.System Proc.Table

/-- A process that goes on is not in `sleep` and has no child yet, and keeps `wait_lock` if it has it. -/
theorem Advance.goes {s : System} {p : Slot} {pc pc' : Pc} (advance : Advance s p pc pc') :
    pc' ≠ .dead ∧ pc'.inSleep = false ∧ pc'.child? = none ∧ pc'.holds = pc.holds := by
  cases advance <;> simp [Pc.inSleep, Pc.child?, Pc.holds]

/-- What a step does to one process. -/
inductive Life (s s' : System) (i : Slot) : Prop
  | stays : s'.table.state i = s.table.state i → s'.pc i = s.pc i → s'.table.chan i = s.table.chan i → Life s s' i
  | goes : s.table.state i = .running → s'.table.state i = .running → s'.pc i ≠ .dead →
      (s'.pc i).inSleep = false → Life s s' i
  | scheduled : s.table.state i = .runnable → s'.table.state i = .running → s'.pc i = s.pc i →
      (s.pc i).inSleep = false → Life s s' i
  | resumed : s.table.state i = .runnable → s'.table.state i = .running → (s.pc i).inSleep = true →
      (s'.pc i = .user ∨ ∃ addr, s'.pc i = .waitLock addr) → Life s s' i
  | yields : s.table.state i = .running → s'.table.state i = .runnable → s'.pc i = s.pc i →
      s.waitLock ≠ some i → Life s s' i
  | woken : s.table.state i = .sleeping → s'.table.state i = .runnable → s'.pc i = s.pc i → Life s s' i
  | rests : s.table.state i = .running → s'.table.state i = .sleeping → s.pc i = .user → s'.pc i = .resting →
      Life s s' i
  | dozes (addr : UInt64) : s.table.state i = .running → s'.table.state i = .sleeping → s.pc i = .waitDoze addr →
      s'.pc i = .waitAsleep addr → s'.table.chan i = some (.proc i) → Life s s' i
  | exits (status : Int32) : s.table.state i = .running → s'.table.state i = .zombie → s.pc i = .exitFinal status →
      s'.pc i = .dead → Life s s' i
  | allocated : s.table.state i = .unused → s'.table.state i = .used → s'.pc i = .user → Life s s' i
  | ready (p : Slot) (pid : Int32) : s.pc p = .forkReady i pid → s.table.state i = .used →
      s'.table.state i = .runnable → s'.pc i = s.pc i → s'.pc p = .user → Life s s' i
  | freed : s.table.state i = .zombie ∨ s.table.state i = .unused → s'.table.state i = .unused → s'.pc i = s.pc i →
      s'.table.parent i = none → Life s s' i

attribute [simp] System.setTable System.setPc System.returns Table.setState

section Life
variable {s s' : System} {p i : Slot}

variable {pc : Pc} {act : Act} {c : Slot} {status : Int32} {j : ℕ}

/-- A process goes on, while the others only change as `others` says. -/
theorem Life.of_goes (running : s.table.state p = .running) (still : s'.table.state p = .running)
    (moved : s'.pc = update s.pc p pc) (alive : pc ≠ .dead) (awake : pc.inSleep = false)
    (others : i ≠ p → s'.pc i = s.pc i → Life s s' i) : Life s s' i := by
  rcases eq_or_ne i p with rfl | other
  · exact .goes running still (by simpa [moved] using alive) (by simpa [moved] using awake)
  · exact others other (by simp [moved, other])

section

variable (running : s.table.state p = .running) (moved : s'.pc = Function.update s.pc p pc) (alive : pc ≠ .dead)
  (awake : pc.inSleep = false)
include running moved alive awake

/-- A process goes on, while the others keep their state and their channel. -/
theorem Life.of_goes_alone
    (state : s'.table.state = s.table.state) (chan : s'.table.chan = s.table.chan) : Life s s' i :=
  .of_goes running (state ▸ running) moved alive awake fun _ same => .stays (by rw [state]) same (by rw [chan])

theorem Life.of_wakes {woken : Slot → Prop} [DecidablePred woken]
    (state : s'.table.state = fun q => if woken q then .runnable else s.table.state q)
    (sleeping : ∀ q, woken q → s.table.state q = .sleeping) (chan : s'.table.chan = s.table.chan) : Life s s' i := by
  refine .of_goes running ?_ moved alive awake fun other same => ?_
  · rw [state]
    refine (if_neg fun slept => ?_).trans running
    rw [sleeping p slept] at running
    cases running
  · by_cases slept : woken i
    · exact .woken (sleeping i slept) (by rw [state]; exact if_pos slept) same
    · exact .stays (by rw [state]; exact if_neg slept) same (by rw [chan])

end

section

variable (step : Step s act s')
include step

theorem Step.life (child : ∀ p np, (s.pc p).child? = some np → s.table.state np = .used) (i : Slot) : Life s s' i := by
  -- a slot in another state than the running process is not its own
  have apart {p k : Slot} (running : s.table.state p = .running) (state : s.table.state k ≠ .running) : k ≠ p := by
    rintro rfl
    exact state running
  cases step with
  | advance p act pc pc' running here advance =>
    exact .of_goes_alone running rfl advance.goes.1 advance.goes.2.1 rfl rfl
  | halt | setkilled => exact .stays rfl rfl rfl
  | run p ready awake =>
    rcases eq_or_ne i p with rfl | other
    · exact .scheduled ready (by simp) rfl awake
    · exact .stays (by simp [other]) rfl rfl
  | runRested p ready resting =>
    rcases eq_or_ne i p with rfl | other
    · exact .resumed ready (by simp) (by rw [resting]; rfl) (.inl (by simp))
    · exact .stays (by simp [other]) (by simp [other]) (by simp [other])
  | runWoken p addr ready asleep =>
    rcases eq_or_ne i p with rfl | other
    · exact .resumed ready (by simp) (by rw [asleep]; rfl) (.inr ⟨addr, by simp⟩)
    · exact .stays (by simp [other]) (by simp [other]) (by simp [other])
  | yield p running free =>
    rcases eq_or_ne i p with rfl | other
    · exact .yields running (by simp) rfl free
    · exact .stays (by simp [other]) rfl rfl
  | sleep p addr running idle =>
    rcases eq_or_ne i p with rfl | other
    · exact .rests running (by simp) idle (by simp)
    · exact .stays (by simp [other]) (by simp [other]) (by simp [other])
  | rouse p sleeping resting =>
    rcases eq_or_ne i p with rfl | other
    · exact .woken sleeping (by simp) rfl
    · exact .stays (by simp [other]) rfl rfl
  | forkFound p k running here free =>
    have other := apart running (k := k) (by simp [free])
    rcases eq_or_ne i k with rfl | another
    · exact .allocated free (by simp [allocproc]) (by simp [other])
    · rcases eq_or_ne i p with rfl | different
      · exact .goes running (by simpa [allocproc, another] using running) (by simp) (by simp [Pc.inSleep])
      · exact .stays (by simp [allocproc, another]) (by simp [another, different]) rfl
  | forkFailed p k running here free =>
    have other := apart running (k := k) (by simp [free])
    refine .of_goes running ?_ rfl (by simp) rfl fun _ same => ?_
    · simpa [freeproc, allocproc, other.symm] using running
    · rcases eq_or_ne i k with rfl | another
      · exact .freed (.inr free) (by simp [freeproc]) same (by simp [freeproc])
      · exact .stays (by simp [freeproc, allocproc, another]) same (by simp [freeproc, allocproc, another])
  | forkFull _ _ _ running | forkParent _ _ _ _ running | exitLock _ _ _ running | reparent _ _ _ _ running
  | waitLock _ _ _ running | waitReturn _ _ _ running | killNone _ _ _ _ running =>
    exact .of_goes_alone running rfl (by simp) rfl rfl rfl
  | forkReady p np pid ok running here =>
    have used := child p np (by rw [here]; rfl)
    have other := apart running (k := np) (by simp [used])
    refine .of_goes running ?_ rfl (by simp) rfl fun _ same => ?_
    · simpa [other.symm] using running
    · rcases eq_or_ne i np with rfl | another
      · exact .ready p pid here used (by simp) same (by simp)
      · exact .stays (by simp [another]) same rfl
  | wakeInit _ _ _ _ _ running | wakeParent _ _ _ _ running =>
    rw [wakeup_eq]
    exact .of_wakes running rfl (by simp) rfl rfl (by grind) rfl
  | exitFinal p status ok running here =>
    rcases eq_or_ne i p with rfl | other
    · exact .exits status running (by simp [System.exitFinal]) here (by simp [System.exitFinal])
    · exact .stays (by simp [System.exitFinal, other]) (by simp [System.exitFinal, other]) rfl
  | reap p k addr havekids ok running here parent zombie copied =>
    have other := apart running (k := k) (by simp [zombie])
    refine .of_goes running ?_ rfl (by simp) rfl fun _ same => ?_
    · simpa [System.reap, freeproc, other.symm] using running
    · rcases eq_or_ne i k with rfl | another
      · exact .freed (.inl zombie) (by simp [System.reap, freeproc]) same (by simp [System.reap, freeproc])
      · exact .stays (by simp [System.reap, freeproc, another]) same (by simp [System.reap, freeproc, another])
  | doze p addr ok running here =>
    rcases eq_or_ne i p with rfl | other
    · exact .dozes addr running (by simp [System.doze]) here (by simp [System.doze]) (by simp [System.doze])
    · exact .stays (by simp [System.doze, other]) (by simp [System.doze, other]) (by simp [System.doze, other])
  | killHit p k pid ok running here named =>
    rw [kill_eq]
    exact .of_wakes running rfl (by simp) rfl rfl (by grind) rfl

/-- A child of `kfork` was there before, or has just been allocated. -/
theorem Step.child {np : Slot} (forking : (s'.pc i).child? = some np) :
    ((s.pc i).child? = some np ∧ (s'.pc i = s.pc i ∨ (∃ pid, s'.pc i = .forkReady np pid) ∧
        s'.table.parent np = some i)) ∨
      ((∃ pid, s'.pc i = .forkParent np pid) ∧ s.table.state np = .unused ∧ s'.table.state np = .used ∧
        s'.table.parent = s.table.parent ∧ ∀ j, j ≠ i → s'.pc j = s.pc j ∨ s'.pc j = .user) := by
  cases step with
  | advance p act pc pc' running here advance =>
    have none := advance.goes.2.2.1
    simp only [setPc, update_apply] at forking ⊢
    grind
  | _ =>
    simp only [setTable, setPc, returns, setState, allocproc, System.exitFinal, System.reap, System.doze,
      update_apply] at forking ⊢
    grind [Pc.child?]

/-- `wait_lock` stays with its owner, is taken when it is free, or is given up by its owner. -/
theorem Step.lock (runs : ∀ i, (s.pc i).holds = true → s.table.state i = .running) :
    (s'.waitLock = s.waitLock ∧ ∀ i, (s'.pc i).holds = (s.pc i).holds) ∨
      (∃ p, s.waitLock = none ∧ s'.waitLock = some p ∧ (s'.pc p).holds = true ∧ ∀ i, i ≠ p → s'.pc i = s.pc i) ∨
      ∃ p, (s.pc p).holds = true ∧ s'.waitLock = none ∧ (s'.pc p).holds = false ∧ ∀ i, i ≠ p → s'.pc i = s.pc i := by
  cases step with
  | advance p act pc pc' running here advance =>
    have same := advance.goes.2.2.2
    simp only [setPc, update_apply]
    grind
  | _ =>
    simp only [setTable, setPc, returns, setState, allocproc, System.exitFinal, System.reap, System.doze, update_apply]
    grind [Pc.holds]

/-- How the parent of a slot changes: the slot is freed, its `kfork` goes on, or its parent exits. -/
theorem Step.parent (k : Slot) :
    s'.table.parent k = s.table.parent k ∨ (s'.table.parent k = none ∧ s'.table.state k = .unused) ∨
      (∃ p pid, s.pc p = .forkParent k pid ∧ s.table.state p = .running ∧ s.waitLock = none ∧
        s'.table.parent k = some p ∧ s'.pc p = .forkReady k pid) ∨
      ∃ p status, s.pc p = .exitReparent status k ∧ s.table.parent k = some p ∧ s'.table.parent k = some initproc ∧
        s'.pc p = .exitWakeInit status k 0 := by
  cases step <;> simp only [setTable, setPc, returns, setState, allocproc, freeproc, wakeup_eq, kill_eq,
    System.exitFinal, System.reap, System.doze, update_apply] <;> grind

theorem Step.exiting (immortal : (s.pc initproc).exiting = false) :
    (s'.pc initproc).exiting = false := by
  cases step with
  | advance p act pc pc' running here advance =>
    simp only [setPc, update_apply]
    cases advance <;> grind [Pc.exiting]
  | _ =>
    simp only [setTable, setPc, returns, setState, allocproc, System.exitFinal, System.reap, System.doze, update_apply]
    grind [Pc.exiting]

end

/-- `kexit` has given slot `c` to `init` if it was a child. -/
def Pc.cleared (c : Slot) : Pc → Prop
  | .exitReparent _ k => c < k
  | .exitWakeInit _ k _ => c ≤ k
  | .exitWakeParent _ _ | .exitFinal _ => True
  | _ => False

theorem Step.cleared (step : Step s act s') (now : (s'.pc i).cleared c) :
    (s.pc i).cleared c ∨ s.table.parent c ≠ some i ∨ s'.table.parent c = some initproc := by
  cases step with
  | advance p act pc pc' running here advance =>
    simp only [setPc, update_apply] at now ⊢
    cases advance <;> grind [Pc.cleared]
  | _ =>
    simp only [setTable, setPc, returns, setState, allocproc, System.exitFinal, System.reap, System.doze,
      update_apply] at now ⊢
    grind [Pc.cleared]

/-- `kwait` has seen slot `c` in its scan. -/
def Pc.scanned (c : Slot) : Pc → Prop
  | .waitScan _ k _ => c < k
  | .waitTest _ | .waitDoze _ => True
  | _ => False

theorem Pc.scanned.holds (scanned : pc.scanned c) : pc.holds = true := by
  cases pc <;> first | rfl | exact scanned.elim

section

variable (step : Step s act s')
include step

theorem Step.scanned (now : (s'.pc i).scanned c) :
    (s.pc i).scanned c ∨ s.table.parent c ≠ some i ∨ s.table.state c ≠ .zombie := by
  cases step with
  | advance p act pc pc' running here advance =>
    simp only [setPc, update_apply] at now ⊢
    cases advance <;> grind [Pc.scanned]
  | _ =>
    simp only [setTable, setPc, returns, setState, allocproc, System.exitFinal, System.reap, System.doze,
      update_apply] at now ⊢
    grind [Pc.scanned]

/-- The loop of `wakeup(initproc)` goes on from slot to slot. -/
theorem Step.wakingInit {k : ℕ} (runs : s.table.state i = .running) (waking : s.pc i = .exitWakeInit status k j) :
    s'.pc i = .exitWakeInit status k j ∨ nproc ≤ j ∨ ∃ q : Slot, q = j ∧
      s'.pc i = .exitWakeInit status k (j + 1) ∧ s'.table = s.table.wakeup i (some (.proc initproc)) q := by
  cases step with
  | advance p act pc pc' running here advance =>
    simp only [setPc, update_apply]
    cases advance <;> grind
  | _ =>
    simp only [setTable, setPc, returns, setState, allocproc, System.exitFinal, System.reap, System.doze, update_apply]
    grind [Pc.exiting]

/-- The loop of `wakeup(p->parent)` starts at the first slot and goes on from slot to slot. -/
theorem Step.wakingParent (waking : s'.pc i = .exitWakeParent status j) :
    s.pc i = .exitWakeParent status j ∨ j = 0 ∨ ∃ q : Slot, j = q + 1 ∧ s.pc i = .exitWakeParent status q ∧
      s'.table = s.table.wakeup i ((s.table.parent i).map .proc) q := by
  cases step with
  | advance p act pc pc' running here advance =>
    simp only [setPc, update_apply] at waking ⊢
    cases advance <;> grind
  | _ =>
    simp only [setTable, setPc, returns, setState, allocproc, System.exitFinal, System.reap, System.doze,
      update_apply] at waking ⊢
    grind

theorem Step.leaving (leaving : s'.pc i = .exitFinal status) :
    s.pc i = .exitFinal status ∨ ∃ j, nproc ≤ j ∧ s.pc i = .exitWakeParent status j := by
  cases step with
  | advance p act pc pc' running here advance =>
    simp only [setPc, update_apply] at leaving ⊢
    cases advance <;> grind
  | _ =>
    simp only [setTable, setPc, returns, setState, allocproc, System.exitFinal, System.reap, System.doze,
      update_apply] at leaving ⊢
    grind

/-- A process that exits is recorded and gives up `wait_lock`; one that is reaped is recorded; and nothing
else touches the records or a zombie. -/
theorem Step.record (child : ∀ p np, (s.pc p).child? = some np → s.table.state np = .used) (k : Slot) :
    (s'.exits k = s.exits k ∧ s'.reaps k = s.reaps k ∧
        (s'.table.state k = .zombie ↔ s.table.state k = .zombie) ∧
        (s.table.state k = .zombie → s'.table.pid k = s.table.pid k ∧ s'.table.xstate k = s.table.xstate k)) ∨
      (s.table.state k = .running ∧ s'.table.state k = .zombie ∧ s'.waitLock = none ∧ s'.reaps k = s.reaps k ∧
        s'.exits k = s.exits k ++ [(s'.table.pid k, s'.table.xstate k)]) ∨
      (s.table.state k = .zombie ∧ s'.table.state k = .unused ∧ s'.exits k = s.exits k ∧
        s'.reaps k = s.reaps k ++ [(s.table.pid k, s.table.xstate k)] ∧
        ∃ p ok addr havekids, act = .step p ok ∧ s.pc p = .waitScan addr k havekids ∧ s.table.parent k = some p ∧
          s'.ret p = s.table.pid k ∧ (addr ≠ 0 → s'.copied p = some (s.table.xstate k))) := by
  cases step with
  | forkReady p np pid ok running here =>
    have used := child p np (by rw [here]; rfl)
    simp only [setTable, returns, setPc, setState, update_apply]
    grind
  | _ =>
    simp only [setTable, setPc, returns, setState, allocproc, freeproc, wakeup_eq, kill_eq,
      System.exitFinal, System.reap, System.doze, update_apply]
    grind

end

end Life

end Xv6.Proc
