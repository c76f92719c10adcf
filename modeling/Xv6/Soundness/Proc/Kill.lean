import Xv6.Machine.Run
import Xv6.Proofs.Proc.Steps

/-! # Whom `kkill` kills

A free slot has pid 0, so `kkill(0)` finds one, marks it as killed and reports success. Nothing clears the
mark before the slot is taken again, and the new process is born killed. No other argument does that: as
long as no `kkill(0)` comes to a free slot, `kkill` only touches processes of the given pid, and new
processes are not killed.
-/

namespace Xv6.Proc

open Machine Proc.System

/-- Process `q` exists and has the pid. -/
def Table.Named (t : Table) (pid : Int32) (q : Slot) : Prop := t.state q ≠ .unused ∧ t.pid q = pid

/-- A step of `kkill(pid)` at slot `k` is as it should be: when it returns 0 it has killed the process
there, which exists and has the pid, and no other; a round that goes on changes nothing; when no such process exists
anywhere, it goes on, or returns -1 at the end of the table. -/
structure SoundKill (s s' : System) (p : Slot) (pid : Int32) (k : ℕ) : Prop where
  killed : s'.pc p = .user → s'.ret p = 0 → ∃ q : Slot, q = k ∧ s.table.Named pid q ∧
    s'.table.killed = Function.update s.table.killed q true
  going : s'.pc p ≠ .user → s'.table = s.table
  absent : (∀ q, ¬ s.table.Named pid q) → s'.table = s.table ∧
    ((k < nproc ∧ s'.pc p = .killScan pid (k + 1)) ∨ (nproc ≤ k ∧ s'.pc p = .user ∧ s'.ret p = -1))

/-- In every step of the run `kkill` is sound, and what `allocproc` returns is not killed. -/
def KillsOnlyNamed (acts : List Act) : Prop :=
  ∀ past p ok rest s s', acts = past ++ .step p ok :: rest → run? System.step? .boot past = some s →
    s.step? (.step p ok) = some s' →
    (∀ pid k, s.pc p = .killScan pid k → SoundKill s s' p pid k) ∧
      ∀ k : Slot, s.pc p = .forkScan k → s.table.state k = .unused → (s.table.allocproc k).killed k = false

/-- The step is not one of a `kkill(0)` at a free slot. -/
def System.Spares (s : System) (act : Act) : Prop :=
  ∀ p ok s' (k : Slot), act = .step p ok → s.step? act = some s' → s.pc p = .killScan 0 k → s.table.state k ≠ .unused

/-- No `kkill(0)` looks at a free slot. -/
def NoKillZero (acts : List Act) : Prop := Along System.step? System.Spares .boot acts

/-- The free slots have pid 0. -/
def Table.Vacant (t : Table) : Prop := ∀ k, t.state k = .unused → t.pid k = 0

/-- The free slots are not killed. -/
def Table.Unharmed (t : Table) : Prop := ∀ k, t.state k = .unused → t.killed k = false

variable {s s' : System} {act : Act} {acts : List Act} {p : Slot} {pid : Int32} {k : ℕ}

/-- A slot that is free after a step was freed by it, or was free before and is as it was, unless a
`kkill` has found it. -/
theorem Step.unused (step : Step s act s') {k : Slot} (free : s'.table.state k = .unused) :
    (s'.table.pid k = 0 ∧ s'.table.killed k = false) ∨
      (s.table.state k = .unused ∧ s'.table.pid k = s.table.pid k ∧
        (s'.table.killed k = s.table.killed k ∨
          ∃ p ok, act = .step p ok ∧ s.pc p = .killScan (s.table.pid k) k)) := by
  cases step <;> simp only [setTable, setPc, returns, Table.setState, Table.allocproc, Table.freeproc,
    Table.wakeup_eq, Table.kill_eq, System.exitFinal, System.reap, System.doze, Function.update_apply] at free ⊢ <;>
    grind

theorem Table.Vacant.step (vacant : s.table.Vacant) (step : Step s act s') :
    s'.table.Vacant := by
  intro k free
  rcases step.unused free with ⟨zero, -⟩ | ⟨before, same, -⟩
  · exact zero
  · rw [same, vacant k before]

theorem Table.Unharmed.step (unharmed : s.table.Unharmed) (vacant : s.table.Vacant)
    (enabled : s.step? act = some s') (spared : s.Spares act) : s'.table.Unharmed := by
  intro k free
  rcases (step_of_step? enabled).unused free with ⟨-, cleared⟩ | ⟨before, -, same | ⟨p, ok, acted, found⟩⟩
  · exact cleared
  · rw [same, unharmed k before]
  · rw [vacant k before] at found
    exact absurd before (spared p ok s' k acted enabled found)

theorem vacant_boot : boot.table.Vacant := by
  intro k free
  simp only [boot, Function.update_apply] at free ⊢
  grind

theorem reachable_vacant (reached : run? step? .boot acts = some s) :
    s.table.Vacant :=
  run?_history step? (fun _ s => s.table.Vacant) vacant_boot
    (fun _ _ _ _ _ vacant enabled => vacant.step (step_of_step? enabled)) reached

theorem reachable_unharmed (spared : NoKillZero acts) (reached : run? step? .boot acts = some s) : s.table.Unharmed :=
  (run?_along step? spared (fun _ s => s.table.Vacant ∧ s.table.Unharmed) ⟨vacant_boot, fun _ _ => rfl⟩
    (fun _ _ _ _ ⟨vacant, unharmed⟩ spared enabled =>
      ⟨vacant.step (step_of_step? enabled), unharmed.step vacant enabled spared⟩) reached).2

theorem step_killScan {ok : Bool} (enabled : s.step? (.step p ok) = some s') (scanning : s.pc p = .killScan pid k) :
    s' = s.killScan p pid k := by
  unfold step? at enabled
  split at enabled
  · cases enabled
  · obtain ⟨-, moved⟩ := Option.ite_none_right_eq_some.mp enabled
    simp only [next?, scanning, Option.some.injEq] at moved
    exact moved.symm

/-- A step of `kkill` is sound unless it has come to a free slot with the pid. -/
theorem soundKill (spared : ∀ q : Slot, q = k → s.table.pid q = pid → s.table.state q ≠ .unused) :
    SoundKill s (s.killScan p pid k) p pid k := by
  unfold killScan
  split
  · next inside =>
    split
    · next named =>
      refine ⟨fun _ _ => ⟨⟨k, inside⟩, rfl, ⟨spared ⟨k, inside⟩ rfl named, named⟩, rfl⟩, fun going => ?_,
        fun absent => ?_⟩
      · simp [returns, setPc] at going
      exact absurd ⟨spared ⟨k, inside⟩ rfl named, named⟩ (absent ⟨k, inside⟩)
    · refine ⟨fun returned => ?_, fun _ => rfl, fun _ => ⟨rfl, .inl ⟨inside, by simp [setPc]⟩⟩⟩
      simp [setPc] at returned
  · next ended =>
    refine ⟨fun _ success => ?_, fun _ => rfl, fun _ => ⟨rfl, .inr ⟨Nat.not_lt.mp ended, ?_, ?_⟩⟩⟩
    · simp [returns, setPc] at success
    · simp [returns, setPc]
    · simp [returns, setPc]

/-- `kkill` affects only processes that exist and have the pid, and `allocproc` returns processes that are
not killed, exactly in the runs in which no `kkill(0)` comes to a free slot. -/
theorem killsOnlyNamed_iff_noKillZero (acts : List Act) : KillsOnlyNamed acts ↔ NoKillZero acts := by
  constructor
  · rintro sound past _ rest s split reached p ok s' k rfl enabled scanning free
    obtain ⟨killed, -, -⟩ := (sound past p ok rest s s' split reached enabled).1 0 k scanning
    have found : s.table.pid k = 0 := reachable_vacant reached k free
    obtain rfl := step_killScan enabled scanning
    obtain ⟨q, same, ⟨used, -⟩, -⟩ := killed
      (by simp [System.killScan, found, System.returns, System.setPc])
      (by simp [System.killScan, found, System.returns, System.setPc])
    rw [Fin.ext same] at used
    exact used free
  · intro spared past p ok rest s s' split reached enabled
    have vacant := reachable_vacant reached
    have unharmed : s.table.Unharmed :=
      reachable_unharmed (Along.left _ (show Along _ _ _ (past ++ _) from split ▸ spared)) reached
    refine ⟨fun pid k scanning => ?_, fun k _ free => unharmed k free⟩
    rw [step_killScan enabled scanning]
    refine soundKill fun q here named free => ?_
    subst here
    rw [← named, vacant q free] at scanning
    exact spared past _ rest s split reached p ok s' q rfl enabled scanning free

/-- The only process calls `kkill(0)`, which comes to the first free slot, and then forks. -/
def killZero : List Act :=
  [.run initproc, .call initproc (.kill 0), .step initproc true, .step initproc true, .call initproc .fork,
    .step initproc true, .step initproc true]

/-- It is told that a process was killed, and its child is born killed. -/
theorem killsOnlyNamed_fails :
    (run? System.step? .boot killZero).map (fun s => (s.table.state ⟨1, by decide⟩, s.table.killed ⟨1, by decide⟩)) =
      some (.used, true) ∧ ¬ KillsOnlyNamed killZero := by
  refine ⟨by decide, fun sound => ?_⟩
  obtain ⟨kills, -⟩ := sound [.run initproc, .call initproc (.kill 0), .step initproc true] initproc true
    [.call initproc .fork, .step initproc true, .step initproc true] _ _ rfl rfl rfl
  obtain ⟨q, here, ⟨used, -⟩, -⟩ := (kills 0 1 rfl).killed rfl rfl
  obtain rfl : q = ⟨1, by decide⟩ := Fin.ext here
  exact used rfl

end Xv6.Proc
