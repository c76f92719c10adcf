import Xv6.Model.Proc.Table

/-! # The steps of the process table

Every step of the kernel is one of the cases of `Step`, with what the process found in the table. Most of
them only move a process on; the others change one slot, or hand `wait_lock` over.
-/

namespace Xv6.Proc

namespace Table

variable (t : Table) (me p q : Slot) (chan : Option Chan)

/-- `wakeup` changes the state of a sleeper on its channel, and nothing else. -/
theorem wakeup_eq : t.wakeup me chan p = { t with
    state := fun q => if q = p ∧ p ≠ me ∧ t.state p = .sleeping ∧ t.chan p = chan then .runnable else t.state q } := by
  unfold wakeup
  split
  · next woken =>
    simp only [setState, woken, and_true, ne_eq, not_false_eq_true]
    congr 1
    funext q
    rw [Function.update_apply]
  · next other =>
    simp only [other, and_false, ↓reduceIte]

theorem kill_eq : t.kill p = { t with
    killed := Function.update t.killed p true
    state := fun q => if q = p ∧ t.state p = .sleeping then .runnable else t.state q } := by
  unfold kill
  split
  · next sleeping =>
    simp only [sleeping, and_true]
    congr 1
    funext q
    rw [Function.update_apply]
  · next awake => simp only [awake, and_false, ↓reduceIte]

end Table

/-- The process holds `wait_lock` there. -/
def Pc.holds : Pc → Bool
  | .exitReparent _ _ | .exitWakeInit _ _ _ | .exitWakeParent _ _ | .exitFinal _ => true
  | .waitScan _ _ _ | .waitTest _ | .waitDoze _ => true
  | _ => false

/-- The process is inside of `kexit`. -/
def Pc.exiting : Pc → Bool
  | .exitLock _ | .exitReparent _ _ | .exitWakeInit _ _ _ | .exitWakeParent _ _ | .exitFinal _ | .dead => true
  | .user | .resting | .forkScan _ | .forkParent _ _ | .forkReady _ _ | .killScan _ _ => false
  | .waitLock _ | .waitScan _ _ _ | .waitTest _ | .waitDoze _ | .waitAsleep _ => false

/-- The process is inside of `sleep`. -/
def Pc.inSleep : Pc → Bool
  | .resting | .waitAsleep _ => true
  | _ => false

/-- The child that `kfork` has not made runnable yet. -/
def Pc.child? : Pc → Option Slot
  | .forkParent np _ | .forkReady np _ => some np
  | _ => none

/-- A process goes on without changing the table. -/
inductive Advance (s : System) (p : Slot) : Pc → Pc → Prop
  | fork : Advance s p .user (.forkScan 0)
  | exit (status) : p ≠ initproc → Advance s p .user (.exitLock status)
  | wait (addr) : Advance s p .user (.waitLock addr)
  | kill (pid) : Advance s p .user (.killScan pid 0)
  | forkOccupied (k) : s.table.state k ≠ .unused → Advance s p (.forkScan k) (.forkScan (k + 1))
  | reparentSkip (status k) : s.table.parent k ≠ some p →
      Advance s p (.exitReparent status k) (.exitReparent status (k + 1))
  | reparentEnd (status k) : nproc ≤ k → Advance s p (.exitReparent status k) (.exitWakeParent status 0)
  | wakeInitEnd (status k j) : nproc ≤ j → Advance s p (.exitWakeInit status k j) (.exitReparent status (k + 1))
  | wakeParentEnd (status j) : nproc ≤ j → Advance s p (.exitWakeParent status j) (.exitFinal status)
  | waitSkip (addr k havekids) : s.table.parent k ≠ some p →
      Advance s p (.waitScan addr k havekids) (.waitScan addr (k + 1) havekids)
  | waitLive (addr k havekids) : s.table.parent k = some p → s.table.state k ≠ .zombie →
      Advance s p (.waitScan addr k havekids) (.waitScan addr (k + 1) true)
  | waitEnd (addr k) : nproc ≤ k → Advance s p (.waitScan addr k true) (.waitTest addr)
  | waitAlive (addr) : s.table.killed p = false → Advance s p (.waitTest addr) (.waitDoze addr)
  | killSkip (pid k) : s.table.pid k ≠ pid → Advance s p (.killScan pid k) (.killScan pid (k + 1))

/-- What each step does. -/
inductive Step (s : System) : Act → System → Prop
  | advance (p act pc pc') : s.table.state p = .running → s.pc p = pc → Advance s p pc pc' → Step s act (s.setPc p pc')
  | halt (p status) : Step s (.call p (.exit status)) { s with panic := true }
  /- the scheduler and the other sleepers -/
  | run (p) : s.table.state p = .runnable → (s.pc p).inSleep = false →
      Step s (.run p) (s.setTable (s.table.setState p .running))
  | runRested (p) : s.table.state p = .runnable → s.pc p = .resting → Step s (.run p) ((s.setTable
        { s.table.setState p .running with chan := Function.update s.table.chan p none }).setPc p .user)
  | runWoken (p addr) : s.table.state p = .runnable → s.pc p = .waitAsleep addr → Step s (.run p) ((s.setTable
        { s.table.setState p .running with chan := Function.update s.table.chan p none }).setPc p (.waitLock addr))
  | yield (p) : s.table.state p = .running → s.waitLock ≠ some p →
      Step s (.yield p) (s.setTable (s.table.setState p .runnable))
  | sleep (p addr) : s.table.state p = .running → s.pc p = .user →
      Step s (.sleep p addr) ((s.setTable { s.table.setState p .sleeping with
        chan := Function.update s.table.chan p (some (.other addr)) }).setPc p .resting)
  | rouse (p) : s.table.state p = .sleeping → s.pc p = .resting →
      Step s (.rouse p) (s.setTable (s.table.setState p .runnable))
  | setkilled (p) : s.table.state p = .running → s.pc p = .user →
      Step s (.setkilled p) (s.setTable { s.table with killed := Function.update s.table.killed p true })
  /- `kfork` -/
  | forkFound (p k : Slot) : s.table.state p = .running → s.pc p = .forkScan k → s.table.state k = .unused →
      Step s (.step p true) ({ (s.setTable (s.table.allocproc k)).setPc k .user with
        ret := Function.update s.ret k 0 }.setPc p (.forkParent k ((s.table.allocproc k).pid k)))
  | forkFailed (p k : Slot) : s.table.state p = .running → s.pc p = .forkScan k → s.table.state k = .unused →
      Step s (.step p false) ((s.setTable ((s.table.allocproc k).freeproc k)).returns p (-1))
  | forkFull (p k ok) : s.table.state p = .running → s.pc p = .forkScan k → nproc ≤ k →
      Step s (.step p ok) (s.returns p (-1))
  | forkParent (p np pid ok) : s.table.state p = .running → s.pc p = .forkParent np pid →
      s.waitLock = none → Step s (.step p ok) ((s.setTable
        { s.table with parent := Function.update s.table.parent np (some p) }).setPc p (.forkReady np pid))
  | forkReady (p np pid ok) : s.table.state p = .running → s.pc p = .forkReady np pid →
      Step s (.step p ok) ((s.setTable (s.table.setState np .runnable)).returns p pid)
  /- `kexit` -/
  | exitLock (p status ok) : s.table.state p = .running → s.pc p = .exitLock status → s.waitLock = none →
      Step s (.step p ok) { s.setPc p (.exitReparent status 0) with waitLock := some p }
  | reparent (p k : Slot) (status : Int32) (ok : Bool) : s.table.state p = .running →
      s.pc p = .exitReparent status k → s.table.parent k = some p → Step s (.step p ok) ((s.setTable
        { s.table with parent := Function.update s.table.parent k (some initproc) }).setPc p (.exitWakeInit status k 0))
  | wakeInit (p j : Slot) (status : Int32) (k : ℕ) (ok : Bool) : s.table.state p = .running →
      s.pc p = .exitWakeInit status k j →
      Step s (.step p ok) ((s.setTable (s.table.wakeup p (some (.proc initproc)) j)).setPc p
        (.exitWakeInit status k (j + 1)))
  | wakeParent (p j : Slot) (status : Int32) (ok : Bool) : s.table.state p = .running →
      s.pc p = .exitWakeParent status j →
      Step s (.step p ok) ((s.setTable (s.table.wakeup p ((s.table.parent p).map .proc) j)).setPc p
        (.exitWakeParent status (j + 1)))
  | exitFinal (p status ok) : s.table.state p = .running → s.pc p = .exitFinal status →
      Step s (.step p ok) (s.exitFinal p status)
  /- `kwait` -/
  | waitLock (p addr ok) : s.table.state p = .running → s.pc p = .waitLock addr → s.waitLock = none →
      Step s (.step p ok) { s.setPc p (.waitScan addr 0 false) with waitLock := some p }
  | waitReturn (p pc ok) : s.table.state p = .running → s.pc p = pc → pc.holds = true →
      pc.exiting = false → Step s (.step p ok) { s.returns p (-1) with waitLock := none }
  | reap (p k : Slot) (addr : UInt64) (havekids ok : Bool) : s.table.state p = .running →
      s.pc p = .waitScan addr k havekids → s.table.parent k = some p → s.table.state k = .zombie →
      (addr = 0 ∨ ok = true) → Step s (.step p ok) (s.reap p addr k)
  | doze (p addr ok) : s.table.state p = .running → s.pc p = .waitDoze addr → Step s (.step p ok) (s.doze p addr)
  /- `kkill` -/
  | killHit (p k : Slot) (pid : Int32) (ok : Bool) : s.table.state p = .running → s.pc p = .killScan pid k →
      s.table.pid k = pid → Step s (.step p ok) ((s.setTable (s.table.kill k)).returns p 0)
  | killNone (p pid k ok) : s.table.state p = .running → s.pc p = .killScan pid k →
      nproc ≤ k → Step s (.step p ok) (s.returns p (-1))

namespace System

variable {s s' : System} {act : Act} {p : Slot} {ok : Bool}

theorem step_enter (running : s.table.state p = .running) (idle : s.pc p = .user) (call : Call) :
    Step s (.call p call) (s.enter p call) := by
  cases call with
  | fork => exact .advance p _ _ _ running idle .fork
  | exit status =>
    simp only [enter]
    split
    · exact .halt p status
    · next other => exact .advance p _ _ _ running idle (.exit status other)
  | wait addr => exact .advance p _ _ _ running idle (.wait addr)
  | kill pid => exact .advance p _ _ _ running idle (.kill pid)

theorem step_resume (ready : s.table.state p = .runnable) : Step s (.run p) (s.resume p) := by
  unfold resume
  split
  · next resting => exact .runRested p ready resting
  · next addr asleep => exact .runWoken p addr ready asleep
  · next resting asleep =>
    refine .run p ready ?_
    unfold Pc.inSleep
    split
    · next here => exact absurd here resting
    · next addr here => exact absurd here (asleep addr)
    · rfl

theorem step_next? (running : s.table.state p = .running) (moved : s.next? p ok = some s') :
    Step s (.step p ok) s' := by
  unfold next? at moved
  split at moved
  case h_1 k here =>
    cases moved
    unfold forkScan
    split
    · next inside =>
      split
      · next free =>
        cases ok with
        | true => exact .forkFound p ⟨k, inside⟩ running here free
        | false => exact .forkFailed p ⟨k, inside⟩ running here free
      · next occupied => exact .advance p _ _ _ running here (.forkOccupied ⟨k, inside⟩ occupied)
    · next full => exact .forkFull p k ok running here (Nat.not_lt.mp full)
  case h_2 np pid here =>
    obtain ⟨free, ⟨⟩⟩ := Option.ite_none_right_eq_some.mp moved
    exact .forkParent p np pid ok running here free
  case h_3 np pid here =>
    cases moved
    exact .forkReady p np pid ok running here
  case h_4 status here =>
    obtain ⟨free, ⟨⟩⟩ := Option.ite_none_right_eq_some.mp moved
    exact .exitLock p status ok running here free
  case h_5 status k here =>
    cases moved
    unfold exitReparent
    split
    · next inside =>
      split
      · next child => exact .reparent p ⟨k, inside⟩ status ok running here child
      · next other => exact .advance p _ _ _ running here (.reparentSkip status ⟨k, inside⟩ other)
    · next ended => exact .advance p _ _ _ running here (.reparentEnd status k (Nat.not_lt.mp ended))
  case h_6 status k j here =>
    cases moved
    unfold wakeRound
    split
    · next inside => exact .wakeInit p ⟨j, inside⟩ status k ok running here
    · next ended => exact .advance p _ _ _ running here (.wakeInitEnd status k j (Nat.not_lt.mp ended))
  case h_7 status j here =>
    cases moved
    unfold wakeRound
    split
    · next inside => exact .wakeParent p ⟨j, inside⟩ status ok running here
    · next ended => exact .advance p _ _ _ running here (.wakeParentEnd status j (Nat.not_lt.mp ended))
  case h_8 status here =>
    cases moved
    exact .exitFinal p status ok running here
  case h_9 addr here =>
    obtain ⟨free, ⟨⟩⟩ := Option.ite_none_right_eq_some.mp moved
    exact .waitLock p addr ok running here free
  case h_10 addr k havekids here =>
    cases moved
    unfold waitScan
    split
    · next inside =>
      split
      · next child =>
        split
        · next zombie =>
          split
          · exact .waitReturn p _ ok running here rfl rfl
          · next copied =>
            refine .reap p ⟨k, inside⟩ addr havekids ok running here child zombie ?_
            by_cases wanted : addr = 0
            · exact .inl wanted
            · exact .inr (by simpa [wanted] using copied)
        · next live => exact .advance p _ _ _ running here (.waitLive addr ⟨k, inside⟩ havekids child live)
      · next other => exact .advance p _ _ _ running here (.waitSkip addr ⟨k, inside⟩ havekids other)
    · next ended =>
      split
      · next kids =>
        subst kids
        exact .advance p _ _ _ running here (.waitEnd addr k (Nat.not_lt.mp ended))
      · exact .waitReturn p _ ok running here rfl rfl
  case h_11 addr here =>
    split at moved
    · cases moved
      exact .waitReturn p _ ok running here rfl rfl
    · next alive =>
      cases moved
      exact .advance p _ _ _ running here (.waitAlive addr (by simpa using alive))
  case h_12 addr here =>
    cases moved
    exact .doze p addr ok running here
  case h_13 pid k here =>
    cases moved
    unfold killScan
    split
    · next inside =>
      split
      · next named => exact .killHit p ⟨k, inside⟩ pid ok running here named
      · next other => exact .advance p _ _ _ running here (.killSkip pid ⟨k, inside⟩ other)
    · next ended => exact .killNone p pid k ok running here (Nat.not_lt.mp ended)
  all_goals cases moved

theorem step_of_step? (enabled : s.step? act = some s') : Step s act s' := by
  unfold step? at enabled
  split at enabled
  · cases enabled
  · cases act with
    | run p =>
      obtain ⟨ready, ⟨⟩⟩ := Option.ite_none_right_eq_some.mp enabled
      exact step_resume ready
    | yield p =>
      obtain ⟨⟨running, free⟩, ⟨⟩⟩ := Option.ite_none_right_eq_some.mp enabled
      exact .yield p running free
    | sleep p addr =>
      obtain ⟨⟨running, idle⟩, ⟨⟩⟩ := Option.ite_none_right_eq_some.mp enabled
      exact .sleep p addr running idle
    | rouse p =>
      obtain ⟨⟨sleeping, resting⟩, ⟨⟩⟩ := Option.ite_none_right_eq_some.mp enabled
      exact .rouse p sleeping resting
    | setkilled p =>
      obtain ⟨⟨running, idle⟩, ⟨⟩⟩ := Option.ite_none_right_eq_some.mp enabled
      exact .setkilled p running idle
    | call p call =>
      obtain ⟨⟨running, idle⟩, ⟨⟩⟩ := Option.ite_none_right_eq_some.mp enabled
      exact step_enter running idle call
    | step p ok =>
      obtain ⟨running, enabled⟩ := Option.ite_none_right_eq_some.mp enabled
      exact step_next? running enabled

end System

end Xv6.Proc
