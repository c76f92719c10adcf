import Xv6.Machine.Run
import Xv6.Proofs.Proc.Life

/-! # Exit and wait

`wait_lock` is held from the scan of `kwait` to its `sleep`, and from `reparent` in `kexit` until the
process is a zombie. Whoever looks at the table with the lock in hand therefore sees every exit as a whole,
and a parent that went to sleep before an exit is woken by it. At the points where nobody holds the lock:
no sleeper in `kwait` has a zombie child, and every process but `init` has a parent that can still wait for
it. Each exit is reaped once at most, by the parent.
-/

namespace Xv6.Proc

open Machine

/-- The process has not exited and can run, now or when it is woken. -/
def ProcState.live : ProcState → Bool
  | .sleeping | .runnable | .running => true
  | _ => false

/-- What a process does agrees with its state, and `wait_lock` with both. -/
structure Ordered (s : System) : Prop where
  holder : ∀ i, (s.pc i).holds = true ↔ s.waitLock = some i
  running : ∀ i, (s.pc i).holds = true → s.table.state i = .running
  asleep : ∀ i, s.table.state i = .sleeping → (s.pc i).inSleep = true
  channel : ∀ i addr, s.pc i = .waitAsleep addr → s.table.state i = .sleeping → s.table.chan i = some (.proc i)
  child : ∀ i np, (s.pc i).child? = some np → s.table.state np = .used
  single : ∀ i j np, (s.pc i).child? = some np → (s.pc j).child? = some np → i = j

namespace Ordered

variable {s s' : System} {act : Act} {i j : Slot}

theorem boot : Ordered .boot where
  holder := by simp [System.boot, Pc.holds]
  running := by simp [System.boot, Pc.holds]
  asleep i sleeping := by
    simp only [System.boot, Function.update_apply] at sleeping
    split at sleeping <;> cases sleeping
  channel := by simp [System.boot]
  child := by simp [System.boot, Pc.child?]
  single := by simp [System.boot, Pc.child?]

section

variable (ordered : Ordered s)
include ordered

theorem exclusive (first : (s.pc i).holds = true) (second : (s.pc j).holds = true) : j = i :=
  Option.some.inj (((ordered.holder j).mp second).symm.trans ((ordered.holder i).mp first))

theorem running_step (life : Life s s' i) (holds : (s'.pc i).holds = true) :
    s'.table.state i = .running := by
  cases life with
  | stays state pc => rw [state, ordered.running i (pc ▸ holds)]
  | goes _ state | scheduled _ state | resumed _ state => exact state
  | yields _ _ pc free => exact absurd ((ordered.holder i).mp (pc ▸ holds)) free
  | woken state _ pc | ready _ _ _ state _ pc => cases state.symm.trans (ordered.running i (pc ▸ holds))
  | rests _ _ _ pc | dozes _ _ _ _ pc | exits _ _ _ _ pc | allocated _ _ pc => simp [pc, Pc.holds] at holds
  | freed state _ pc => simp [ordered.running i (pc ▸ holds)] at state

theorem asleep_step (life : Life s s' i) (sleeping : s'.table.state i = .sleeping) :
    (s'.pc i).inSleep = true := by
  cases life with
  | stays state pc => rw [pc, ordered.asleep i (state ▸ sleeping)]
  | rests _ _ _ pc | dozes _ _ _ _ pc => rw [pc, Pc.inSleep]
  | _ => simp_all

theorem channel_step (life : Life s s' i) {addr : UInt64} (waits : s'.pc i = .waitAsleep addr)
    (sleeping : s'.table.state i = .sleeping) : s'.table.chan i = some (.proc i) := by
  cases life with
  | stays state pc chan => rw [chan, ordered.channel i addr (pc ▸ waits) (state ▸ sleeping)]
  | rests _ _ _ pc => cases pc.symm.trans waits
  | dozes _ _ _ _ _ chan => exact chan
  | _ => simp_all

/-- The child of a `kfork` stays as it is until its parent has made it runnable. -/
theorem child_step (step : Step s act s') {np : Slot} (forking : (s'.pc i).child? = some np) :
    s'.table.state np = .used := by
  rcases step.child forking with ⟨before, -⟩ | ⟨-, -, used, -, -⟩
  · have used := ordered.child i np before
    cases step.life ordered.child np with
    | stays state => rw [state, used]
    | ready p pid here _ _ _ returned =>
      obtain rfl := ordered.single i p np before (by rw [here]; rfl)
      simp [returned, Pc.child?] at forking
    | freed state => simp [used] at state
    | _ => simp_all
  · exact used

theorem single_step (step : Step s act s') {np : Slot} (first : (s'.pc i).child? = some np)
    (second : (s'.pc j).child? = some np) : i = j := by
  by_contra distinct
  rcases step.child first with ⟨before, -⟩ | ⟨-, free, -, -, others⟩ <;>
    rcases step.child second with ⟨earlier, -⟩ | ⟨-, vacant, -, -, -⟩
  · exact distinct (ordered.single i j np before earlier)
  · cases vacant.symm.trans (ordered.child i np before)
  · cases free.symm.trans (ordered.child j np earlier)
  · rcases others j (Ne.symm distinct) with same | idle
    · cases free.symm.trans (ordered.child j np (same ▸ second))
    · simp [idle, Pc.child?] at second

theorem holder_step (step : Step s act s') (i : Slot) :
    (s'.pc i).holds = true ↔ s'.waitLock = some i := by
  rcases step.lock ordered.running with ⟨lock, holds⟩ | ⟨p, free, lock, holds, others⟩ |
    ⟨p, held, lock, released, others⟩
  · rw [holds, lock, ordered.holder]
  · rcases eq_or_ne i p with rfl | other
    · simp [holds, lock]
    · rw [others i other, ordered.holder, free, lock]
      simpa using other.symm
  · rcases eq_or_ne i p with rfl | other
    · simp [released, lock]
    · rw [others i other, ordered.holder, (ordered.holder p).mp held, lock]
      simpa using other.symm

theorem step (step : Step s act s') : Ordered s' where
  holder := ordered.holder_step step
  running i := ordered.running_step (step.life ordered.child i)
  asleep i := ordered.asleep_step (step.life ordered.child i)
  channel i _ := ordered.channel_step (step.life ordered.child i)
  child _ _ := ordered.child_step step
  single _ _ _ := ordered.single_step step

end

end Ordered

variable {s s' : System}

/-- A process stays alive unless it is at the end of `kexit`. -/
theorem Life.live {i : Slot} (life : Life s s' i) (alive : (s.table.state i).live = true) :
    (s'.table.state i).live = true ∨ ∃ status, s.pc i = .exitFinal status := by
  cases life with
  | exits status _ _ here => exact .inr ⟨status, here⟩
  | freed state => rcases state with state | state <;> simp [state, ProcState.live] at alive
  | _ => simp_all [ProcState.live]

/-- Who is whose parent. `init` never exits, the parents are alive, and only a slot that is free or being
filled has none. A process in `kexit` has given away the children it has come across. -/
structure Family (s : System) : Prop where
  immortal : (s.pc initproc).exiting = false
  init : (s.table.state initproc).live = true
  free : ∀ k, s.table.state k = .unused → s.table.parent k = none
  parents : ∀ k p, s.table.parent k = some p → (s.table.state p).live = true
  orphans : ∀ k, s.table.parent k = none → k = initproc ∨ s.table.state k = .unused ∨ s.table.state k = .used
  newborn : ∀ i np pid, s.pc i = .forkParent np pid → s.table.parent np = none
  adopted : ∀ i np pid, s.pc i = .forkReady np pid → s.table.parent np = some i
  cleared : ∀ e c, (s.pc e).cleared c → s.table.parent c ≠ some e

namespace Family

variable {s s' : System} {act : Act} {i j : Slot}

theorem boot : Family .boot where
  immortal := rfl
  init := by simp [System.boot, ProcState.live]
  free _ _ := rfl
  parents := by simp [System.boot]
  orphans k _ := by
    simp only [System.boot, Function.update_apply]
    grind
  newborn := by simp [System.boot]
  adopted := by simp [System.boot]
  cleared := by simp [System.boot]

theorem init_step (family : Family s) (life : Life s s' initproc) : (s'.table.state initproc).live = true := by
  refine (life.live family.init).resolve_right ?_
  rintro ⟨status, leaving⟩
  have immortal := family.immortal
  simp [leaving, Pc.exiting] at immortal

variable {k np : Slot} {pid : Int32}

section

variable (family : Family s) (ordered : Ordered s) (step : Step s act s')
include family ordered step

theorem free_step (unused : s'.table.state k = .unused) : s'.table.parent k = none := by
  cases step.life ordered.child k with
  | stays state =>
    rw [state] at unused
    have orphan := family.free k unused
    rcases step.parent k with same | ⟨none, -⟩ | ⟨q, pid, forking, -⟩ | ⟨q, status, -, parent, -⟩
    · rw [same, orphan]
    · exact none
    · cases unused.symm.trans (ordered.child q k (by rw [forking]; rfl))
    · cases orphan.symm.trans parent
  | freed _ _ _ parent => exact parent
  | _ => simp_all

theorem parents_step {p : Slot} (parent : s'.table.parent k = some p) : (s'.table.state p).live = true := by
  rcases step.parent k with same | ⟨gone, -⟩ | ⟨q, pid, forking, running, -, now, -⟩ | ⟨q, status, -, -, now, -⟩
  · rw [same] at parent
    refine ((step.life ordered.child p).live (family.parents k p parent)).resolve_right ?_
    rintro ⟨status, leaving⟩
    exact family.cleared p k (by rw [leaving]; trivial) parent
  · cases gone.symm.trans parent
  · obtain rfl : q = p := Option.some.inj (now.symm.trans parent)
    refine ((step.life ordered.child q).live (by rw [running]; rfl)).resolve_right ?_
    rintro ⟨status, leaving⟩
    cases forking.symm.trans leaving
  · obtain rfl : initproc = p := Option.some.inj (now.symm.trans parent)
    exact family.init_step (step.life ordered.child initproc)

theorem orphans_step (orphan : s'.table.parent k = none) :
    k = initproc ∨ s'.table.state k = .unused ∨ s'.table.state k = .used := by
  rcases step.parent k with same | ⟨-, unused⟩ | ⟨q, pid, -, -, -, now, -⟩ | ⟨q, status, -, -, now, -⟩
  · rw [same] at orphan
    rcases family.orphans k orphan with init | unused | used
    · exact .inl init
    · cases step.life ordered.child k <;> simp_all
    · cases step.life ordered.child k with
      | ready p pid here => cases (family.adopted p k pid here).symm.trans orphan
      | freed state unused => exact .inr (.inl unused)
      | _ => simp_all
  · exact .inr (.inl unused)
  · cases now.symm.trans orphan
  · cases now.symm.trans orphan

theorem newborn_step (forking : s'.pc i = .forkParent np pid) : s'.table.parent np = none := by
  have child : (s'.pc i).child? = some np := by rw [forking]; rfl
  rcases step.child child with ⟨before, same | ⟨⟨_, now⟩, -⟩⟩ | ⟨-, unused, -, same, -⟩
  · rw [same] at forking
    have orphan := family.newborn i np pid forking
    rcases step.parent np with kept | ⟨none, -⟩ | ⟨q, number, here, -, -, -, now⟩ | ⟨q, status, -, parent, -, -⟩
    · rw [kept, orphan]
    · exact none
    · obtain rfl := ordered.single i q np before (by rw [here]; rfl)
      cases (same.trans forking).symm.trans now
    · cases orphan.symm.trans parent
  · cases now.symm.trans forking
  · rw [same, family.free np unused]

theorem adopted_step (forking : s'.pc i = .forkReady np pid) : s'.table.parent np = some i := by
  have child : (s'.pc i).child? = some np := by rw [forking]; rfl
  rcases step.child child with ⟨before, same | ⟨-, parent⟩⟩ | ⟨⟨number, here⟩, -⟩
  · rw [same] at forking
    have parent := family.adopted i np pid forking
    rcases step.parent np with kept | ⟨-, unused⟩ | ⟨q, number, here, -⟩ | ⟨q, status, here, own, -⟩
    · rw [kept, parent]
    · cases unused.symm.trans (ordered.child_step step child)
    · obtain rfl := ordered.single i q np before (by rw [here]; rfl)
      cases forking.symm.trans here
    · obtain rfl : q = i := Option.some.inj (own.symm.trans parent)
      cases forking.symm.trans here
  · exact parent
  · cases here.symm.trans forking

end

theorem cleared_step (family : Family s) (step : Step s act s') {e c : Slot} (cleared : (s'.pc e).cleared c) :
    s'.table.parent c ≠ some e := by
  have mortal : e ≠ initproc := by
    rintro rfl
    have immortal := step.exiting family.immortal
    revert cleared immortal
    cases s'.pc initproc <;> simp [Pc.cleared, Pc.exiting]
  rcases step.parent c with same | ⟨none, -⟩ | ⟨q, pid, -, -, -, parent, now⟩ | ⟨q, status, -, -, parent, -⟩
  · rcases step.cleared cleared with before | other | adopted
    · rw [same]
      exact family.cleared e c before
    · rwa [same]
    · rw [adopted]
      exact fun init => mortal (Option.some.inj init).symm
  · simp [none]
  · rw [parent]
    intro own
    rw [← Option.some.inj own, now] at cleared
    exact cleared
  · rw [parent]
    exact fun init => mortal (Option.some.inj init).symm

theorem step (family : Family s) (ordered : Ordered s) (step : Step s act s') : Family s' where
  immortal := step.exiting family.immortal
  init := family.init_step (step.life ordered.child initproc)
  free _ := family.free_step ordered step
  parents _ _ := family.parents_step ordered step
  orphans _ := family.orphans_step ordered step
  newborn _ _ _ := family.newborn_step ordered step
  adopted _ _ _ := family.adopted_step ordered step
  cleared _ _ := family.cleared_step step

end Family

/-- The process sleeps in `kwait`. -/
def System.Dozing (s : System) (p : Slot) : Prop :=
  s.table.state p = .sleeping ∧ ∃ addr, s.pc p = .waitAsleep addr

/-- No wakeup is lost. A sleeper in `kwait` with a zombie child is `init`, and it is about to be woken; a
process in `kexit` wakes its parent before it becomes a zombie; and `kwait` goes to sleep after it has seen
that no child is one. -/
structure Waking (s : System) : Prop where
  pending : ∀ z p, s.table.parent z = some p → s.table.state z = .zombie → s.Dozing p →
    p = initproc ∧ ∃ e status k j, s.pc e = .exitWakeInit status k j ∧ j ≤ initproc.val
  parent : ∀ e status j p, s.pc e = .exitWakeParent status j → s.table.parent e = some p → s.Dozing p → j ≤ p.val
  leaving : ∀ e status p, s.pc e = .exitFinal status → s.table.parent e = some p → ¬ s.Dozing p
  scanned : ∀ p c, (s.pc p).scanned c → s.table.parent c = some p → s.table.state c ≠ .zombie

namespace Waking

variable {s s' : System} {act : Act} {i j : Slot}

theorem boot : Waking .boot where
  pending := by simp [System.boot]
  parent := by simp [System.boot]
  leaving := by simp [System.boot]
  scanned := by simp [System.boot]

/-- A sleeper in `kwait` slept before, or has just made its scan. -/
theorem dozing (life : Life s s' i) (dozing : s'.Dozing i) :
    s.Dozing i ∨ ∃ addr, s.pc i = .waitDoze addr := by
  obtain ⟨sleeping, addr, waits⟩ := dozing
  cases life with
  | stays state pc => exact .inl ⟨state ▸ sleeping, addr, pc ▸ waits⟩
  | rests _ _ _ pc => cases pc.symm.trans waits
  | dozes other _ _ here => exact .inr ⟨other, here⟩
  | _ => simp_all

variable {e p : Slot} {status : Int32}

/-- A loop of `wakeup` that has come to a sleeper in `kwait` wakes it. -/
theorem woken (ordered : Ordered s) (running : s.table.state e = .running) (dozing : s.Dozing p)
    (table : s'.table = s.table.wakeup e (some (.proc p)) p) : ¬ s'.Dozing p := by
  rintro ⟨sleeping, -⟩
  obtain ⟨asleep, addr, waits⟩ := dozing
  have other : p ≠ e := by
    rintro rfl
    cases running.symm.trans asleep
  rw [table, Table.wakeup, if_pos ⟨other, asleep, ordered.channel p addr waits asleep⟩] at sleeping
  simp at sleeping

/-- The owner of `wait_lock` keeps its parent, and nobody goes to sleep in `kwait` then. -/
theorem held (ordered : Ordered s) (step : Step s act s') (holds : (s.pc e).holds = true)
    (here : ∀ status k, s.pc e ≠ .exitReparent status k) (awake : ∀ addr, s.pc e ≠ .waitDoze addr)
    (parent : s'.table.parent e = some p) (dozing : s'.Dozing p) : s.table.parent e = some p ∧ s.Dozing p := by
  constructor
  · rcases step.parent e with same | ⟨none, -⟩ | ⟨q, pid, -, -, free, -⟩ | ⟨q, status, exiting, -⟩
    · rwa [same] at parent
    · cases none.symm.trans parent
    · rw [(ordered.holder e).mp holds] at free
      cases free
    · obtain rfl := ordered.exclusive holds (show (s.pc q).holds = true by rw [exiting]; rfl)
      exact absurd exiting (here status _)
  · refine (Waking.dozing (step.life ordered.child p) dozing).resolve_right ?_
    rintro ⟨addr, slept⟩
    obtain rfl := ordered.exclusive holds (show (s.pc p).holds = true by rw [slept]; rfl)
    exact awake addr slept

section

variable (waking : Waking s) (ordered : Ordered s) (step : Step s act s')
include waking ordered step

theorem pending_step {z : Slot}
    (parent : s'.table.parent z = some p) (zombie : s'.table.state z = .zombie) (dozing : s'.Dozing p) :
    p = initproc ∧ ∃ e status k j, s'.pc e = .exitWakeInit status k j ∧ j ≤ initproc.val := by
  cases step.life ordered.child z with
  | exits status _ _ leaving =>
    obtain ⟨own, slept⟩ :=
      held ordered step (by rw [leaving]; rfl) (by simp [leaving]) (by simp [leaving]) parent dozing
    exact absurd slept (waking.leaving z status p leaving own)
  | stays state =>
    rw [state] at zombie
    rcases step.parent z with same | ⟨none, -⟩ | ⟨q, pid, forking, -⟩ | ⟨q, status, -, -, now, wakes⟩
    · rw [same] at parent
      rcases Waking.dozing (step.life ordered.child p) dozing with slept | ⟨addr, scanned⟩
      · obtain ⟨rfl, e, status, k, j, here, ahead⟩ := waking.pending z p parent zombie slept
        have running := ordered.running e (by rw [here]; rfl)
        refine ⟨rfl, e, status, k, ?_⟩
        rcases step.wakingInit running here with same | ended | ⟨q, at_slot, now, table⟩
        · exact ⟨j, same, ahead⟩
        · exact absurd (Nat.le_trans ended ahead) (Nat.not_le.mpr initproc.isLt)
        · refine ⟨j + 1, now, ?_⟩
          -- the loop has not passed `init`, which still sleeps
          rcases Nat.lt_or_eq_of_le ahead with before | here
          · exact before
          · obtain rfl : q = initproc := Fin.ext (at_slot.trans here)
            exact absurd dozing (woken ordered running slept table)
      · exact absurd zombie (waking.scanned p z (by rw [scanned]; trivial) parent)
    · cases none.symm.trans parent
    · cases zombie.symm.trans (ordered.child q z (by rw [forking]; rfl))
    · exact ⟨Option.some.inj (parent.symm.trans now), q, status, z, 0, wakes, Nat.zero_le _⟩
  | _ => simp_all

theorem parent_step {j : ℕ} (here : s'.pc e = .exitWakeParent status j) (parent : s'.table.parent e = some p)
    (dozing : s'.Dozing p) : j ≤ p.val := by
  rcases step.wakingParent here with same | rfl | ⟨q, rfl, before, table⟩
  · obtain ⟨own, slept⟩ := held ordered step (by rw [same]; rfl) (by simp [same]) (by simp [same]) parent dozing
    exact waking.parent e status j p same own slept
  · exact Nat.zero_le _
  · obtain ⟨own, slept⟩ := held ordered step (by rw [before]; rfl) (by simp [before]) (by simp [before]) parent dozing
    have ahead := waking.parent e status q p before own slept
    -- the loop has not passed the parent, which still sleeps
    rcases Nat.lt_or_eq_of_le ahead with earlier | passed
    · exact earlier
    · obtain rfl : q = p := Fin.ext passed
      rw [own] at table
      exact absurd dozing (woken ordered (ordered.running e (by rw [before]; rfl)) slept table)

theorem leaving_step (leaving : s'.pc e = .exitFinal status) (parent : s'.table.parent e = some p) : ¬ s'.Dozing p := by
  intro dozing
  rcases step.leaving leaving with same | ⟨j, ended, before⟩
  · obtain ⟨own, slept⟩ := held ordered step (by rw [same]; rfl) (by simp [same]) (by simp [same]) parent dozing
    exact waking.leaving e status p same own slept
  · obtain ⟨own, slept⟩ := held ordered step (by rw [before]; rfl) (by simp [before]) (by simp [before]) parent dozing
    exact absurd (Nat.le_trans ended (waking.parent e status j p before own slept)) (Nat.not_le.mpr p.isLt)

theorem scanned_step {c : Slot}
    (scanned : (s'.pc p).scanned c) (parent : s'.table.parent c = some p) : s'.table.state c ≠ .zombie := by
  intro zombie
  have lock := (ordered.holder_step step p).mp scanned.holds
  -- no child becomes a zombie while its parent holds the lock
  have before : s.table.state c = .zombie := by
    rcases step.record ordered.child c with ⟨-, -, same, -⟩ | ⟨-, -, released, -⟩ | ⟨same, -⟩
    · exact same.mp zombie
    · cases released.symm.trans lock
    · exact same
  have own : s.table.parent c = some p := by
    rcases step.parent c with same | ⟨none, -⟩ | ⟨q, pid, -, -, -, now, moved⟩ | ⟨q, status, -, -, -, moved⟩
    · rwa [same] at parent
    · cases none.symm.trans parent
    · obtain rfl : q = p := Option.some.inj (now.symm.trans parent)
      rw [moved] at scanned
      exact scanned.elim
    · have owner := (ordered.holder_step step q).mp (by rw [moved]; rfl)
      obtain rfl : q = p := Option.some.inj (owner.symm.trans lock)
      rw [moved] at scanned
      exact scanned.elim
  rcases step.scanned scanned with earlier | other | alive
  · exact waking.scanned p c earlier own before
  · exact other own
  · exact alive before

end

theorem step (waking : Waking s) (ordered : Ordered s) (step : Step s act s') : Waking s' where
  pending _ _ := waking.pending_step ordered step
  parent _ _ _ _ := waking.parent_step ordered step
  leaving _ _ _ := waking.leaving_step ordered step
  scanned _ _ := waking.scanned_step ordered step

end Waking

/-- The exits from a slot are those reaped, and the one that waits to be. -/
def Recorded (s : System) : Prop :=
  ∀ k, s.exits k = s.reaps k ++ if s.table.state k = .zombie then [(s.table.pid k, s.table.xstate k)] else []

theorem Recorded.step {act : Act} (recorded : Recorded s) (ordered : Ordered s)
    (step : Step s act s') : Recorded s' := by
  intro k
  have before := recorded k
  rcases step.record ordered.child k with ⟨exits, reaps, same, kept⟩ | ⟨running, zombie, -, reaps, exits⟩ |
    ⟨zombie, unused, exits, reaps, -⟩
  · rw [exits, reaps, before]
    by_cases zombie : s.table.state k = .zombie
    · simp [zombie, same.mpr zombie, kept zombie]
    · simp [zombie, mt same.mp zombie]
  · simp [exits, reaps, before, running, zombie]
  · simp [exits, reaps, before, zombie, unused]

/-- What holds in every state that some interleaving reaches. -/
theorem reachable {acts : List Act} (reached : run? System.step? .boot acts = some s) :
    Ordered s ∧ Family s ∧ Waking s ∧ Recorded s :=
  run?_history System.step? (fun _ s => Ordered s ∧ Family s ∧ Waking s ∧ Recorded s)
    ⟨.boot, .boot, .boot, by simp [Recorded, System.boot, Function.update_apply]; grind⟩
    (fun _ _ _ _ _ ⟨ordered, family, waking, recorded⟩ enabled =>
      have step := System.step_of_step? enabled
      ⟨ordered.step step, family.step ordered step, waking.step ordered step, recorded.step ordered step⟩) reached

/-- Whenever `wait_lock` is free, no process asleep in `kwait` has a zombie child, and every process but
`init` that runs, can run, sleeps or is a zombie has a parent that is neither free nor a zombie. Each exit
from a slot is reaped once at most, by a `kwait` of the parent that returns its pid and, if asked, copies its
status; when the copy fails, the process stays a zombie and the table is as before. -/
theorem exit_wait {acts : List Act} {s : System} (reached : run? System.step? .boot acts = some s) :
    (s.waitLock = none →
      (∀ p z addr, s.pc p = .waitAsleep addr → s.table.state p = .sleeping → s.table.parent z = some p →
        s.table.state z ≠ .zombie) ∧
      ∀ k, k ≠ initproc → s.table.state k ≠ .unused → s.table.state k ≠ .used →
        ∃ p, s.table.parent k = some p ∧ s.table.state p ≠ .unused ∧ s.table.state p ≠ .zombie) ∧
    (∀ k, s.exits k = s.reaps k ++ if s.table.state k = .zombie then [(s.table.pid k, s.table.xstate k)] else []) ∧
    (∀ act s' k, s.step? act = some s' → s'.reaps k ≠ s.reaps k →
      s.table.state k = .zombie ∧ s'.reaps k = s.reaps k ++ [(s.table.pid k, s.table.xstate k)] ∧
        ∃ p ok addr havekids, act = .step p ok ∧ s.pc p = .waitScan addr k havekids ∧ s.table.parent k = some p ∧
          s'.ret p = s.table.pid k ∧ (addr ≠ 0 → s'.copied p = some (s.table.xstate k))) ∧
    ∀ p (k : Slot) addr havekids s', s.pc p = .waitScan addr k havekids → s.table.parent k = some p →
      s.table.state k = .zombie → addr ≠ 0 → s.step? (.step p false) = some s' →
      s'.ret p = -1 ∧ s'.table = s.table ∧ s'.reaps = s.reaps ∧ s'.waitLock = none := by
  obtain ⟨ordered, family, waking, recorded⟩ := reachable reached
  refine ⟨fun free => ⟨fun p z addr waits asleep parent zombie => ?_, fun k other used born => ?_⟩, recorded,
    fun act s' k enabled changed => ?_, fun p k addr havekids s' scanning parent zombie wanted enabled => ?_⟩
  · obtain ⟨-, e, status, k, j, here, -⟩ := waking.pending z p parent zombie ⟨asleep, addr, waits⟩
    cases free.symm.trans ((ordered.holder e).mp (by rw [here]; rfl))
  · obtain ⟨p, parent⟩ : ∃ p, s.table.parent k = some p := by
      rw [← Option.ne_none_iff_exists']
      intro orphan
      rcases family.orphans k orphan with init | unused | fresh
      · exact other init
      · exact used unused
      · exact born fresh
    have alive := family.parents k p parent
    refine ⟨p, parent, ?_, ?_⟩ <;> intro state <;> simp [state, ProcState.live] at alive
  · rcases (System.step_of_step? enabled).record ordered.child k with ⟨-, same, -⟩ | ⟨-, -, -, same, -⟩ |
      ⟨zombie, -, -, reaps, reaper⟩
    · exact absurd same changed
    · exact absurd same changed
    · exact ⟨zombie, reaps, reaper⟩
  · simp only [System.step?, System.next?, scanning] at enabled
    simp [System.waitScan, parent, zombie, wanted, System.returns, System.setPc] at enabled
    obtain ⟨-, -, rfl⟩ := enabled
    simp

/-- The child of `init`. -/
def child : Slot := ⟨1, by decide⟩

/-- `init` forks and waits. Its child exits with status `3` and wakes it, and it has come to the slot of the child. -/
def childExit : List Act :=
  [.run initproc, .call initproc .fork] ++ List.replicate 4 (.step initproc true) ++
    .call initproc (.wait 8) :: List.replicate 68 (.step initproc true) ++
    [.run child, .call child (.exit 3)] ++ List.replicate 132 (.step child true) ++
    [.run initproc, .step initproc true, .step initproc true]

theorem run_childExit : ((run? System.step? .boot childExit).any fun s => s.pc initproc = .waitScan 8 child false ∧
    s.table.parent child = some initproc ∧ s.table.state child = .zombie ∧ s.table.state initproc = .running ∧
      s.panic = false ∧ s.table.pid child = 2 ∧ s.table.xstate child = 3 ∧ s.reaps child = []) = true := by
      decide +kernel

/-- Where the status cannot be copied the call fails, and the child can still be waited for; where it can, the call
returns the pid. -/
theorem exit_wait_childExit : ∃ s s₁ s₂, run? System.step? .boot childExit = some s ∧ s.exits child = [(2, 3)] ∧
    s.step? (.step initproc false) = some s₁ ∧ s₁.ret initproc = -1 ∧ s₁.table = s.table ∧
    s.step? (.step initproc true) = some s₂ ∧ s₂.ret initproc = 2 ∧ s₂.copied initproc = some 3 ∧
    s₂.reaps child = [(2, 3)] := by
  obtain ⟨s, reached, facts⟩ := (Option.any_eq_true ..).mp run_childExit
  obtain ⟨scanning, parent, zombie, running, calm, pid, status, unreaped⟩ := of_decide_eq_true facts
  have goes (ok : Bool) : s.step? (.step initproc ok) = some (s.waitScan initproc 8 child false ok) := by
    simp [System.step?, System.next?, calm, running, scanning]
  have reaped : (s.waitScan initproc 8 child false true).reaps child ≠ s.reaps child := by
    simp [System.waitScan, System.reap, child.isLt, parent, zombie]
  obtain ⟨-, exits, reaps, fails⟩ := exit_wait reached
  obtain ⟨-, record, p, ok, addr, havekids, same, there, -, ret, copied⟩ := reaps _ _ child (goes true) reaped
  obtain ⟨rfl, -⟩ := Act.step.inj same
  cases scanning.symm.trans there
  obtain ⟨failed, kept, -⟩ := fails initproc child 8 false _ scanning parent zombie (by decide) (goes false)
  refine ⟨s, _, _, reached, ?_, goes false, failed, kept, goes true, ret.trans pid, (copied (by decide)).trans ?_, ?_⟩
  · rw [exits, unreaped, if_pos zombie, pid, status]
    rfl
  · rw [status]
  · rw [record, unreaped, pid, status]
    rfl

end Xv6.Proc
