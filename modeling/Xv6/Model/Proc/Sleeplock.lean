import Xv6.Model.Proc.Table

/-! # Sleep locks

`acquiresleep`, `releasesleep`, `holdingsleep`, `sleep`, `wakeup` and `kkill` around one sleep lock, in a process
table of any size. The steps are what is done under one spin lock. The inner lock of the sleep lock is held
over several of them, so its owner is part of the state; so is `p->lock` between the points where `sleep`
acquires it and where the scheduler releases it. The loop of `wakeup` makes one step for each slot, and has
to wait while `p->lock` is held. Processes are preempted, sleep on other channels, also while they have the
sleep lock, and are woken from there. The slot that `kkill` finds can be any.
-/

namespace Xv6.Proc.Sleeplock

/-- The address of the sleep lock, or another one. -/
inductive Chan where
  | lock
  | other (addr : ℕ)
deriving DecidableEq, Repr

/-- Where a process is. -/
inductive Pc where
  /-- outside of the functions below, without the lock -/
  | idle
  /-- about to acquire `lk->lk` in `acquiresleep`, or in the `sleep` that it called -/
  | acquireLock
  /-- at the head of the loop -/
  | acquireTest
  /-- in `sleep`, about to acquire `p->lock` -/
  | sleepLock
  /-- about to release `lk->lk` -/
  | sleepRelease
  /-- about to set `p->chan` and `p->state` -/
  | sleepMark
  /-- in `sched`, called by `sleep` -/
  | asleep
  /-- between `acquiresleep` and `releasesleep` -/
  | holding
  /-- about to acquire `lk->lk` in `releasesleep` -/
  | releaseLock
  /-- in the loop of `wakeup`, which has come to a slot -/
  | releaseWake (k : ℕ)
deriving DecidableEq, Repr

structure System (n : ℕ) where
  locked : Bool
  /-- `lk->pid`, as a slot. -/
  pid : Option (Fin n)
  /-- The owner of `lk->lk`. -/
  lk : Option (Fin n)
  /-- Whether `p->lock` is held. -/
  plock : Fin n → Bool
  state : Fin n → ProcState
  chan : Fin n → Option Chan
  killed : Fin n → Bool
  pc : Fin n → Pc
  /-- What the last call of `holdingsleep` returned. -/
  ret : Fin n → Bool

inductive Act (n : ℕ) where
  | acquiresleep (p : Fin n)
  | releasesleep (p : Fin n)
  | holdingsleep (p : Fin n)
  /-- the process goes on in one of the functions -/
  | step (p : Fin n)
  | kkill (p : Fin n)
  /-- the scheduler picks the process -/
  | run (p : Fin n)
  | yield (p : Fin n)
  /-- the process goes to sleep elsewhere -/
  | nap (p : Fin n) (addr : ℕ)
  /-- somebody wakes the process from there -/
  | rouse (p : Fin n)
deriving DecidableEq, Repr

namespace System

variable {n : ℕ}

/-- All processes are ready to run, and nobody has the lock. -/
def initsleeplock (n : ℕ) : System n where
  locked := false
  pid := none
  lk := none
  plock _ := false
  state _ := .runnable
  chan _ := none
  killed _ := false
  pc _ := .idle
  ret _ := false

def setPc (s : System n) (p : Fin n) (pc : Pc) : System n := { s with pc := Function.update s.pc p pc }

def setState (s : System n) (p : Fin n) (state : ProcState) : System n :=
  { s with state := Function.update s.state p state }

/-- One round of the loop of `wakeup`. -/
def wakeup (s : System n) (p : Fin n) : System n :=
  if s.state p = .sleeping ∧ s.chan p = some .lock then s.setState p .runnable else s

/-- The round of the loop of `kkill` that finds its process. -/
def kkill (s : System n) (p : Fin n) : System n :=
  { (if s.state p = .sleeping then s.setState p .runnable else s) with killed := Function.update s.killed p true }

/-- The next step of a process in one of the functions; `none` while it waits for a lock or is in `sched`. -/
def next? (s : System n) (p : Fin n) : Option (System n) :=
  match s.pc p with
  | .idle | .asleep | .holding => none
  | .acquireLock => if s.lk = none then some { s.setPc p .acquireTest with lk := some p } else none
  | .acquireTest =>
      if s.locked then some (s.setPc p .sleepLock)
      else some { s.setPc p .holding with locked := true, pid := some p, lk := none }
  | .sleepLock =>
      if s.plock p then none else some { s.setPc p .sleepRelease with plock := Function.update s.plock p true }
  | .sleepRelease => some { s.setPc p .sleepMark with lk := none }
  | .sleepMark =>
      some { (s.setPc p .asleep).setState p .sleeping with
        chan := Function.update s.chan p (some .lock)
        plock := Function.update s.plock p false }
  | .releaseLock =>
      if s.lk = none then some { s.setPc p (.releaseWake 0) with lk := some p, locked := false, pid := none } else none
  | .releaseWake k =>
      if h : k < n then
        if ⟨k, h⟩ = p then some (s.setPc p (.releaseWake (k + 1)))
        else if s.plock ⟨k, h⟩ then none
        else some ((s.wakeup ⟨k, h⟩).setPc p (.releaseWake (k + 1)))
      else some { s.setPc p .idle with lk := none }

/-- A process that the scheduler has picked returns from `sched`, and clears `p->chan` if it was asleep. -/
def resume (s : System n) (p : Fin n) : System n :=
  { (s.setState p .running).setPc p (if s.pc p = .asleep then .acquireLock else s.pc p) with
    chan := Function.update s.chan p none }

def step? (s : System n) : Act n → Option (System n)
  | .acquiresleep p => if s.state p = .running ∧ s.pc p = .idle then some (s.setPc p .acquireLock) else none
  | .releasesleep p => if s.state p = .running ∧ s.pc p = .holding then some (s.setPc p .releaseLock) else none
  | .holdingsleep p =>
      if s.state p = .running ∧ (s.pc p = .idle ∨ s.pc p = .holding) ∧ s.lk = none then
        some { s with ret := Function.update s.ret p (s.locked && s.pid = some p) }
      else none
  | .step p => if s.state p = .running then s.next? p else none
  | .kkill p => if s.plock p then none else some (s.kkill p)
  | .run p => if s.state p = .runnable ∧ s.plock p = false then some (s.resume p) else none
  | .yield p =>
      if s.state p = .running ∧ (s.pc p = .idle ∨ s.pc p = .acquireLock ∨ s.pc p = .holding ∨
        s.pc p = .releaseLock) then
        some (s.setState p .runnable)
      else none
  | .nap p addr =>
      if s.state p = .running ∧ (s.pc p = .idle ∨ s.pc p = .holding) then
        some { s.setState p .sleeping with chan := Function.update s.chan p (some (.other addr)) }
      else none
  | .rouse p =>
      if s.state p = .sleeping ∧ s.chan p ≠ some .lock then some (s.setState p .runnable) else none

end System

end Xv6.Proc.Sleeplock
