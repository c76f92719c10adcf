import Mathlib.Data.Nat.Notation
import Mathlib.Logic.Function.Basic

/-! # The process table

`kfork`, `kexit`, `kwait` and `kkill`, run by any number of processes. The steps are the critical sections
under `p->lock`; `wait_lock` is held over several of them, so its owner is part of the state. Each loop over
the table makes one step for each slot. Whether an allocation or a copy to user memory succeeds is an input
of the step. The rest of the kernel is present as far as it changes the table: processes are scheduled, go
to sleep on channels of their own, and are woken.
-/

namespace Xv6.Proc

def nproc : ℕ := 64

abbrev Slot := Fin nproc

/-- `userinit` takes the first slot. -/
def initproc : Slot := ⟨0, by decide⟩

inductive ProcState where
  | unused
  | used
  | sleeping
  | runnable
  | running
  | zombie
deriving DecidableEq, Repr

/-- A sleep channel: the address of a process, on which it sleeps in `kwait`, or any other address. -/
inductive Chan where
  | proc (p : Slot)
  | other (addr : ℕ)
deriving DecidableEq, Repr

/-- The fields of the slots, and `nextpid`. -/
structure Table where
  state : Slot → ProcState
  chan : Slot → Option Chan
  killed : Slot → Bool
  xstate : Slot → Int32
  pid : Slot → Int32
  parent : Slot → Option Slot
  nextpid : Int32

namespace Table

def setState (t : Table) (p : Slot) (state : ProcState) : Table :=
  { t with state := Function.update t.state p state }

/-- The part of `allocproc` after the label `found`; nothing resets `killed`, `xstate`, `chan` or `parent`. -/
def allocproc (t : Table) (p : Slot) : Table :=
  { t with
    pid := Function.update t.pid p t.nextpid
    nextpid := t.nextpid + 1
    state := Function.update t.state p .used }

def freeproc (t : Table) (p : Slot) : Table :=
  { t with
    pid := Function.update t.pid p 0
    parent := Function.update t.parent p none
    chan := Function.update t.chan p none
    killed := Function.update t.killed p false
    xstate := Function.update t.xstate p 0
    state := Function.update t.state p .unused }

/-- One round of the loop of `wakeup`, called by process `me`. -/
def wakeup (t : Table) (me : Slot) (chan : Option Chan) (p : Slot) : Table :=
  if p ≠ me ∧ t.state p = .sleeping ∧ t.chan p = chan then t.setState p .runnable else t

/-- The round of the loop of `kkill` that finds its process. -/
def kill (t : Table) (p : Slot) : Table :=
  { t with
    killed := Function.update t.killed p true
    state := if t.state p = .sleeping then Function.update t.state p .runnable else t.state }

end Table

/-- Where a process is in the kernel. Numbers are the slots that the loops have come to. -/
inductive Pc where
  /-- outside of the functions below -/
  | user
  /-- in `sleep` outside of `kwait` -/
  | resting
  /-- in the loop of `allocproc`, called by `kfork` -/
  | forkScan (k : ℕ)
  /-- about to set the parent of the child, whose pid is known -/
  | forkParent (np : Slot) (pid : Int32)
  /-- about to make the child runnable -/
  | forkReady (np : Slot) (pid : Int32)
  /-- about to acquire `wait_lock` in `kexit` -/
  | exitLock (status : Int32)
  /-- in the loop of `reparent` -/
  | exitReparent (status : Int32) (k : ℕ)
  /-- in the loop of `wakeup(initproc)`, called by `reparent` -/
  | exitWakeInit (status : Int32) (k j : ℕ)
  /-- in the loop of `wakeup(p->parent)` -/
  | exitWakeParent (status : Int32) (j : ℕ)
  /-- about to become a zombie -/
  | exitFinal (status : Int32)
  | dead
  /-- about to acquire `wait_lock` in `kwait`, or in the `sleep` that it called -/
  | waitLock (addr : UInt64)
  | waitScan (addr : UInt64) (k : ℕ) (havekids : Bool)
  /-- about to call `killed` -/
  | waitTest (addr : UInt64)
  /-- about to go to sleep -/
  | waitDoze (addr : UInt64)
  /-- in `sleep`, called by `kwait` -/
  | waitAsleep (addr : UInt64)
  | killScan (pid : Int32) (k : ℕ)
deriving DecidableEq, Repr

/-- The table, what each process is doing, the value its last system call returned, the last exit status
that was copied to its memory, and the owner of `wait_lock`. For each slot the record has the pid and the
status of those that exited in it and of those that were reaped from it. -/
structure System where
  table : Table
  pc : Slot → Pc
  ret : Slot → Int32
  copied : Slot → Option Int32
  waitLock : Option Slot
  exits : Slot → List (Int32 × Int32)
  reaps : Slot → List (Int32 × Int32)
  panic : Bool

inductive Call where
  | fork
  | exit (status : Int32)
  | wait (addr : UInt64)
  | kill (pid : Int32)
deriving DecidableEq, Repr

inductive Act where
  /-- the scheduler picks the process -/
  | run (p : Slot)
  | yield (p : Slot)
  /-- the process goes to sleep outside of `kwait` -/
  | sleep (p : Slot) (addr : ℕ)
  /-- somebody wakes a process that sleeps outside of `kwait` -/
  | rouse (p : Slot)
  | setkilled (p : Slot)
  | call (p : Slot) (call : Call)
  /-- the process goes on; `ok` tells whether memory can be allocated or copied to -/
  | step (p : Slot) (ok : Bool)
deriving DecidableEq, Repr

namespace System

def setPc (s : System) (p : Slot) (pc : Pc) : System := { s with pc := Function.update s.pc p pc }

def setTable (s : System) (table : Table) : System := { s with table }

/-- A system call of `p` returns. -/
def returns (s : System) (p : Slot) (value : Int32) : System :=
  { s.setPc p .user with ret := Function.update s.ret p value }

/-- One round of `allocproc`. When it finds a slot, `kfork` goes on until it releases `np->lock`. -/
def forkScan (s : System) (p : Slot) (k : ℕ) (ok : Bool) : System :=
  if h : k < nproc then
    if s.table.state ⟨k, h⟩ = .unused then
      let table := s.table.allocproc ⟨k, h⟩
      if ok then
        { (s.setTable table).setPc ⟨k, h⟩ .user with ret := Function.update s.ret ⟨k, h⟩ 0 }.setPc p
          (.forkParent ⟨k, h⟩ (table.pid ⟨k, h⟩))
      else (s.setTable (table.freeproc ⟨k, h⟩)).returns p (-1)
    else s.setPc p (.forkScan (k + 1))
  else s.returns p (-1)

/-- One round of `reparent`. -/
def exitReparent (s : System) (p : Slot) (status : Int32) (k : ℕ) : System :=
  if h : k < nproc then
    if s.table.parent ⟨k, h⟩ = some p then
      (s.setTable { s.table with parent := Function.update s.table.parent ⟨k, h⟩ (some initproc) }).setPc p
        (.exitWakeInit status k 0)
    else s.setPc p (.exitReparent status (k + 1))
  else s.setPc p (.exitWakeParent status 0)

/-- One round of the loop of `wakeup`, called by `p`, which then goes on. -/
def wakeRound (s : System) (p : Slot) (chan : Option Chan) (j : ℕ) (more last : Pc) : System :=
  if h : j < nproc then (s.setTable (s.table.wakeup p chan ⟨j, h⟩)).setPc p more else s.setPc p last

/-- The end of `kexit`. -/
def exitFinal (s : System) (p : Slot) (status : Int32) : System :=
  { s.setPc p .dead with
    table := { s.table.setState p .zombie with xstate := Function.update s.table.xstate p status }
    waitLock := none
    exits := Function.update s.exits p (s.exits p ++ [(s.table.pid p, status)]) }

/-- `kwait` reaps the zombie in slot `pp`. -/
def reap (s : System) (p : Slot) (addr : UInt64) (pp : Slot) : System :=
  { (s.setTable (s.table.freeproc pp)).returns p (s.table.pid pp) with
    waitLock := none
    copied := if addr = 0 then s.copied else Function.update s.copied p (some (s.table.xstate pp))
    reaps := Function.update s.reaps pp (s.reaps pp ++ [(s.table.pid pp, s.table.xstate pp)]) }

/-- One round of the scan of `kwait`. -/
def waitScan (s : System) (p : Slot) (addr : UInt64) (k : ℕ) (havekids ok : Bool) : System :=
  if h : k < nproc then
    if s.table.parent ⟨k, h⟩ = some p then
      if s.table.state ⟨k, h⟩ = .zombie then
        if addr ≠ 0 ∧ ok = false then { s.returns p (-1) with waitLock := none }
        else s.reap p addr ⟨k, h⟩
      else s.setPc p (.waitScan addr (k + 1) true)
    else s.setPc p (.waitScan addr (k + 1) havekids)
  else if havekids then s.setPc p (.waitTest addr)
  else { s.returns p (-1) with waitLock := none }

/-- The section of `sleep` that `kwait` calls. -/
def doze (s : System) (p : Slot) (addr : UInt64) : System :=
  { s.setPc p (.waitAsleep addr) with
    table := { s.table.setState p .sleeping with chan := Function.update s.table.chan p (some (.proc p)) }
    waitLock := none }

/-- One round of the loop of `kkill`. -/
def killScan (s : System) (p : Slot) (pid : Int32) (k : ℕ) : System :=
  if h : k < nproc then
    if s.table.pid ⟨k, h⟩ = pid then (s.setTable (s.table.kill ⟨k, h⟩)).returns p 0
    else s.setPc p (.killScan pid (k + 1))
  else s.returns p (-1)

/-- The next step of a running process; `none` while it waits for `wait_lock`, or is outside of the
functions. -/
def next? (s : System) (p : Slot) (ok : Bool) : Option System :=
  match s.pc p with
  | .forkScan k => some (s.forkScan p k ok)
  | .forkParent np pid =>
      if s.waitLock = none then
        some ((s.setTable { s.table with parent := Function.update s.table.parent np (some p) }).setPc p
          (.forkReady np pid))
      else none
  | .forkReady np pid => some ((s.setTable (s.table.setState np .runnable)).returns p pid)
  | .exitLock status =>
      if s.waitLock = none then some { s.setPc p (.exitReparent status 0) with waitLock := some p } else none
  | .exitReparent status k => some (s.exitReparent p status k)
  | .exitWakeInit status k j =>
      some (s.wakeRound p (some (.proc initproc)) j (.exitWakeInit status k (j + 1)) (.exitReparent status (k + 1)))
  | .exitWakeParent status j =>
      some (s.wakeRound p ((s.table.parent p).map .proc) j (.exitWakeParent status (j + 1)) (.exitFinal status))
  | .exitFinal status => some (s.exitFinal p status)
  | .waitLock addr =>
      if s.waitLock = none then some { s.setPc p (.waitScan addr 0 false) with waitLock := some p } else none
  | .waitScan addr k havekids => some (s.waitScan p addr k havekids ok)
  | .waitTest addr =>
      if s.table.killed p then some { s.returns p (-1) with waitLock := none } else some (s.setPc p (.waitDoze addr))
  | .waitDoze addr => some (s.doze p addr)
  | .killScan pid k => some (s.killScan p pid k)
  | .user | .resting | .dead | .waitAsleep _ => none

/-- A system call begins. `init` may not exit. -/
def enter (s : System) (p : Slot) : Call → System
  | .fork => s.setPc p (.forkScan 0)
  | .exit status => if p = initproc then { s with panic := true } else s.setPc p (.exitLock status)
  | .wait addr => s.setPc p (.waitLock addr)
  | .kill pid => s.setPc p (.killScan pid 0)

/-- The scheduler switches to a process; one that was in `sleep` clears its channel. -/
def resume (s : System) (p : Slot) : System :=
  let woken : Table := { s.table.setState p .running with chan := Function.update s.table.chan p none }
  match s.pc p with
  | .resting => (s.setTable woken).setPc p .user
  | .waitAsleep addr => (s.setTable woken).setPc p (.waitLock addr)
  | _ => s.setTable (s.table.setState p .running)

/-- One step of the kernel. A process gives up the processor only while it holds no lock. -/
def step? (s : System) (act : Act) : Option System :=
  if s.panic then none
  else match act with
  | .run p => if s.table.state p = .runnable then some (s.resume p) else none
  | .yield p =>
      if s.table.state p = .running ∧ s.waitLock ≠ some p then some (s.setTable (s.table.setState p .runnable))
      else none
  | .sleep p addr =>
      if s.table.state p = .running ∧ s.pc p = .user then
        some ((s.setTable { s.table.setState p .sleeping with
          chan := Function.update s.table.chan p (some (.other addr)) }).setPc p .resting)
      else none
  | .rouse p =>
      if s.table.state p = .sleeping ∧ s.pc p = .resting then some (s.setTable (s.table.setState p .runnable))
      else none
  | .setkilled p =>
      if s.table.state p = .running ∧ s.pc p = .user then
        some (s.setTable { s.table with killed := Function.update s.table.killed p true })
      else none
  | .call p call => if s.table.state p = .running ∧ s.pc p = .user then some (s.enter p call) else none
  | .step p ok => if s.table.state p = .running then s.next? p ok else none

/-- After `userinit`: one process, which is runnable and has no parent. -/
def boot : System where
  table :=
    { state := Function.update (fun _ => .unused) initproc .runnable
      chan := fun _ => none
      killed := fun _ => false
      xstate := fun _ => 0
      pid := Function.update (fun _ => 0) initproc 1
      parent := fun _ => none
      nextpid := 2 }
  pc _ := .user
  ret _ := 0
  copied _ := none
  waitLock := none
  exits _ := []
  reaps _ := []
  panic := false

end System

end Xv6.Proc
