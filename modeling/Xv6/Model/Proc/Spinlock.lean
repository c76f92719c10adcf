import Mathlib.Data.Int.Notation
import Mathlib.Logic.Function.Basic

/-! # Spinlocks and interrupts

`spinlock.c` and the two sides of `swtch` in `proc.c`, on any number of CPUs, locks and kernel threads. A call runs on
one CPU, whose `struct cpu` no other CPU writes; a thread gives its CPU back inside `sched` and goes on where a
scheduler resumes it. `acquire` returns in the step in which it finds the lock free. The state of a process is not part
of this.
-/

namespace Xv6.Spinlock

/-- The part of `struct cpu` that counts, with the interrupt bit of the hart. -/
structure Cpu where
  noff : ℤ
  intena : Bool
  sie : Bool
deriving DecidableEq, Repr

/-- How a call does not return: `acquire` spins, or there is a panic. -/
inductive Stop where
  | spins
  | acquire
  | release
  | popOffInterruptible
  | popOff
  | schedLock
  | schedLocks
  | schedInterruptible
deriving DecidableEq, Repr

/-- `push_off`. -/
def pushOff (k : Cpu) : Cpu := ⟨k.noff + 1, if k.noff = 0 then k.sie else k.intena, false⟩

/-- `pop_off`. -/
def popOff (k : Cpu) : Except Stop Cpu :=
  if k.sie then throw .popOffInterruptible
  else if k.noff < 1 then throw .popOff
  else
    let k := { k with noff := k.noff - 1 }
    return if k.noff = 0 ∧ k.intena then { k with sie := true } else k

/-- `struct spinlock`. -/
structure Lock (C : Type) where
  locked : Bool
  cpu : Option C

structure State (C L P : Type) where
  cpu : C → Cpu
  lock : L → Lock C
  /-- `c->proc`; the scheduler runs where there is none. -/
  proc : C → Option P
  /-- The variable `intena` of a thread inside `sched`, once it has been there. -/
  saved : P → Option Bool

variable {C L P : Type} [DecidableEq C] [DecidableEq L] [DecidableEq P]

def holding (s : State C L P) (c : C) (lk : L) : Bool := (s.lock lk).locked && (s.lock lk).cpu == some c

def acquire (c : C) (lk : L) (s : State C L P) : Except Stop (State C L P) :=
  let s := { s with cpu := Function.update s.cpu c (pushOff (s.cpu c)) }
  if holding s c lk then throw .acquire
  else if (s.lock lk).locked then throw .spins
  else return { s with lock := Function.update s.lock lk ⟨true, some c⟩ }

def release (c : C) (lk : L) (s : State C L P) : Except Stop (State C L P) :=
  if !holding s c lk then throw .release
  else do
    let k ← popOff (s.cpu c)
    return { s with lock := Function.update s.lock lk ⟨false, none⟩, cpu := Function.update s.cpu c k }

/-- `sched` of a thread up to its `swtch`. -/
def sched (plock : P → L) (c : C) (p : P) (s : State C L P) : Except Stop (State C L P) :=
  if !holding s c (plock p) then throw .schedLock
  else if (s.cpu c).noff ≠ 1 then throw .schedLocks
  else if (s.cpu c).sie then throw .schedInterruptible
  else return { s with
    saved := Function.update s.saved p (some (s.cpu c).intena)
    proc := Function.update s.proc c none }

/-- The `swtch` of the scheduler: the thread goes on behind its own, a new one in `forkret`. -/
def resume (c : C) (p : P) (s : State C L P) : State C L P :=
  { s with
    proc := Function.update s.proc c (some p)
    cpu := Function.update s.cpu c { s.cpu c with intena := (s.saved p).getD (s.cpu c).intena } }

inductive Event (L P : Type) where
  | acquire (lk : L)
  | release (lk : L)
  | sched (p : P)
  | resume (p : P)
  /-- `intr_on`, `intr_off`, a trap or the return from one. -/
  | interrupts (on : Bool)

def step (plock : P → L) (c : C) : Event L P → State C L P → Except Stop (State C L P)
  | .acquire lk, s => acquire c lk s
  | .release lk, s => release c lk s
  | .sched p, s => sched plock c p s
  | .resume p, s => return resume c p s
  | .interrupts on, s => return { s with cpu := Function.update s.cpu c { s.cpu c with sie := on } }

end Xv6.Spinlock
