import Mathlib.Data.Int.Notation
import Mathlib.Data.Nat.Notation
import Mathlib.Logic.Function.Basic

/-! # Pipes

`pipewrite`, `piperead`, `pipeclose` and `kkill`, run by any number of processes on one pipe. A process that
holds `pi->lock` goes through its loop byte by byte, and `kkill` may strike between any two steps. Whether
`copyin` or `copyout` succeeds is an input of the step. `sleep` releases `pi->lock` while it holds `p->lock`,
which `wakeup` and `kkill` need, so it is one step; nobody can go to sleep on a pipe while `wakeup` goes
through the process table with `pi->lock` held, so that is one step too. Any process may close an end of
the pipe at any time, while the kernel only does so when no descriptor is left for that end.
-/

namespace Xv6.Ipc

def pipesize : ℕ := 512

structure Pipe where
  data : Vector UInt8 pipesize
  nread : UInt32
  nwrite : UInt32
  readopen : Bool
  writeopen : Bool

namespace Pipe

/-- `data[k % PIPESIZE]`. -/
def byte (pi : Pipe) (k : ℕ) : UInt8 := getElem pi.data (k % pipesize) (Nat.mod_lt _ (by decide))

def Empty (pi : Pipe) : Prop := pi.nread = pi.nwrite

def Full (pi : Pipe) : Prop := pi.nwrite = pi.nread + UInt32.ofNat pipesize

instance (pi : Pipe) : Decidable pi.Empty := inferInstanceAs (Decidable (_ = _))

instance (pi : Pipe) : Decidable pi.Full := inferInstanceAs (Decidable (_ = _))

/-- `data[nwrite++ % PIPESIZE] = ch`. -/
def store (pi : Pipe) (ch : UInt8) : Pipe :=
  { pi with
    data := pi.data.set (pi.nwrite.toNat % pipesize) ch (Nat.mod_lt _ (by decide))
    nwrite := pi.nwrite + 1 }

/-- The bytes between `nread` and `nwrite`. -/
def contents (pi : Pipe) : List UInt8 :=
  (List.range (pi.nwrite - pi.nread).toNat).map fun k => pi.byte (pi.nread.toNat + k)

def close (pi : Pipe) (writable : Bool) : Pipe :=
  if writable then { pi with writeopen := false } else { pi with readopen := false }

end Pipe

/-- The addresses that processes sleep on. -/
inductive Chan where
  | nread
  | nwrite
deriving DecidableEq, Repr

/-- Where a process is. -/
inductive Pc where
  /-- outside of the functions below -/
  | idle
  /-- about to acquire `pi->lock` in `pipewrite`, or in the `sleep` that it called -/
  | writeLock (addr : UInt64) (n : Int32) (i : ℕ)
  /-- at the head of the loop -/
  | writeTest (addr : UInt64) (n : Int32) (i : ℕ)
  /-- past the test for a closed end and `killed` -/
  | writeBody (addr : UInt64) (n : Int32) (i : ℕ)
  | writeAsleep (addr : UInt64) (n : Int32) (i : ℕ)
  /-- after the loop -/
  | writeEnd (i : ℕ)
  /-- about to acquire `pi->lock` in `piperead`, or in the `sleep` that it called -/
  | readLock (addr : UInt64) (n : Int32)
  /-- at the head of the `while` loop -/
  | readTest (addr : UInt64) (n : Int32)
  /-- past the call of `killed` -/
  | readDoze (addr : UInt64) (n : Int32)
  | readAsleep (addr : UInt64) (n : Int32)
  /-- at the head of the `for` loop -/
  | readCopy (addr : UInt64) (n : Int32) (i : ℕ)
  /-- after the loop, with the value to return -/
  | readEnd (n : Int32) (i : ℤ)
  | closeLock (writable : Bool)
deriving DecidableEq, Repr

/-- The channel a process sleeps on. -/
def Pc.chan? : Pc → Option Chan
  | .writeAsleep _ _ _ => some .nwrite
  | .readAsleep _ _ => some .nread
  | _ => none

/-- A process that was sleeping has to acquire the lock again. -/
def Pc.awake : Pc → Pc
  | .writeAsleep addr n i => .writeLock addr n i
  | .readAsleep addr n => .readLock addr n
  | pc => pc

/-- The pipe, the owner of its lock, what each process is doing, its memory and the value its last call
returned. The record has the bytes that were accepted from the writers and those delivered to the readers,
in the order of `pi->lock`. -/
structure System (P : Type*) where
  pipe : Pipe
  lock : Option P
  pc : P → Pc
  killed : P → Bool
  memory : P → UInt64 → UInt8
  ret : P → ℤ
  accepted : List UInt8
  delivered : List UInt8

inductive Act (P : Type*) where
  /-- the process runs its own code, which leaves this memory -/
  | compute (p : P) (memory : UInt64 → UInt8)
  | write (p : P) (addr : UInt64) (n : Int32)
  | read (p : P) (addr : UInt64) (n : Int32)
  | close (p : P) (writable : Bool)
  | kill (p : P)
  /-- the process goes on; `ok` tells whether a byte can be copied from or to its memory -/
  | step (p : P) (ok : Bool)

namespace System

variable {P : Type*} [DecidableEq P]

def setPc (s : System P) (p : P) (pc : Pc) : System P := { s with pc := Function.update s.pc p pc }

def acquire (s : System P) (p : P) (pc : Pc) : System P := { s.setPc p pc with lock := some p }

/-- The process releases `pi->lock` and returns. -/
def leave (s : System P) (p : P) (value : ℤ) : System P :=
  { s.setPc p .idle with lock := none, ret := Function.update s.ret p value }

def sleep (s : System P) (p : P) (pc : Pc) : System P := { s.setPc p pc with lock := none }

def wakeup (s : System P) (chan : Chan) : System P :=
  { s with pc := fun q => if (s.pc q).chan? = some chan then (s.pc q).awake else s.pc q }

/-- `kkill` finds its process. -/
def kkill (s : System P) (p : P) : System P :=
  { s.setPc p (s.pc p).awake with killed := Function.update s.killed p true }

/-- The rest of a round of `pipewrite` after the tests. -/
def writeBody (s : System P) (p : P) (addr : UInt64) (n : Int32) (i : ℕ) (ok : Bool) : System P :=
  if s.pipe.Full then (s.wakeup .nread).sleep p (.writeAsleep addr n i)
  else if ok then
    let ch := s.memory p (addr + UInt64.ofNat i)
    { s.setPc p (.writeTest addr n (i + 1)) with pipe := s.pipe.store ch, accepted := s.accepted ++ [ch] }
  else s.setPc p (.writeEnd i)

/-- One round of the `for` loop of `piperead`. -/
def readCopy (s : System P) (p : P) (addr : UInt64) (n : Int32) (i : ℕ) (ok : Bool) : System P :=
  if i < n.toInt then
    if s.pipe.Empty then s.setPc p (.readEnd n i)
    else if ok then
      let ch := s.pipe.byte s.pipe.nread.toNat
      { s.setPc p (.readCopy addr n (i + 1)) with
        pipe := { s.pipe with nread := s.pipe.nread + 1 }
        memory := Function.update s.memory p (Function.update (s.memory p) (addr + UInt64.ofNat i) ch)
        delivered := s.delivered ++ [ch] }
    else s.setPc p (.readEnd n (if i = 0 then -1 else i))
  else s.setPc p (.readEnd n i)

/-- `pipeclose`, once it has the lock. -/
def pipeclose (s : System P) (p : P) (writable : Bool) : System P :=
  { (s.wakeup (if writable then .nread else .nwrite)).setPc p .idle with pipe := s.pipe.close writable }

/-- The next step of a process; `none` while it waits for `pi->lock`, sleeps or is outside of the functions. -/
def next? (s : System P) (p : P) (ok : Bool) : Option (System P) :=
  match s.pc p with
  | .idle | .writeAsleep _ _ _ | .readAsleep _ _ => none
  | .writeLock addr n i => if s.lock = none then some (s.acquire p (.writeTest addr n i)) else none
  | .writeTest addr n i =>
      if i < n.toInt then
        if s.pipe.readopen = false ∨ s.killed p = true then some (s.leave p (-1))
        else some (s.setPc p (.writeBody addr n i))
      else some (s.setPc p (.writeEnd i))
  | .writeBody addr n i => some (s.writeBody p addr n i ok)
  | .writeEnd i => some ((s.wakeup .nread).leave p i)
  | .readLock addr n => if s.lock = none then some (s.acquire p (.readTest addr n)) else none
  | .readTest addr n =>
      if s.pipe.Empty ∧ s.pipe.writeopen = true then
        if s.killed p then some (s.leave p (-1)) else some (s.setPc p (.readDoze addr n))
      else some (s.setPc p (.readCopy addr n 0))
  | .readDoze addr n => some (s.sleep p (.readAsleep addr n))
  | .readCopy addr n i => some (s.readCopy p addr n i ok)
  | .readEnd _ i => some ((s.wakeup .nwrite).leave p i)
  | .closeLock writable => if s.lock = none then some (s.pipeclose p writable) else none

def step? (s : System P) : Act P → Option (System P)
  | .compute p memory =>
      if s.pc p = .idle then some { s with memory := Function.update s.memory p memory } else none
  | .write p addr n => if s.pc p = .idle then some (s.setPc p (.writeLock addr n 0)) else none
  | .read p addr n => if s.pc p = .idle then some (s.setPc p (.readLock addr n)) else none
  | .close p writable => if s.pc p = .idle then some (s.setPc p (.closeLock writable)) else none
  | .kill p => some (s.kkill p)
  | .step p ok => s.next? p ok

/-- After `pipealloc`: both ends are open, and the page holds whatever it held before. -/
def pipealloc (data : Vector UInt8 pipesize) (memory : P → UInt64 → UInt8) : System P where
  pipe := { data, nread := 0, nwrite := 0, readopen := true, writeopen := true }
  lock := none
  pc _ := .idle
  killed _ := false
  memory
  ret _ := 0
  accepted := []
  delivered := []

end System

end Xv6.Ipc
