import Mathlib.Data.Nat.Notation
import Mathlib.Logic.Function.Basic

/-! # Console output

`uartwrite` by any number of processes, `uartputc_sync` on every processor and `uartintr`, with the 16550: its transmit
FIFO, and the interrupt that it raises when the FIFO has run empty. A section under `tx_lock` is one step;
`uartputc_sync`, which takes no lock, is two. The handler may also run for an input. `panicking` and `panicked` stay 0.
-/

namespace Xv6.Uart

def ncpu : ℕ := 8

/-- What is written to a full FIFO is lost. -/
def fifoSize : ℕ := 16

/-- Where a process is in `uartwrite`, with the bytes from `buf[i]` on. -/
inductive Writer where
  | idle
  | ready (rest : List UInt8)
  | asleep (rest : List UInt8)
deriving DecidableEq, Repr

def Writer.wakeup : Writer → Writer
  | asleep rest => ready rest
  | w => w

structure System (P : Type) where
  txBusy : Bool
  writer : P → Writer
  /-- What `uartputc_sync` on a processor writes next, where it has seen `LSR_TX_IDLE`. -/
  sync : Fin ncpu → Option UInt8
  /-- `uartintr` has read `ISR` and not yet taken the lock. -/
  handling : Bool
  pending : Bool
  fifo : List UInt8
  line : List UInt8
  /-- The bytes written to `THR`. -/
  written : List UInt8

inductive Act (P : Type) where
  | uartwrite (p : P) (buf : List UInt8)
  | resume (p : P)
  | kkill (p : P)
  | putcSync (cpu : Fin ncpu) (c : UInt8)
  | store (cpu : Fin ncpu)
  | send
  | interrupt
  | uartintr

namespace System

variable {P : Type} [DecidableEq P]

def boot : System P := ⟨false, fun _ => .idle, fun _ => none, false, false, [], [], []⟩

def goto (s : System P) (p : P) (w : Writer) : System P := { s with writer := Function.update s.writer p w }

/-- `WriteReg(THR, c)`, which takes an interrupt for an empty FIFO back. -/
def writeThr (s : System P) (c : UInt8) : System P :=
  { s with
    fifo := if s.fifo.length < fifoSize then s.fifo ++ [c] else s.fifo
    pending := false
    written := s.written ++ [c] }

/-- The loop of `uartwrite`, until the lock is free. -/
def uartwrite (p : P) : List UInt8 → System P → System P
  | [], s => s.goto p .idle
  | c :: rest, s =>
    if s.txBusy then s.goto p (.asleep (c :: rest)) else uartwrite p rest { s.writeThr c with txBusy := true }

/-- `uartintr` under the lock. -/
def uartintr (s : System P) : System P :=
  if s.fifo = [] then { s with txBusy := false, writer := Writer.wakeup ∘ s.writer } else s

/-- A step that is not enabled does nothing. -/
def step (s : System P) : Act P → System P
  | .uartwrite p buf => if s.writer p = .idle then s.goto p (.ready buf) else s
  | .resume p =>
    match s.writer p with
    | .ready rest => s.uartwrite p rest
    | _ => s
  | .kkill p => s.goto p (s.writer p).wakeup
  | .putcSync cpu c =>
    if s.sync cpu = none ∧ s.fifo = [] then { s with sync := Function.update s.sync cpu (some c) } else s
  | .store cpu =>
    match s.sync cpu with
    | some c => { s.writeThr c with sync := Function.update s.sync cpu none }
    | none => s
  | .send =>
    match s.fifo with
    | c :: rest => { s with fifo := rest, line := s.line ++ [c], pending := s.pending || rest.isEmpty }
    | [] => s
  | .interrupt => if s.handling then s else { s with pending := false, handling := true }
  | .uartintr => if s.handling then { s.uartintr with handling := false } else s

end System

end Xv6.Uart
