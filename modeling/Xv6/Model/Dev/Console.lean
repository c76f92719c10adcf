import Mathlib.Data.Int.Notation
import Mathlib.Data.Nat.Notation
import Mathlib.Logic.Function.Basic

/-! # Console input

`consoleintr` and `consoleread`, run by the interrupt handler and any number of processes. `cons.lock` is held
throughout the handler, and by a reader until it sleeps or returns; what is done under the lock is one step. A
reader that sleeps may be resumed at any time, which includes the times when `wakeup` or `kkill` makes it
runnable. Whether each byte of the destination can be written, and whether the process is killed when it
finds no input, are inputs of the steps. The echo is left out.
-/

namespace Xv6.Console

def inputBufSize : ℕ := 128

/-- `C(x)`. -/
def ctrl (x : Char) : UInt8 := UInt8.ofNat (x.toNat - '@'.toNat)

def newline : UInt8 := 10
def carriageReturn : UInt8 := 13
def delete : UInt8 := 0x7f

/-- The input buffer with its read, write and edit indices. -/
structure Cons where
  buf : Vector UInt8 inputBufSize
  r : UInt32
  w : UInt32
  e : UInt32

namespace Cons

/-- `cons.buf[k % INPUT_BUF_SIZE]`. -/
def byte (c : Cons) (k : ℕ) : UInt8 := getElem c.buf (k % inputBufSize) (Nat.mod_lt _ (by decide))

/-- The loop of kill-line; it ends at the latest when `e` reaches `w`. -/
def killLine : ℕ → Cons → Cons
  | 0, c => c
  | rounds + 1, c =>
      if c.e ≠ c.w ∧ c.byte (c.e - 1).toNat ≠ newline then killLine rounds { c with e := c.e - 1 } else c

/-- `cons.buf[cons.e++ % INPUT_BUF_SIZE] = ch`. -/
def store (c : Cons) (ch : UInt8) : Cons :=
  { c with buf := c.buf.set (c.e.toNat % inputBufSize) ch (Nat.mod_lt _ (by decide)), e := c.e + 1 }

def consoleintr (c : Cons) (ch : UInt8) : Cons :=
  if ch = ctrl 'P' then c
  else if ch = ctrl 'U' then killLine (c.e - c.w).toNat c
  else if ch = ctrl 'H' ∨ ch = delete then
    if c.e ≠ c.w then { c with e := c.e - 1 } else c
  else if ch ≠ 0 ∧ c.e - c.r < UInt32.ofNat inputBufSize then
    let ch := if ch = carriageReturn then newline else ch
    let c := c.store ch
    if ch = newline ∨ ch = ctrl 'D' ∨ c.e - c.r = UInt32.ofNat inputBufSize then { c with w := c.e } else c
  else c

end Cons

/-- Where the loop of `consoleread` releases the lock, and the value of `n` there. -/
inductive Stop where
  | asleep (n : ℕ)
  | done (n : ℕ)
deriving DecidableEq, Repr

/-- What `consoleread` has done when it releases the lock: the bytes it has stored in all, and the characters that
`r` went past since it took the lock. -/
structure Leg where
  cons : Cons
  bytes : List UInt8
  taken : List UInt8
  stop : Stop

/-- The loop of `consoleread`, with `n` bytes to go. -/
def readLoop (target : ℕ) (writable : ℕ → Bool) : (n : ℕ) → Cons → (bytes : List UInt8) → Leg
  | 0, c, bytes => ⟨c, bytes, [], .done 0⟩
  | n + 1, c, bytes =>
      if c.r = c.w then ⟨c, bytes, [], .asleep (n + 1)⟩
      else
        let ch := c.byte c.r.toNat
        let c := { c with r := c.r + 1 }
        if ch = ctrl 'D' then
          if n + 1 < target then ⟨{ c with r := c.r - 1 }, bytes, [], .done (n + 1)⟩
          else ⟨c, bytes, [ch], .done (n + 1)⟩
        else if writable bytes.length then
          if ch = newline then ⟨c, bytes ++ [ch], [ch], .done n⟩
          else
            let leg := readLoop target writable n c (bytes ++ [ch])
            { leg with taken := ch :: leg.taken }
        else ⟨c, bytes, [ch], .done (n + 1)⟩

/-- A call of `consoleread` that is under way. -/
structure Reader where
  target : ℕ
  n : ℕ
  bytes : List UInt8
  writable : ℕ → Bool

inductive Event (P : Type*) where
  | typed (ch : UInt8)
  /-- a reader takes a character out of the buffer -/
  | took (p : P) (ch : UInt8)
  /-- a call with size `target` returns `value`, having stored `bytes` -/
  | returned (p : P) (target : ℕ) (value : ℤ) (bytes : List UInt8)

structure System (P : Type*) where
  cons : Cons
  reader : P → Option Reader
  trace : List (Event P)

inductive Act (P : Type*) where
  | intr (ch : UInt8)
  | read (p : P) (n : ℕ) (writable : ℕ → Bool) (killed : Bool)
  | resume (p : P) (killed : Bool)

namespace System

variable {P : Type*} [DecidableEq P]

def boot (buf : Vector UInt8 inputBufSize) : System P := ⟨⟨buf, 0, 0, 0⟩, fun _ => none, []⟩

def setReader (s : System P) (p : P) (rd : Option Reader) : System P :=
  { s with reader := Function.update s.reader p rd }

/-- The process has the lock, and goes on until it releases it. -/
def consoleread (s : System P) (p : P) (rd : Reader) (killed : Bool) : System P :=
  let leg := readLoop rd.target rd.writable rd.n s.cons rd.bytes
  let s := { s with cons := leg.cons, trace := s.trace ++ leg.taken.map (Event.took p) }
  match leg.stop with
  | .asleep n =>
      if killed then { s.setReader p none with trace := s.trace ++ [Event.returned p rd.target (-1) leg.bytes] }
      else s.setReader p (some { rd with n, bytes := leg.bytes })
  | .done n =>
    { s.setReader p none with trace := s.trace ++ [Event.returned p rd.target (rd.target - n : ℤ) leg.bytes] }

def step? (s : System P) : Act P → Option (System P)
  | .intr ch => some { s with cons := s.cons.consoleintr ch, trace := s.trace ++ [.typed ch] }
  | .read p n writable killed =>
      if s.reader p = none then some (s.consoleread p ⟨n, n, [], writable⟩ killed) else none
  | .resume p killed => (s.reader p).map fun rd => s.consoleread p rd killed

end System

/-! ## The line discipline -/

/-- A terminal line: what was committed to the readers, the line that is being edited, and how many of the committed
characters have been taken. -/
structure Editor where
  committed : List UInt8
  line : List UInt8
  taken : ℕ

namespace Editor

/-- The number of characters that have not been taken. -/
def unread (ed : Editor) : ℕ := ed.committed.length + ed.line.length - ed.taken

def commit (ed : Editor) : Editor := { ed with committed := ed.committed ++ ed.line, line := [] }

def type (ed : Editor) (ch : UInt8) : Editor :=
  if ch = ctrl 'P' ∨ ch = 0 then ed
  else if ch = ctrl 'U' then { ed with line := [] }
  else if ch = ctrl 'H' ∨ ch = delete then { ed with line := ed.line.dropLast }
  else if ed.unread < inputBufSize then
    let ch := if ch = carriageReturn then newline else ch
    let ed := { ed with line := ed.line ++ [ch] }
    if ch = newline ∨ ch = ctrl 'D' ∨ ed.unread = inputBufSize then ed.commit else ed
  else ed

variable {P : Type*}

def step (ed : Editor) : Event P → Editor
  | .typed ch => ed.type ch
  | .took _ _ => { ed with taken := ed.taken + 1 }
  | .returned _ _ _ _ => ed

/-- The line discipline applied to what happened. -/
def run (trace : List (Event P)) : Editor := trace.foldl step ⟨[], [], 0⟩

end Editor

section Record

variable {P : Type*} [DecidableEq P]

def Event.took? : Event P → Option UInt8
  | .took _ ch => some ch
  | _ => none

/-- The characters that readers have taken, in order. -/
def taken (trace : List (Event P)) : List UInt8 := trace.filterMap Event.took?

def Event.tookBy? (p : P) : Event P → Option UInt8
  | .took q ch => if q = p ∧ ch ≠ ctrl 'D' then some ch else none
  | _ => none

/-- Those that one process has taken, other than ^D. -/
def takenBy (p : P) (trace : List (Event P)) : List UInt8 := trace.filterMap (Event.tookBy? p)

def Event.bytesTo (p : P) : Event P → List UInt8
  | .returned q _ _ bytes => if q = p then bytes else []
  | _ => []

/-- What the calls of a process that have returned gave it. -/
def returnedTo (p : P) (trace : List (Event P)) : List UInt8 := trace.flatMap (Event.bytesTo p)

end Record

end Xv6.Console
