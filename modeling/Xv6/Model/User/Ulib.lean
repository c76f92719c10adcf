import Mathlib.Data.Nat.Notation
import Mathlib.Logic.Function.Basic

/-! # Functions of the user library on memory

Some of `user/ulib.c`, and `memmove` of `kernel/string.c`, on a memory of bytes. Addresses are numbers: no range wraps
around. The length of a string is not known beforehand: a function that looks for the NUL takes a bound on how far it
looks, which its callers know.
-/

namespace Xv6.Ulib

abbrev Memory := ℕ → UInt8

/-- The bytes `[p, p + n)`. -/
def slice (mem : Memory) (p n : ℕ) : List UInt8 := (List.range n).map fun i => mem (p + i)

/-- Bytes are written to `p` and on. -/
def store (mem : Memory) (p : ℕ) (bytes : List UInt8) : Memory := fun a =>
  if p ≤ a ∧ a < p + bytes.length then bytes.getD (a - p) 0 else mem a

/-- The string at `p`. -/
def string (mem : Memory) : (bound p : ℕ) → List UInt8
  | 0, _ => []
  | bound + 1, p => if mem p ≠ 0 then mem p :: string mem bound (p + 1) else []

/-- `strchr`. -/
def strchr (mem : Memory) (c : UInt8) : (bound p : ℕ) → Option ℕ
  | 0, _ => none
  | bound + 1, p => if mem p ≠ 0 then if mem p = c then some p else strchr mem c bound (p + 1) else none

/-- The loop of `memmove` that goes up. -/
def moveUp : (n dst src : ℕ) → Memory → Memory
  | 0, _, _, mem => mem
  | n + 1, dst, src, mem => moveUp n (dst + 1) (src + 1) (Function.update mem dst (mem src))

/-- The loop of `memmove` that goes down, from behind the two ranges. -/
def moveDown : (n dst src : ℕ) → Memory → Memory
  | 0, _, _, mem => mem
  | n + 1, dst, src, mem => moveDown n dst src (Function.update mem (dst + n) (mem (src + n)))

/-- `memmove`, with `n` not negative. -/
def memmove (mem : Memory) (dst src n : ℕ) : Memory :=
  if src > dst then moveUp n dst src mem else moveDown n dst src mem

/-- The kernel's `memmove`, which goes down only if the target begins inside the source. -/
def Kernel.memmove (mem : Memory) (dst src n : ℕ) : Memory :=
  if n = 0 then mem
  else if src < dst ∧ src + n > dst then moveDown n dst src mem
  else moveUp n dst src mem

end Xv6.Ulib
