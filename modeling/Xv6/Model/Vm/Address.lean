import Mathlib.Data.Nat.Notation

/-! # Addresses of a process

The constants and macros of `riscv.h`, `memlayout.h` and `param.h` for the virtual addresses of a process, and the
arithmetic of `kexec` on its stack pointer.
-/

namespace Xv6.Vm

def pgsize : ℕ := 4096

/-- One more than the largest virtual address, `1L << 38`. -/
def maxva : ℕ := 0x4000000000

def trampoline : ℕ := maxva - pgsize

def trapframe : ℕ := trampoline - pgsize

def pgroundup (sz : ℕ) : ℕ := (sz + pgsize - 1) / pgsize * pgsize

def pgrounddown (a : ℕ) : ℕ := a / pgsize * pgsize

/-- `PX(level, va)`. -/
def px (level va : ℕ) : Fin 512 := ⟨va >>> (12 + 9 * level) % 512, Nat.mod_lt _ (by decide)⟩

def maxarg : ℕ := 32
def userstack : ℕ := 1

/-- `a - b` as `uint64`. -/
def sub64 (a b : ℕ) : ℕ := (a + UInt64.size - b) % UInt64.size

/-- Makes room for `len` bytes on the stack, aligned. -/
def push (sp len : ℕ) : ℕ := sub64 sp len - sub64 sp len % 16

end Xv6.Vm
