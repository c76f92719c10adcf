import Xv6.Proofs.User.Ulib

/-! # Overlapping moves

The library goes down whenever the target does not lie below the source, the kernel only where going up would overwrite
bytes that it has still to read.
-/

namespace Xv6.Ulib

/-- Both functions leave the bytes that the source had in the target, however the two overlap, and every other byte as
it was. -/
theorem memmove_simultaneous (mem : Memory) (dst src n a : ℕ) :
    Kernel.memmove mem dst src n a = (if dst ≤ a ∧ a < dst + n then mem (src + (a - dst)) else mem a) ∧
    memmove mem dst src n a = if dst ≤ a ∧ a < dst + n then mem (src + (a - dst)) else mem a := by
  rw [Kernel.memmove_eq, memmove_eq]
  exact ⟨rfl, rfl⟩

/-- Three bytes are moved by one over themselves, in either direction. -/
example : let mem : Memory := fun a => UInt8.ofNat a
    [Kernel.memmove mem 5 4 3 7, memmove mem 5 4 3 7, Kernel.memmove mem 4 5 3 6, memmove mem 4 5 3 6] =
      [6, 6, 7, 7] := by decide

end Xv6.Ulib
