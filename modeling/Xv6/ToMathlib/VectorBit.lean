import Mathlib.Data.Nat.Bitwise
import Xv6.ToMathlib.VectorWord

/-! # Bits and ranges of byte vectors

A byte vector as a bitmap, bit `i` being bit `i % 8` of byte `i / 8`, and the overwriting of a range of
bytes. Bits beyond the vector read as clear and are not written.
-/

namespace Vector

variable {n : ℕ}

def bit (bytes : Vector UInt8 n) (i : ℕ) : Bool := (bytes.byteAt (i / 8)).testBit (i % 8)

/-- `data[i / 8] |= 1 << (i % 8)`. -/
def setBit (bytes : Vector UInt8 n) (i : ℕ) : Vector UInt8 n :=
  Vector.ofFn fun k => if k.val = i / 8 then bytes.get k ||| UInt8.ofNat (2 ^ (i % 8)) else bytes.get k

/-- `data[i / 8] &= ~(1 << (i % 8))`. -/
def clearBit (bytes : Vector UInt8 n) (i : ℕ) : Vector UInt8 n :=
  Vector.ofFn fun k => if k.val = i / 8 then bytes.get k &&& ~~~ UInt8.ofNat (2 ^ (i % 8)) else bytes.get k

/-- Overwrite `count` bytes from byte `start` on. -/
def splice (bytes : Vector UInt8 n) (start count : ℕ) (source : ℕ → UInt8) : Vector UInt8 n :=
  Vector.ofFn fun k => if start ≤ k.val ∧ k.val < start + count then source (k.val - start) else bytes.get k

theorem get_splice (bytes : Vector UInt8 n) (start count : ℕ) (source : ℕ → UInt8) (k : Fin n) :
    (bytes.splice start count source).get k =
      if start ≤ k.val ∧ k.val < start + count then source (k.val - start) else bytes.get k := by
  change (bytes.splice start count source)[k.val] = _
  rw [splice, Vector.getElem_ofFn]

theorem byteAt_ofFn (f : Fin n → UInt8) {offset : ℕ} (inside : offset < n) :
    (Vector.ofFn f).byteAt offset = (f ⟨offset, inside⟩).toNat := by
  simp [byteAt, inside]

theorem byteAt_eq_get (bytes : Vector UInt8 n) {offset : ℕ} (inside : offset < n) :
    bytes.byteAt offset = (bytes.get ⟨offset, inside⟩).toNat := by
  simp [byteAt, inside, Vector.get]

theorem byteAt_of_le (bytes : Vector UInt8 n) {offset : ℕ} (outside : n ≤ offset) : bytes.byteAt offset = 0 := by
  simp [byteAt, outside]

theorem bit_zeros (j : ℕ) : (Vector.replicate n (0 : UInt8)).bit j = false := by
  rw [bit, byteAt, Vector.getElem?_replicate]
  split <;> exact Nat.zero_testBit _

theorem testBit_mask {i k : ℕ} (small : i < 8) : (UInt8.ofNat (2 ^ i)).toNat.testBit k = decide (i = k) := by
  rw [UInt8.toNat_ofNat', Nat.mod_eq_of_lt (Nat.pow_lt_pow_right (by decide) small), Nat.testBit_two_pow]

theorem bit_setBit (bytes : Vector UInt8 n) (i j : ℕ) :
    (bytes.setBit i).bit j = if i = j ∧ i < 8 * n then true else bytes.bit j := by
  by_cases inside : j / 8 < n
  · rw [bit, setBit, byteAt_ofFn _ inside, bit, byteAt_eq_get _ inside]
    by_cases here : j / 8 = i / 8
    · have mask := testBit_mask (i := i % 8) (k := j % 8) (by omega)
      rw [if_pos here, UInt8.toNat_or, Nat.testBit_or, mask]
      by_cases same : i = j
      · subst same
        simp [show i < 8 * n by omega]
      · simp [same, show i % 8 ≠ j % 8 by omega]
    · rw [if_neg here, if_neg (by rintro ⟨rfl, -⟩; exact here rfl)]
  · rw [bit, bit, byteAt_of_le _ (by omega), byteAt_of_le _ (by omega), if_neg (by omega)]

theorem bit_clearBit (bytes : Vector UInt8 n) (i j : ℕ) :
    (bytes.clearBit i).bit j = if i = j then false else bytes.bit j := by
  by_cases inside : j / 8 < n
  · rw [bit, clearBit, byteAt_ofFn _ inside, bit, byteAt_eq_get _ inside]
    by_cases here : j / 8 = i / 8
    · have mask := testBit_mask (i := i % 8) (k := j % 8) (by omega)
      rw [if_pos here, UInt8.toNat_and, Nat.testBit_and, UInt8.toNat_not, Nat.sub_sub, Nat.add_comm 1,
        show UInt8.size = 2 ^ 8 from rfl, Nat.testBit_two_pow_sub_succ (UInt8.toNat_lt _), mask]
      by_cases same : i = j
      · subst same
        simp
      · simp [same, show i % 8 ≠ j % 8 by omega, show j % 8 < 8 by omega]
    · rw [if_neg here, if_neg (by rintro rfl; exact here rfl)]
  · rw [bit, bit, byteAt_of_le _ (by omega), byteAt_of_le _ (by omega), Nat.zero_testBit]
    simp

end Vector
