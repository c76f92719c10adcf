import Mathlib.Data.List.Find

/-! # A search row by row -/

namespace List

theorem range_mul (m n : ℕ) : range (m * n) = (range m).flatMap fun k => (range n).map (k * n + ·) := by
  induction m with
  | zero => simp
  | succ m ih => rw [Nat.succ_mul, range_add, ih, range_succ, flatMap_append, flatMap_singleton]

/-- A search through rows of `n` numbers that wants none beyond the size finds the first one below it. -/
theorem find?_rows {size m n : ℕ} (enough : size ≤ m * n) (p : ℕ → ℕ → Bool) :
    (range m).findSome? (fun k => ((range n).find? fun i => decide (k * n + i < size) && p k i).map (k * n + ·)) =
    (range size).find? fun b => p (b / n) (b % n) := by
  have row (k : ℕ) : (range n).find? (fun i => decide (k * n + i < size) && p k i) =
      (range n).find? ((fun b => decide (b < size) && p (b / n) (b % n)) ∘ (k * n + ·)) := by
    refine find?_congr fun i mem => ?_
    have small := mem_range.mp mem
    have quotient : (k * n + i) / n = k := by
      rw [Nat.mul_comm, Nat.mul_add_div (by omega), Nat.div_eq_of_lt small, Nat.add_zero]
    simp [quotient, Nat.mod_eq_of_lt small]
  obtain ⟨rest, more⟩ := Nat.exists_eq_add_of_le enough
  simp only [row, ← find?_map, ← find?_flatMap, ← range_mul]
  rw [more, range_add, find?_append, find?_eq_none (l := map _ _) |>.mpr (by simp), Option.or_none]
  exact find?_congr fun b mem => by simp [mem_range.mp mem]

end List
