import Mathlib.Algebra.Group.Nat.Defs
import Mathlib.Data.Fintype.Basic
import Mathlib.Data.Finset.Card

/-! # Index loops over a fixed array

A counted loop visits every cell of an array once, rewriting the visited cell and threading an
accumulator. When the rewritten cell does not depend on the accumulator, the loop is a pointwise
map beside a left fold over the original cells: earlier iterations cannot be observed by later
ones except through the accumulator. Counting folds reduce further to `List.countP`.
-/

namespace Vector

variable {α β : Type*} {n : ℕ}

@[simp] theorem get_eq_getElem_val (cells : Vector α n) (i : Fin n) : cells.get i = cells[i.val] := rfl

theorem toList_eq_map_finRange (cells : Vector α n) : cells.toList = (List.finRange n).map cells.get := by
  apply List.ext_getElem
  · simp
  · intro j left right
    simp

theorem countP_toList_eq_card (cells : Vector α n) (keep : α → Prop) [DecidablePred keep] :
    cells.toList.countP (fun cell => decide (keep cell)) =
    (Finset.univ.filter fun i : Fin n => keep (cells.get i)).card := by
  rw [toList_eq_map_finRange, List.countP_map, List.countP_eq_length_filter]
  rfl

/-- One iteration: rewrite cell `i` and update the accumulator from the cell's old value. -/
def sweepCell (body : β → α → α × β) (state : Vector α n × β) (i : Fin n) : Vector α n × β :=
  let out := body state.2 state.1[i]
  (state.1.set i out.1, out.2)

/-- The counted loop `for (i = 0; i < n; i++)` over the cells of an array. -/
def sweep (body : β → α → α × β) (cells : Vector α n) (acc : β) : Vector α n × β :=
  (List.finRange n).foldl (sweepCell body) (cells, acc)

section

variable (body : β → α → α × β) (rewrite : α → α) (uniform : ∀ acc cell, (body acc cell).1 = rewrite cell)
include body rewrite uniform

private theorem foldl_sweepCell (visited : List (Fin n))
    (unique : visited.Nodup) (cells : Vector α n) (acc : β) :
    (∀ j : Fin n, (visited.foldl (sweepCell body) (cells, acc)).1[j] =
      if j ∈ visited then rewrite cells[j] else cells[j]) ∧
    (visited.foldl (sweepCell body) (cells, acc)).2 =
      (visited.map fun j => cells[j]).foldl (fun acc cell => (body acc cell).2) acc := by
  induction visited generalizing cells acc with
  | nil => simp
  | cons i rest ih =>
    obtain ⟨fresh, restUnique⟩ := List.nodup_cons.mp unique
    obtain ⟨cellsAfter, accAfter⟩ :=
      ih restUnique (cells.set i (rewrite cells[i])) (body acc cells[i]).2
    have first : sweepCell body (cells, acc) i =
        (cells.set i (rewrite cells[i]), (body acc cells[i]).2) := by
      simp only [sweepCell, uniform]
    have untouched : ∀ j ∈ rest, (cells.set i (rewrite cells[i]))[j] = cells[j] := by
      intro j member
      have distinct : i.val ≠ j.val := fun same => fresh (Fin.ext same ▸ member)
      exact Vector.getElem_set_ne _ _ distinct
    refine ⟨fun j => ?_, ?_⟩
    · rw [List.foldl_cons, first, cellsAfter j]
      by_cases same : j = i
      · subst same
        simp [fresh]
      · have distinct : i.val ≠ j.val := fun equal => same (Fin.ext equal).symm
        have kept : (cells.set i (rewrite cells[i]))[j] = cells[j] :=
          Vector.getElem_set_ne _ _ distinct
        simp only [List.mem_cons, same, false_or, kept]
    · rw [List.foldl_cons, first, accAfter, List.map_cons, List.foldl_cons]
      exact congrArg (List.foldl _ _) (List.map_congr_left untouched)

/-- A loop whose cell rewrites ignore the accumulator is a map beside a fold. -/
theorem sweep_eq (cells : Vector α n) (acc : β) :
    cells.sweep body acc =
      (cells.map rewrite, cells.toList.foldl (fun acc cell => (body acc cell).2) acc) := by
  obtain ⟨cellsAfter, accAfter⟩ :=
    foldl_sweepCell body rewrite uniform (List.finRange n) (List.nodup_finRange n) cells acc
  refine Prod.ext ?_ ?_
  · apply Vector.ext
    intro j bound
    simpa [sweep] using cellsAfter ⟨j, bound⟩
  · have listed : (List.finRange n).map (fun j => cells[j]) = cells.toList := cells.toList_eq_map_finRange.symm
    simpa only [sweep, listed] using accAfter

end

end Vector

namespace List

variable {α : Type*}

/-- A fold that adds one at each selected item counts the selected items. -/
theorem foldl_ite_succ (keep : α → Prop) [DecidablePred keep] (items : List α) (start : ℕ) :
    items.foldl (fun count item => if keep item then count + 1 else count) start =
      start + items.countP (fun item => decide (keep item)) := by
  induction items generalizing start with
  | nil => rfl
  | cons item rest ih =>
    rw [List.foldl_cons, ih, List.countP_cons]
    by_cases selected : keep item <;> simp [selected]
    omega

end List
