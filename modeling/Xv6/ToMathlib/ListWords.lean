import Mathlib.Data.List.Basic

/-! # Words and lines of a list

The words of a list are the pieces between separators that are not empty. A parser that drops separators, takes one word
and goes on with the rest finds them one after another. The lines of a list are the pieces that end in a separator.
-/

namespace List

variable {α : Type*} [BEq α] {sep : α} {l w : List α}

/-- The nonempty pieces between separators. -/
def words (sep : α) (l : List α) : List (List α) := (l.splitOn sep).filter fun w => !w.isEmpty

@[simp] theorem words_nil : words sep [] = [] := rfl

variable [LawfulBEq α]

theorem beq_false_of_notMem (plain : sep ∉ w) : ∀ c ∈ w, (c == sep) = false := by
  intro c mem
  refine beq_false_of_ne ?_
  rintro rfl
  exact plain mem

@[simp] theorem words_sep_cons : words sep (sep :: l) = words sep l := by
  simp [words, splitOn, splitOnP_cons_eq_if_modifyHead]

theorem words_dropWhile : words sep (l.dropWhile (· == sep)) = words sep l := by
  induction l with
  | nil => rfl
  | cons c l ih =>
    by_cases here : c = sep
    · subst here
      rw [dropWhile_cons_of_pos (by simp), ih, words_sep_cons]
    · rw [dropWhile_cons_of_neg (by simpa using here)]

theorem splitOn_of_notMem (plain : sep ∉ w) : w.splitOn sep = [w] := splitOnP_eq_singleton (beq_false_of_notMem plain)

theorem words_eq_singleton (plain : sep ∉ w) (some : w ≠ []) : words sep w = [w] := by
  rw [words, splitOn_of_notMem plain]
  simp [some]

/-- The first word is what stands before a separator. -/
theorem words_append_sep (plain : sep ∉ w) (some : w ≠ []) : words sep (w ++ sep :: l) = w :: words sep l := by
  have split : (w ++ sep :: l).splitOn sep = w :: l.splitOn sep :=
    splitOnP_append_cons_of_forall_mem (beq_false_of_notMem plain) sep (beq_self_eq_true sep) l
  rw [words, words, split]
  simp [some]

omit [LawfulBEq α] [BEq α] in
/-- Lines, each with its separator. -/
def unlines (sep : α) (ls : List (List α)) : List α := ls.flatMap fun l => l ++ [sep]

omit [LawfulBEq α] [BEq α] in
theorem unlines_cons (l : List α) (ls : List (List α)) : unlines sep (l :: ls) = l ++ sep :: unlines sep ls := by
  rw [unlines, flatMap_cons, append_assoc]
  rfl

omit [LawfulBEq α] [BEq α] in
/-- A list is some lines and the rest behind the last separator. -/
theorem exists_unlines (sep : α) (l : List α) : ∃ ls r, l = unlines sep ls ++ r ∧ (∀ w ∈ ls, sep ∉ w) ∧ sep ∉ r := by
  induction l with
  | nil => exact ⟨[], [], rfl, forall_mem_nil _, not_mem_nil⟩
  | cons c l ih =>
    obtain ⟨ls, r, rfl, plain, last⟩ := ih
    by_cases here : c = sep
    · subst here
      refine ⟨[] :: ls, r, by rw [unlines_cons]; rfl, ?_, last⟩
      exact forall_mem_cons.mpr ⟨not_mem_nil, plain⟩
    · cases ls with
      | nil => exact ⟨[], c :: r, rfl, plain, fun mem => (mem_cons.mp mem).elim (fun same => here same.symm) last⟩
      | cons w ls =>
        obtain ⟨first, others⟩ := forall_mem_cons.mp plain
        refine ⟨(c :: w) :: ls, r, by rw [unlines_cons, unlines_cons]; rfl, ?_, last⟩
        exact forall_mem_cons.mpr ⟨fun mem => (mem_cons.mp mem).elim (fun same => here same.symm) first, others⟩

theorem splitOn_unlines_append {ls : List (List α)} (plain : ∀ w ∈ ls, sep ∉ w) (l : List α) :
    (unlines sep ls ++ l).splitOn sep = ls ++ l.splitOn sep := by
  induction ls with
  | nil => rfl
  | cons w ls ih =>
    obtain ⟨first, others⟩ := forall_mem_cons.mp plain
    have split : (w ++ sep :: (unlines sep ls ++ l)).splitOn sep = w :: (unlines sep ls ++ l).splitOn sep :=
      splitOnP_append_cons_of_forall_mem (beq_false_of_notMem first) sep (beq_self_eq_true sep) _
    rw [unlines_cons, append_assoc, cons_append, split, ih others, cons_append]

end List
