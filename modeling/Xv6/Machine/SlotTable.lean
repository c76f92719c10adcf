import Mathlib.Data.List.Basic

/-! # Tables of slots

A finite map kept in a row of slots, each of them empty or with one binding. A binding is added in an
empty slot or behind the last one, and taken out by emptying its slot; nothing is ever moved.
-/

namespace Machine

variable {κ ν : Type*}

/-- The slots from `size` on do not count. -/
structure SlotTable (κ ν : Type*) where
  size : ℕ
  slot : ℕ → Option (κ × ν)

namespace SlotTable

variable {t t' : SlotTable κ ν} {k : κ} {v : ν} {j : ℕ}

/-- No key has two bindings. -/
def Distinct (t : SlotTable κ ν) : Prop :=
  ∀ i < t.size, ∀ j < t.size, ∀ k v w, t.slot i = some (k, v) → t.slot j = some (k, w) → i = j

/-- The value that a slot binds to a key. -/
def bound [DecidableEq κ] (t : SlotTable κ ν) (k : κ) (j : ℕ) : Option ν :=
  (t.slot j).bind fun b => if b.1 = k then some b.2 else none

/-- The map, by the first slot with a binding for the key. -/
def lookup [DecidableEq κ] (t : SlotTable κ ν) (k : κ) : Option ν := (List.range t.size).findSome? (t.bound k)

section Lookup

variable [DecidableEq κ]

theorem bound_eq_some : t.bound k j = some v ↔ t.slot j = some (k, v) := by
  cases found : t.slot j with
  | none => simp [bound, found]
  | some b =>
    obtain ⟨l, w⟩ := b
    simp [bound, found]

theorem lookup_eq_none : t.lookup k = none ↔ ∀ j < t.size, ∀ v, t.slot j ≠ some (k, v) := by
  rw [lookup, List.findSome?_eq_none_iff]
  constructor
  · intro absent j inside v here
    have := absent j (List.mem_range.mpr inside)
    rw [bound_eq_some.mpr here] at this
    cases this
  · intro absent j listed
    refine Option.eq_none_iff_forall_ne_some.mpr fun v here => ?_
    exact absent j (List.mem_range.mp listed) v (bound_eq_some.mp here)

theorem exists_of_lookup (found : t.lookup k = some v) : ∃ j < t.size, t.slot j = some (k, v) := by
  obtain ⟨j, listed, here⟩ := List.exists_of_findSome?_eq_some found
  exact ⟨j, List.mem_range.mp listed, bound_eq_some.mp here⟩

theorem lookup_of_first (inside : j < t.size) (here : t.slot j = some (k, v))
    (earlier : ∀ i < j, ∀ w, t.slot i ≠ some (k, w)) : t.lookup k = some v := by
  have split : List.range t.size = List.range j ++ (List.range (t.size - j)).map (j + ·) := by
    rw [← List.range_add, Nat.add_sub_cancel' (Nat.le_of_lt inside)]
  have none : (List.range j).findSome? (t.bound k) = none := by
    refine List.findSome?_eq_none_iff.mpr fun i listed => Option.eq_none_iff_forall_ne_some.mpr fun w there => ?_
    exact earlier i (List.mem_range.mp listed) w (bound_eq_some.mp there)
  obtain ⟨m, rest⟩ : ∃ m, t.size - j = m + 1 := ⟨t.size - j - 1, by omega⟩
  rw [lookup, split, List.findSome?_append, none, Option.none_or, rest, List.range_succ_eq_map, List.map_cons,
    List.findSome?_cons, Nat.add_zero, bound_eq_some.mpr here]

section

variable (distinct : t.Distinct)
include distinct

theorem Distinct.lookup_eq_some (inside : j < t.size) (here : t.slot j = some (k, v)) :
    t.lookup k = some v := by
  cases found : t.lookup k with
  | none => exact absurd here (lookup_eq_none.mp found j inside v)
  | some w =>
    obtain ⟨i, low, there⟩ := exists_of_lookup found
    obtain rfl := distinct i low j inside k w v there here
    rw [here] at there
    cases there
    rfl

theorem Distinct.lookup_iff : t.lookup k = some v ↔ ∃ j < t.size, t.slot j = some (k, v) := by
  refine ⟨exists_of_lookup, ?_⟩
  rintro ⟨j, inside, here⟩
  exact distinct.lookup_eq_some inside here

theorem Distinct.lookup_congr (distinct' : t'.Distinct)
    (same : ∀ v, (∃ j < t'.size, t'.slot j = some (k, v)) ↔ ∃ j < t.size, t.slot j = some (k, v)) :
    t'.lookup k = t.lookup k := by
  refine Option.ext fun v => ?_
  rw [distinct'.lookup_iff, distinct.lookup_iff, same]

/-- A binding for a new key goes into an empty slot, or behind the last one. -/
theorem Distinct.insert (absent : t.lookup k = none) (reach : j ≤ t.size)
    (free : j < t.size → t.slot j = none) (size : t'.size = max t.size (j + 1)) (here : t'.slot j = some (k, v))
    (others : ∀ i < t.size, i ≠ j → t'.slot i = t.slot i) :
    t'.Distinct ∧ t'.lookup = Function.update t.lookup k (some v) := by
  have old {i : ℕ} (inside : i < t'.size) (other : i ≠ j) : i < t.size ∧ t'.slot i = t.slot i := by
    have small : i < t.size := by omega
    exact ⟨small, others i small other⟩
  have new {i : ℕ} {w : ν} (inside : i < t'.size) (other : i ≠ j) : t'.slot i ≠ some (k, w) := by
    obtain ⟨small, same⟩ := old inside other
    rw [same]
    exact lookup_eq_none.mp absent i small w
  have distinct' : t'.Distinct := by
    intro a lowa b lowb l x y ha hb
    by_cases first : a = j
    · subst first
      rw [here] at ha
      cases ha
      by_contra apart
      exact new lowb (Ne.symm apart) hb
    · by_cases second : b = j
      · subst second
        rw [here] at hb
        cases hb
        exact absurd ha (new lowa first)
      · obtain ⟨smalla, samea⟩ := old lowa first
        obtain ⟨smallb, sameb⟩ := old lowb second
        exact distinct a smalla b smallb l x y (samea ▸ ha) (sameb ▸ hb)
  refine ⟨distinct', funext fun l => ?_⟩
  by_cases key : l = k
  · subst key
    rw [Function.update_self]
    exact distinct'.lookup_eq_some (by omega) here
  · rw [Function.update_of_ne key]
    refine distinct.lookup_congr distinct' fun w => ⟨?_, ?_⟩
    · rintro ⟨i, inside, there⟩
      have other : i ≠ j := by
        rintro rfl
        rw [here] at there
        cases there
        exact key rfl
      obtain ⟨small, same⟩ := old inside other
      exact ⟨i, small, same ▸ there⟩
    · rintro ⟨i, inside, there⟩
      have other : i ≠ j := by
        rintro rfl
        rw [free inside] at there
        cases there
      exact ⟨i, by omega, by rw [others i inside other, there]⟩

theorem Distinct.erase (inside : j < t.size) (here : t.slot j = some (k, v)) (size : t'.size = t.size)
    (gone : t'.slot j = none) (others : ∀ i < t.size, i ≠ j → t'.slot i = t.slot i) :
    t'.Distinct ∧ t'.lookup = Function.update t.lookup k none := by
  have old {i : ℕ} {l : κ} {w : ν} (small : i < t'.size) (there : t'.slot i = some (l, w)) :
      i ≠ j ∧ i < t.size ∧ t.slot i = some (l, w) := by
    have other : i ≠ j := by
      rintro rfl
      rw [gone] at there
      cases there
    rw [others i (by omega) other] at there
    exact ⟨other, by omega, there⟩
  have distinct' : t'.Distinct := by
    intro a lowa b lowb l x y ha hb
    obtain ⟨-, smalla, beforea⟩ := old lowa ha
    obtain ⟨-, smallb, beforeb⟩ := old lowb hb
    exact distinct a smalla b smallb l x y beforea beforeb
  refine ⟨distinct', funext fun l => ?_⟩
  by_cases key : l = k
  · subst key
    rw [Function.update_self, lookup_eq_none]
    intro i small w there
    obtain ⟨other, inside', before⟩ := old small there
    exact other (distinct i inside' j inside l w v before here)
  · rw [Function.update_of_ne key]
    refine distinct.lookup_congr distinct' fun w => ⟨?_, ?_⟩
    · rintro ⟨i, small, there⟩
      obtain ⟨-, inside', before⟩ := old small there
      exact ⟨i, inside', before⟩
    · rintro ⟨i, small, there⟩
      have other : i ≠ j := by
        rintro rfl
        rw [here] at there
        cases there
        exact key rfl
      exact ⟨i, by omega, by rw [others i small other, there]⟩

end

end Lookup

end SlotTable

end Machine
