import Mathlib.Data.Set.Function

/-! # Exclusive ownership

Places that each hold at most one item of a resource. `Owned holder used` says that the items in use are
exactly the items in some place, and that no item is in two places. An operation is described by what it
does to the places and to the use marks; the lemmas say which pairs of changes keep ownership.
-/

namespace Machine

variable {ι ρ : Type*}

structure Owned (holder : ι → Option ρ) (used : ρ → Prop) : Prop where
  used_iff : ∀ r, used r ↔ ∃ x, holder x = some r
  unique : ∀ x y r, holder x = some r → holder y = some r → x = y

variable {holder' : ι → Option ρ} {used' : ρ → Prop} {x : ι} {r : ρ}

namespace Owned

variable {holder : ι → Option ρ} {used : ρ → Prop}

section

variable (owned : Owned holder used)
include owned

theorem used_of_held (held : holder x = some r) : used r :=
  (owned.used_iff r).mpr ⟨x, held⟩

/-- An item not in use goes into an empty place. -/
theorem assign [DecidableEq ι] (empty : holder x = none)
    (unused : ¬ used r) : Owned (Function.update holder x (some r)) fun q => q = r ∨ used q where
  used_iff q := by
    constructor
    · rintro (rfl | inUse)
      · exact ⟨x, Function.update_self ..⟩
      · obtain ⟨y, held⟩ := (owned.used_iff q).mp inUse
        have elsewhere : y ≠ x := by
          rintro rfl
          rw [empty] at held
          cases held
        exact ⟨y, by rw [Function.update_of_ne elsewhere, held]⟩
    · rintro ⟨y, held⟩
      by_cases here : y = x
      · rw [here, Function.update_self] at held
        exact .inl (Option.some.inj held).symm
      · rw [Function.update_of_ne here] at held
        exact .inr (owned.used_of_held held)
  unique y z q left right := by
    simp only [Function.update_apply] at left right
    split at left <;> split at right
    · next h₁ h₂ => exact h₁.trans h₂.symm
    · cases left
      exact (unused (owned.used_of_held right)).elim
    · cases right
      exact (unused (owned.used_of_held left)).elim
    · exact owned.unique y z q left right

/-- The places of a set are emptied and their items go out of use. -/
theorem release (gone : ι → Prop)
    (empty : ∀ x, gone x → holder' x = none) (kept : ∀ x, ¬ gone x → holder' x = holder x)
    (marks : ∀ r, used' r ↔ used r ∧ ∀ x, gone x → holder x ≠ some r) : Owned holder' used' where
  used_iff r := by
    rw [marks, owned.used_iff]
    constructor
    · rintro ⟨⟨x, held⟩, notGone⟩
      refine ⟨x, ?_⟩
      rw [kept x fun h => notGone x h held, held]
    · rintro ⟨x, held⟩
      have stays : ¬ gone x := fun h => by
        rw [empty x h] at held
        cases held
      rw [kept x stays] at held
      refine ⟨⟨x, held⟩, fun y h other => stays ?_⟩
      rwa [owned.unique x y r held other]
  unique x y r left right := by
    have stays (z : ι) (held : holder' z = some r) : holder z = some r := by
      rw [← kept z fun h => ?_, held]
      rw [empty z h] at held
      cases held
    exact owned.unique x y r (stays x left) (stays y right)

theorem congr
    (places : ∀ x, holder' x = holder x) (marks : ∀ r, used' r ↔ used r) : Owned holder' used' := by
  obtain rfl : holder' = holder := funext places
  obtain rfl : used' = used := funext fun r => propext (marks r)
  exact owned

end

end Owned

end Machine
