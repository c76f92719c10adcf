import Mathlib.Algebra.Group.Action.Defs
import Mathlib.Algebra.Order.BigOperators.Group.Finset

/-! # Reservation ledgers

A pool of slots of which some are in use and some are set aside for holders. What is claimed is the
sum of both. Moving a slot from a holder's credit into use keeps the claim, so a pool whose claim is
within its capacity when a holder enters never runs out while holders stay within their credit.
-/

namespace Machine

/-- The slots in use, and the slots set aside for each holder. -/
structure Ledger (ι : Type*) where
  used : ℕ
  holders : Finset ι
  credit : ι → ℕ

namespace Ledger

variable {ι : Type*}

/-- The slots in use or set aside. -/
def claimed (l : Ledger ι) : ℕ := l.used + ∑ i ∈ l.holders, l.credit i

/-- A holder with credit left finds a free slot. -/
theorem used_lt {l : Ledger ι} {capacity : ℕ} (within : l.claimed ≤ capacity) {i : ι}
    (holder : i ∈ l.holders) (left : 0 < l.credit i) : l.used < capacity := by
  have single : l.credit i ≤ ∑ j ∈ l.holders, l.credit j := Finset.single_le_sum_of_canonicallyOrdered holder
  unfold claimed at within
  omega

/-- When no credit exceeds `bound`, the claim is at most `bound` for each holder. -/
theorem claimed_le {l : Ledger ι} {bound : ℕ} (bounded : ∀ i ∈ l.holders, l.credit i ≤ bound) :
    l.claimed ≤ l.used + l.holders.card * bound := by
  have total : ∑ i ∈ l.holders, l.credit i ≤ l.holders.card • bound :=
    Finset.sum_le_card_nsmul l.holders l.credit bound bounded
  rw [smul_eq_mul] at total
  unfold claimed
  omega

variable [DecidableEq ι]

/-- A new holder sets slots aside. -/
def enter (l : Ledger ι) (i : ι) (slots : ℕ) : Ledger ι :=
  { l with holders := insert i l.holders, credit := Function.update l.credit i slots }

/-- A holder's credit changes. -/
def adjust (l : Ledger ι) (i : ι) (slots : ℕ) : Ledger ι :=
  { l with credit := Function.update l.credit i slots }

/-- A holder gives up what it has left. -/
def leave (l : Ledger ι) (i : ι) : Ledger ι := { l with holders := l.holders.erase i }

theorem claimed_enter (l : Ledger ι) {i : ι} (absent : i ∉ l.holders) (slots : ℕ) :
    (l.enter i slots).claimed = l.claimed + slots := by
  have others : ∑ j ∈ l.holders, Function.update l.credit i slots j = ∑ j ∈ l.holders, l.credit j := by
    refine Finset.sum_congr rfl fun j member => Function.update_of_ne ?_ _ _
    rintro rfl
    exact absent member
  simp only [claimed, enter, Finset.sum_insert absent, Function.update_self, others]
  omega

theorem claimed_adjust (l : Ledger ι) {i : ι} (holder : i ∈ l.holders) (slots : ℕ) :
    (l.adjust i slots).claimed + l.credit i = l.claimed + slots := by
  have others : ∑ j ∈ l.holders.erase i, Function.update l.credit i slots j =
      ∑ j ∈ l.holders.erase i, l.credit j :=
    Finset.sum_congr rfl fun j member => Function.update_of_ne (Finset.ne_of_mem_erase member) _ _
  have before := Finset.add_sum_erase l.holders l.credit holder
  have after := Finset.add_sum_erase l.holders (Function.update l.credit i slots) holder
  rw [Function.update_self, others] at after
  simp only [claimed, adjust]
  omega

theorem claimed_leave_le (l : Ledger ι) (i : ι) : (l.leave i).claimed ≤ l.claimed := by
  have fewer : ∑ j ∈ l.holders.erase i, l.credit j ≤ ∑ j ∈ l.holders, l.credit j :=
    Finset.sum_le_sum_of_subset (Finset.erase_subset i l.holders)
  simp only [claimed, leave]
  omega

end Ledger

end Machine
