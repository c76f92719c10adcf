import Mathlib.Data.Fintype.Card

/-! # Counting the parties in a phase

A counter that is kept by hand, one up when a party enters a phase and one down when it leaves, is the
number of the parties in that phase. The parties are indexed by any type; only finitely many of them
are in the phase at a time.
-/

namespace Machine

variable {ι σ : Type*}

/-- `count` is the number of parties whose state satisfies `phase`. -/
def Census (state : ι → σ) (phase : σ → Prop) (count : ℤ) : Prop :=
  ∃ inside : Finset ι, (∀ i, i ∈ inside ↔ phase (state i)) ∧ count = inside.card

namespace Census

variable {state : ι → σ} {phase : σ → Prop} {count : ℤ} {i : ι} {next : σ}

theorem none_inside (outside : ∀ i, ¬ phase (state i)) : Census state phase 0 :=
  ⟨∅, fun i => by simpa using outside i, by simp⟩

theorem of_eq (census : Census state phase count) {counted : ℤ} (same : counted = count) :
    Census state phase counted := same ▸ census

theorem one_le (census : Census state phase count) (inside : phase (state i)) : 1 ≤ count := by
  obtain ⟨parties, members, rfl⟩ := census
  have positive := Finset.card_pos.mpr ⟨i, (members i).mpr inside⟩
  omega

/-- A counter that stands at one counts a single party. -/
theorem unique (census : Census state phase 1) {j : ι} (first : phase (state i)) (second : phase (state j)) :
    j = i := by
  obtain ⟨parties, members, single⟩ := census
  obtain ⟨only, rfl⟩ := Finset.card_eq_one.mp (by exact_mod_cast single.symm)
  rw [Finset.mem_singleton.mp ((members i).mpr first), Finset.mem_singleton.mp ((members j).mpr second)]

theorem le_card [Fintype ι] (census : Census state phase count) : count ≤ Fintype.card ι := by
  obtain ⟨parties, -, rfl⟩ := census
  exact_mod_cast parties.card_le_univ

variable [DecidableEq ι]

theorem enter (census : Census state phase count) (outside : ¬ phase (state i)) (inside : phase next) :
    Census (Function.update state i next) phase (count + 1) := by
  obtain ⟨parties, members, rfl⟩ := census
  refine ⟨insert i parties, fun j => ?_, ?_⟩
  · rcases eq_or_ne j i with rfl | distinct
    · simpa using inside
    · simpa [distinct] using members j
  · rw [Finset.card_insert_of_notMem (mt (members i).mp outside)]
    omega

theorem leave (census : Census state phase count) (inside : phase (state i)) (outside : ¬ phase next) :
    Census (Function.update state i next) phase (count - 1) := by
  obtain ⟨parties, members, rfl⟩ := census
  have member := (members i).mpr inside
  have positive := Finset.card_pos.mpr ⟨i, member⟩
  refine ⟨parties.erase i, fun j => ?_, ?_⟩
  · rcases eq_or_ne j i with rfl | distinct
    · simpa using outside
    · simpa [distinct] using members j
  · rw [Finset.card_erase_of_mem member]
    omega

theorem stay (census : Census state phase count) (same : phase next ↔ phase (state i)) :
    Census (Function.update state i next) phase count := by
  obtain ⟨parties, members, counted⟩ := census
  refine ⟨parties, fun j => ?_, counted⟩
  rcases eq_or_ne j i with rfl | distinct
  · rw [Function.update_self, same, members]
  · rw [Function.update_of_ne distinct, members]

end Census

end Machine
