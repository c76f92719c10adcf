import Mathlib.Data.Nat.ModEq

/-! # Queues in rings with wrapping counters

A queue is kept in an array of `size` slots between two counters that only ever advance and wrap at
`wrap`, a multiple of the size. The counters name the slots by their remainder. That they differ by no
more than the size is what makes the queue empty when they are equal and full when they are a size apart.
-/

namespace Machine

variable {α : Type*}

structure Ring (wrap size : ℕ) (slot : ℕ → α) (first next : ℕ) (queue : List α) : Prop where
  first_lt : first < wrap
  next_eq : next = (first + queue.length) % wrap
  length_le : queue.length ≤ size
  slot_eq : ∀ k (inside : k < queue.length), slot ((first + k) % size) = queue[k]

namespace Ring

variable {wrap size first next : ℕ} {slot : ℕ → α} {queue : List α}

theorem empty (bound : first < wrap) : Ring wrap size slot first first ([] : List α) :=
  ⟨bound, (Nat.mod_eq_of_lt bound).symm, Nat.zero_le _, fun _ inside => (Nat.not_lt_zero _ inside).elim⟩

section

variable (ring : Ring wrap size slot first next queue)
include ring

theorem congr {slot' : ℕ → α} (same : ∀ k < size, slot' k = slot k) :
    Ring wrap size slot' first next queue where
  first_lt := ring.first_lt
  next_eq := ring.next_eq
  length_le := ring.length_le
  slot_eq k inside := by
    have bound := ring.length_le
    rw [same _ (Nat.mod_lt _ (by omega)), ring.slot_eq k inside]

/-- The same distance from one counter is the same number of items. -/
theorem length_eq_iff (small : size < wrap) {n : ℕ} (fits : n ≤ size) :
    next = (first + n) % wrap ↔ queue.length = n := by
  have bound := ring.length_le
  constructor
  · intro same
    rw [ring.next_eq] at same
    have := Nat.ModEq.add_left_cancel' first same
    exact Nat.ModEq.eq_of_lt_of_lt this (by omega) (by omega)
  · rintro rfl
    exact ring.next_eq

theorem eq_nil_iff (small : size < wrap) : first = next ↔ queue = [] := by
  rw [← List.length_eq_zero_iff, ← ring.length_eq_iff small (Nat.zero_le _), Nat.add_zero,
    Nat.mod_eq_of_lt ring.first_lt, eq_comm]

theorem push (dvd : size ∣ wrap) (room : queue.length < size) (a : α) :
    Ring wrap size (Function.update slot (next % size) a) first ((next + 1) % wrap) (queue ++ [a]) := by
  have place : next % size = (first + queue.length) % size := by
    rw [ring.next_eq, Nat.mod_mod_of_dvd _ dvd]
  refine ⟨ring.first_lt, ?_, ?_, fun k inside => ?_⟩
  · rw [ring.next_eq, Nat.mod_add_mod, List.length_append, List.length_singleton, Nat.add_assoc]
  · rw [List.length_append, List.length_singleton]
    exact room
  · rw [List.length_append, List.length_singleton] at inside
    by_cases old : k < queue.length
    · have apart : (first + k) % size ≠ next % size := by
        rw [place]
        intro same
        have := Nat.ModEq.eq_of_lt_of_lt (Nat.ModEq.add_left_cancel' first same) (by omega) room
        omega
      rw [Function.update_of_ne apart, ring.slot_eq k old, List.getElem_append_left old]
    · obtain rfl : k = queue.length := by omega
      rw [place, Function.update_self, List.getElem_append_right le_rfl]
      simp

end

theorem pop {a : α} (ring : Ring wrap size slot first next (a :: queue)) (dvd : size ∣ wrap) :
    slot (first % size) = a ∧ Ring wrap size slot ((first + 1) % wrap) next queue := by
  have bound := ring.length_le
  rw [List.length_cons] at bound
  have positive : 0 < wrap := by
    have := ring.first_lt
    omega
  refine ⟨ring.slot_eq 0 (Nat.succ_pos _), Nat.mod_lt _ positive, ?_, by omega, fun k inside => ?_⟩
  · rw [ring.next_eq, Nat.mod_add_mod, List.length_cons, Nat.add_assoc, Nat.add_comm 1]
  · have later := ring.slot_eq (k + 1) (by rw [List.length_cons]; omega)
    rw [List.getElem_cons_succ] at later
    rw [← later]
    congr 1
    rw [Nat.add_mod ((first + 1) % wrap), Nat.mod_mod_of_dvd _ dvd, ← Nat.add_mod, Nat.add_assoc, Nat.add_comm 1]

theorem retract {a : α} (ring : Ring wrap size slot first next (queue ++ [a])) (dvd : size ∣ wrap) :
    slot ((first + queue.length) % wrap % size) = a ∧
    Ring wrap size slot first ((first + queue.length) % wrap) queue := by
  have bound := ring.length_le
  rw [List.length_append, List.length_singleton] at bound
  refine ⟨?_, ring.first_lt, rfl, by omega, fun k inside => ?_⟩
  · rw [Nat.mod_mod_of_dvd _ dvd, ring.slot_eq queue.length (by simp), List.getElem_concat_length rfl]
  · rw [ring.slot_eq k (by rw [List.length_append]; omega), List.getElem_append_left inside]

end Ring

end Machine
