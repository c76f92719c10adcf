import Mathlib.Data.Nat.Notation
import Mathlib.Logic.Function.Basic

/-! # Replaying writes

A store is a function from keys to values and a history of writes is a list. `replay` is the store
after all of them. What a key holds is decided by the writes to that key alone (`replay_eq`), which
settles most questions about a prefix of a history.
-/

namespace Machine

variable {κ ν : Type*} [DecidableEq κ]

/-- The store after a list of writes. -/
def replay (store : κ → ν) (writes : List (κ × ν)) : κ → ν :=
  writes.foldl (fun store write => Function.update store write.1 write.2) store

@[simp] theorem replay_nil (store : κ → ν) : replay store [] = store := rfl

@[simp] theorem replay_cons (store : κ → ν) (write : κ × ν) (rest : List (κ × ν)) :
    replay store (write :: rest) = replay (Function.update store write.1 write.2) rest := rfl

@[simp] theorem replay_append (store : κ → ν) (first second : List (κ × ν)) :
    replay store (first ++ second) = replay (replay store first) second :=
  List.foldl_append

variable {store : κ → ν} {writes : List (κ × ν)} {key : κ}

/-- A key holds `value` when every write to it does, and it is written or held it before. -/
theorem replay_eq {value : ν} (agree : ∀ write ∈ writes, write.1 = key → write.2 = value)
    (present : (∃ write ∈ writes, write.1 = key) ∨ store key = value) :
    replay store writes key = value := by
  induction writes generalizing store with
  | nil => simpa using present
  | cons write rest ih =>
    rw [replay_cons]
    refine ih (fun other member => agree other (List.mem_cons_of_mem write member)) ?_
    by_cases hit : write.1 = key
    · right
      rw [hit, Function.update_self]
      exact agree write List.mem_cons_self hit
    · rcases present with ⟨other, member, atKey⟩ | held
      · rcases List.mem_cons.mp member with rfl | later
        · exact absurd atKey hit
        · exact .inl ⟨other, later, atKey⟩
      · right
        rwa [Function.update_of_ne (Ne.symm hit)]

theorem replay_of_not_written (untouched : ∀ write ∈ writes, write.1 ≠ key) : replay store writes key = store key :=
  replay_eq (fun write member hit => absurd hit (untouched write member)) (.inr rfl)

/-- Two stores agree after a history wherever it writes or they agreed before. -/
theorem replay_congr {first second : κ → ν} (agree : (∃ write ∈ writes, write.1 = key) ∨ first key = second key) :
    replay first writes key = replay second writes key := by
  induction writes generalizing first second with
  | nil => simpa using agree
  | cons write rest ih =>
    rw [replay_cons, replay_cons]
    refine ih ?_
    by_cases hit : write.1 = key
    · right
      rw [hit, Function.update_self, Function.update_self]
    · rcases agree with ⟨other, member, atKey⟩ | same
      · rcases List.mem_cons.mp member with rfl | later
        · exact absurd atKey hit
        · exact .inl ⟨other, later, atKey⟩
      · right
        rw [Function.update_of_ne (Ne.symm hit), Function.update_of_ne (Ne.symm hit), same]

/-- Replaying a whole history over some of it already done changes nothing. -/
theorem replay_replay_take (store : κ → ν) (writes : List (κ × ν)) (count : ℕ) :
    replay (replay store (writes.take count)) writes = replay store writes := by
  funext key
  apply replay_congr
  by_cases written : ∃ write ∈ writes, write.1 = key
  · exact .inl written
  · refine .inr (replay_of_not_written fun write member hit => written ⟨write, ?_, hit⟩)
    exact List.mem_of_mem_take member

end Machine
