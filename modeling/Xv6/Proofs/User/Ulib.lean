import Xv6.Model.User.Ulib

/-! # The user library on memory

What the functions of the library find in memory and leave there. `Shows mem p bytes` says that some bytes stand from
`p` on.
-/

namespace Xv6.Ulib

variable {mem mem' : Memory} {p bound : ℕ} {bytes more : List UInt8} {b c : UInt8}

/-- The bytes from `p` on. -/
def Shows (mem : Memory) (p : ℕ) (bytes : List UInt8) : Prop :=
  ∀ i, (inside : i < bytes.length) → mem (p + i) = bytes[i]

theorem shows_nil : Shows mem p [] := fun _ inside => nomatch inside

theorem shows_cons : Shows mem p (b :: bytes) ↔ mem p = b ∧ Shows mem (p + 1) bytes := by
  constructor
  · intro shows
    refine ⟨shows 0 (Nat.zero_lt_succ _), fun i inside => ?_⟩
    rw [Nat.add_assoc, Nat.add_comm 1]
    exact shows (i + 1) (Nat.succ_lt_succ inside)
  · rintro ⟨first, rest⟩ i inside
    cases i with
    | zero => exact first
    | succ i =>
      have next := rest i (Nat.lt_of_succ_lt_succ inside)
      rwa [Nat.add_right_comm, Nat.add_assoc] at next

theorem shows_append : Shows mem p (bytes ++ more) ↔ Shows mem p bytes ∧ Shows mem (p + bytes.length) more := by
  induction bytes generalizing p with
  | nil => exact ⟨fun shows => ⟨shows_nil, shows⟩, And.right⟩
  | cons b bytes ih =>
    rw [List.cons_append, shows_cons, shows_cons, ih, and_assoc, List.length_cons, Nat.add_assoc, Nat.add_comm 1]

theorem Shows.congr (shows : Shows mem p bytes) (same : ∀ a, p ≤ a → a < p + bytes.length → mem' a = mem a) :
    Shows mem' p bytes :=
  fun i inside => (same (p + i) (Nat.le_add_right p i) (Nat.add_lt_add_left inside p)).trans (shows i inside)

theorem Shows.update {a : ℕ} {v : UInt8} (shows : Shows mem p bytes) (apart : a < p ∨ p + bytes.length ≤ a) :
    Shows (Function.update mem a v) p bytes :=
  shows.congr fun _ _ _ => Function.update_of_ne (by omega) v mem

theorem shows_store (mem : Memory) (p : ℕ) (bytes : List UInt8) : Shows (store mem p bytes) p bytes := by
  intro i inside
  rw [store, if_pos (by omega), Nat.add_sub_cancel_left, List.getD_eq_getElem?_getD, List.getElem?_eq_getElem inside]
  rfl

theorem store_of_lt {a : ℕ} (below : a < p) : store mem p bytes a = mem a := if_neg (by omega)

theorem slice_eq (shows : Shows mem p bytes) : slice mem p bytes.length = bytes := by
  refine List.ext_getElem (by simp [slice]) fun i _ inside => ?_
  simp only [slice, List.getElem_map, List.getElem_range]
  exact shows i inside

theorem string_eq (shows : Shows mem p bytes) (plain : 0 ∉ bytes) (ends : mem (p + bytes.length) = 0)
    (enough : bytes.length < bound) :
    string mem bound p = bytes := by
  induction bytes generalizing p bound with
  | nil =>
    cases bound with
    | zero => cases enough
    | succ bound => exact if_neg (not_not.mpr ends)
  | cons b bytes ih =>
    obtain ⟨here, rest⟩ := shows_cons.mp shows
    rw [List.mem_cons, not_or] at plain
    cases bound with
    | zero => cases enough
    | succ bound =>
      rw [List.length_cons, ← Nat.add_assoc, Nat.add_right_comm] at ends
      rw [string, here, if_pos (Ne.symm plain.1), ih rest plain.2 ends (Nat.lt_of_succ_lt_succ enough)]

theorem strchr_skip (shows : Shows mem p bytes) (plain : 0 ∉ bytes) (absent : c ∉ bytes) :
    strchr mem c (bytes.length + bound) p = strchr mem c bound (p + bytes.length) := by
  induction bytes generalizing p with
  | nil => rw [List.length_nil, Nat.zero_add, Nat.add_zero]
  | cons b bytes ih =>
    obtain ⟨here, rest⟩ := shows_cons.mp shows
    rw [List.mem_cons, not_or] at plain absent
    rw [List.length_cons, Nat.add_right_comm, strchr, here, if_pos (Ne.symm plain.1), if_neg (Ne.symm absent.1),
      ih rest plain.2 absent.2, Nat.add_assoc, Nat.add_comm 1]

theorem strchr_none (shows : Shows mem p bytes) (plain : 0 ∉ bytes) (absent : c ∉ bytes)
    (ends : mem (p + bytes.length) = 0) (enough : bytes.length < bound) : strchr mem c bound p = none := by
  obtain ⟨more, rfl⟩ := Nat.exists_eq_add_of_lt enough
  rw [Nat.add_assoc, strchr_skip shows plain absent]
  exact if_neg (not_not.mpr ends)

theorem strchr_some (shows : Shows mem p (bytes ++ c :: more)) (plain : 0 ∉ bytes) (absent : c ∉ bytes) (proper : c ≠ 0)
    (enough : bytes.length < bound) : strchr mem c bound p = some (p + bytes.length) := by
  obtain ⟨before, found⟩ := shows_append.mp shows
  obtain ⟨rest, rfl⟩ := Nat.exists_eq_add_of_lt enough
  rw [Nat.add_assoc, strchr_skip before plain absent, strchr, (shows_cons.mp found).1, if_pos proper, if_pos rfl]

/-! ### Moving -/

/-- All bytes are read before one is written. -/
def copied (mem : Memory) (dst src n : ℕ) : Memory :=
  fun a => if dst ≤ a ∧ a < dst + n then mem (src + (a - dst)) else mem a

/-- Going up, no byte is overwritten before it is read if the target is not inside the source, or begins with it. -/
theorem moveUp_eq {n dst src : ℕ} (apart : dst ≤ src ∨ src + n ≤ dst) (mem : Memory) :
    moveUp n dst src mem = copied mem dst src n := by
  induction n generalizing dst src mem with
  | zero =>
    funext a
    exact (if_neg (by omega)).symm
  | succ n ih =>
    funext a
    rw [moveUp, ih (by omega), copied, copied]
    by_cases first : a = dst
    · subst first
      rw [if_neg (by omega), if_pos (by omega), Function.update_self, Nat.sub_self, Nat.add_zero]
    · by_cases inside : dst + 1 ≤ a ∧ a < dst + 1 + n
      · rw [if_pos inside, if_pos (by omega), Function.update_of_ne (by omega)]
        exact congrArg mem (by omega)
      · rw [if_neg inside, if_neg (by omega), Function.update_of_ne first]

/-- Going down, no byte is overwritten before it is read if the target is not below. -/
theorem moveDown_eq {n dst src : ℕ} (above : src ≤ dst) (mem : Memory) :
    moveDown n dst src mem = copied mem dst src n := by
  induction n generalizing mem with
  | zero =>
    funext a
    exact (if_neg (by omega)).symm
  | succ n ih =>
    funext a
    rw [moveDown, ih, copied, copied]
    by_cases last : a = dst + n
    · subst last
      rw [if_neg (by omega), if_pos (by omega), Function.update_self]
      exact congrArg mem (by omega)
    · by_cases inside : dst ≤ a ∧ a < dst + n
      · rw [if_pos inside, if_pos (by omega), Function.update_of_ne (by omega)]
      · rw [if_neg inside, if_neg (by omega), Function.update_of_ne last]

theorem memmove_eq (mem : Memory) (dst src n : ℕ) : memmove mem dst src n = copied mem dst src n := by
  unfold memmove
  split
  · next below => exact moveUp_eq (.inl (Nat.le_of_lt below)) mem
  · next above => exact moveDown_eq (by omega) mem

theorem Kernel.memmove_eq (mem : Memory) (dst src n : ℕ) : Kernel.memmove mem dst src n = copied mem dst src n := by
  unfold Kernel.memmove
  split
  · next zero =>
    funext a
    exact (if_neg (by omega)).symm
  · split
    · next inside => exact moveDown_eq (Nat.le_of_lt inside.1) mem
    · next outside => exact moveUp_eq (by omega) mem

theorem shows_memmove {dst src : ℕ} (shows : Shows mem src bytes) :
    Shows (memmove mem dst src bytes.length) dst bytes := by
  intro i inside
  rw [memmove_eq, copied, if_pos (by omega), Nat.add_sub_cancel_left]
  exact shows i inside

end Xv6.Ulib
