import Mathlib.Algebra.Group.Nat.Defs

/-! # Little-endian words in byte vectors

A byte vector read and written as an array of 32-bit words, as a C struct of `int` fields laid over a
buffer is on a little-endian machine. Words beyond the vector read as zero and are not written.
-/

namespace Vector

variable {n : ℕ}

/-- The byte at an offset, zero beyond the vector. -/
def byteAt (bytes : Vector UInt8 n) (offset : ℕ) : ℕ := (bytes[offset]?.getD 0).toNat

/-- The word at bytes `4 * i` to `4 * i + 3`. -/
def word (bytes : Vector UInt8 n) (i : ℕ) : UInt32 :=
  UInt32.ofNat (bytes.byteAt (4 * i) + 2 ^ 8 * bytes.byteAt (4 * i + 1) +
    2 ^ 16 * bytes.byteAt (4 * i + 2) + 2 ^ 24 * bytes.byteAt (4 * i + 3))

/-- Overwrite the word at bytes `4 * i` to `4 * i + 3`. -/
def setWord (bytes : Vector UInt8 n) (i : ℕ) (value : UInt32) : Vector UInt8 n :=
  Vector.ofFn fun k =>
    if k.val / 4 = i then UInt8.ofNat (value.toNat / 2 ^ (8 * (k.val % 4))) else bytes.get k

/-- Overwrite consecutive words from word `base` on. -/
def setWords (bytes : Vector UInt8 n) (base : ℕ) : List UInt32 → Vector UInt8 n
  | [] => bytes
  | value :: rest => (bytes.setWord base value).setWords (base + 1) rest

section

variable (bytes : Vector UInt8 n)
include bytes

theorem byteAt_setWord (i offset : ℕ) (value : UInt32) (inside : offset < n) :
    (bytes.setWord i value).byteAt offset =
      if offset / 4 = i then value.toNat / 2 ^ (8 * (offset % 4)) % 2 ^ 8 else bytes.byteAt offset := by
  simp only [byteAt, setWord, inside, getElem?_pos, Option.getD_some, Vector.getElem_ofFn]
  split
  · exact UInt8.toNat_ofNat'
  · rfl

theorem byteAt_setWord_of_le (i offset : ℕ) (value : UInt32) (outside : n ≤ offset) :
    (bytes.setWord i value).byteAt offset = bytes.byteAt offset := by
  have absent (other : Vector UInt8 n) : other[offset]? = none := by simp [outside]
  simp only [byteAt, absent]

theorem word_setWord_self {i : ℕ} (value : UInt32) (inside : 4 * i + 4 ≤ n) :
    (bytes.setWord i value).word i = value := by
  have digit (k : ℕ) (small : k < 4) : (bytes.setWord i value).byteAt (4 * i + k) =
      value.toNat / 2 ^ (8 * k) % 2 ^ 8 := by
    rw [byteAt_setWord _ _ _ _ (by omega), if_pos (by omega), show (4 * i + k) % 4 = k by omega]
  have bound := value.toNat_lt
  apply UInt32.toNat_inj.mp
  rw [word, UInt32.toNat_ofNat', digit 1 (by omega), digit 2 (by omega), digit 3 (by omega),
    show 4 * i = 4 * i + 0 by rfl, digit 0 (by omega)]
  simp only [Nat.reduceMul, Nat.reducePow] at bound ⊢
  omega

theorem word_setWord_of_ne {i j : ℕ} (value : UInt32) (distinct : i ≠ j) :
    (bytes.setWord i value).word j = bytes.word j := by
  have same (k : ℕ) (small : k < 4) :
      (bytes.setWord i value).byteAt (4 * j + k) = bytes.byteAt (4 * j + k) := by
    by_cases inside : 4 * j + k < n
    · rw [byteAt_setWord _ _ _ _ inside, if_neg (by omega)]
    · exact byteAt_setWord_of_le _ _ _ _ (by omega)
  have first := same 0 (by omega)
  simp only [Nat.add_zero] at first
  simp only [word, first, same 1 (by omega), same 2 (by omega), same 3 (by omega)]

theorem word_setWords (base i : ℕ) (values : List UInt32) (inside : 4 * (base + values.length) ≤ n) :
    (bytes.setWords base values).word i =
      if base ≤ i ∧ i < base + values.length then values[i - base]?.getD 0 else bytes.word i := by
  induction values generalizing bytes base with
  | nil => rw [setWords, if_neg (by simp)]
  | cons value rest ih =>
    simp only [List.length_cons] at inside ⊢
    rw [setWords, ih _ _ (by omega)]
    by_cases here : i = base
    · subst here
      rw [if_neg (by omega), if_pos (by omega), word_setWord_self _ _ (by omega)]
      simp
    · rw [word_setWord_of_ne _ _ (Ne.symm here)]
      by_cases later : base + 1 ≤ i ∧ i < base + 1 + rest.length
      · rw [if_pos later, if_pos (by omega), show i - base = i - (base + 1) + 1 by omega, List.getElem?_cons_succ]
      · rw [if_neg later, if_neg (by omega)]

end

/-! Words of 64 bits, each of them two of 32. -/

/-- The word at bytes `8 * i` to `8 * i + 7`. -/
def word64 (bytes : Vector UInt8 n) (i : ℕ) : UInt64 :=
  UInt64.ofNat ((bytes.word (2 * i)).toNat + 2 ^ 32 * (bytes.word (2 * i + 1)).toNat)

/-- Overwrite the word at bytes `8 * i` to `8 * i + 7`. -/
def setWord64 (bytes : Vector UInt8 n) (i : ℕ) (value : UInt64) : Vector UInt8 n :=
  (bytes.setWord (2 * i) (UInt32.ofNat value.toNat)).setWord (2 * i + 1) (UInt32.ofNat (value.toNat / 2 ^ 32))

theorem word64_setWord64_self (bytes : Vector UInt8 n) {i : ℕ} (value : UInt64) (inside : 8 * i + 8 ≤ n) :
    (bytes.setWord64 i value).word64 i = value := by
  have bound := value.toNat_lt
  apply UInt64.toNat_inj.mp
  rw [word64, setWord64, word_setWord_self _ _ (by omega), word_setWord_of_ne _ _ (by omega),
    word_setWord_self _ _ (by omega), UInt64.toNat_ofNat', UInt32.toNat_ofNat', UInt32.toNat_ofNat']
  omega

theorem word64_setWord64_of_ne (bytes : Vector UInt8 n) {i j : ℕ} (value : UInt64) (distinct : i ≠ j) :
    (bytes.setWord64 i value).word64 j = bytes.word64 j := by
  simp only [word64, setWord64]
  rw [word_setWord_of_ne _ _ (by omega), word_setWord_of_ne _ _ (by omega), word_setWord_of_ne _ _ (by omega),
    word_setWord_of_ne _ _ (by omega)]

theorem byteAt_replicate_zero (offset : ℕ) : (Vector.replicate n (0 : UInt8)).byteAt offset = 0 := by
  rw [byteAt]
  by_cases inside : offset < n <;> simp [inside]

theorem word64_replicate_zero (i : ℕ) : (Vector.replicate n (0 : UInt8)).word64 i = 0 := by
  simp [word64, word, byteAt_replicate_zero]

end Vector
