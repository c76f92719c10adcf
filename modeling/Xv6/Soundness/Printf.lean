import Xv6.Proofs.Printf

/-! # The two `printf` agree

The kernel and a user program print the same pieces for a format. They differ in the characters of the digits above
nine, which the kernel writes in lower case and a user program in upper case. A trailing `%`, an unknown conversion and
the prefix `l` in front of anything else are pieces like others. What `printint` prints is the canonical numeral of its
argument, which fits its buffer in either base.
-/

namespace Xv6.Printf

/-- A numeral: a sign in front of a negative number, then digits of the base without leading zeros. -/
def Canonical (digits : Digits) (base : ℕ) (v : ℤ) (out : List UInt8) : Prop :=
  ∃ ds : List ℕ, out = (if v < 0 then ['-'.toUInt8] else []) ++ chars digits ds ∧ ds ≠ [] ∧ (∀ d ∈ ds, d < base) ∧
    (ds.head? = some 0 → ds = [0]) ∧ Nat.ofDigits base ds.reverse = v.natAbs

theorem canonical_storedDigits (digits : Digits) {base : ℕ} (big : 1 < base) (v : ℤ) : Canonical digits base v
    (chars digits (storedDigits base v.natAbs) ++ if v < 0 then ['-'.toUInt8] else []).reverse := by
  refine ⟨(storedDigits base v.natAbs).reverse, ?_, ?_⟩
  · rw [List.reverse_append, chars, chars, List.map_reverse]
    split <;> rfl
  · rw [List.reverse_reverse, storedDigits]
    split
    next zero =>
      rw [zero]
      exact ⟨List.cons_ne_nil 0 [], fun d one => List.mem_singleton.mp one ▸ Nat.zero_lt_of_lt big, fun _ => rfl, rfl⟩
    next nonzero =>
      have some : Nat.digits base v.natAbs ≠ [] := Nat.digits_ne_nil_iff_ne_zero.mpr nonzero
      refine ⟨fun none => some (List.reverse_eq_nil_iff.mp none),
        fun d listed => Nat.digits_lt_base big (List.mem_reverse.mp listed), ?_, Nat.ofDigits_digits base _⟩
      -- the first digit is the last one of the list of digits, which is not zero
      rw [List.head?_reverse, List.getLast?_eq_some_getLast some]
      exact fun leading => absurd (Option.some.inj leading) (Nat.getLast_digit_ne_zero base nonzero)

/-- Either `printint` stays inside its buffer and prints the canonical numeral of its argument. -/
theorem printint_canonical (x : Int64) (base : UInt64) (known : base = 10 ∨ base = 16) (sign : Bool) :
    (∃ out, Kernel.printint kernelDigits x base sign = .ok (out.map UInt8.toUInt32) ∧
      Canonical kernelDigits base.toNat (printedInt sign x) out) ∧
    ∃ out, User.printint userDigits x base sign = .ok out ∧
    Canonical userDigits base.toNat (printedInt sign x) out := by
  have big : 1 < base.toNat := by rcases known with rfl | rfl <;> decide
  constructor
  · refine ⟨_, ?_, canonical_storedDigits kernelDigits big (printedInt sign x)⟩
    rw [Kernel.printint, intBuffer_eq kernelDigits known]
    rfl
  · refine ⟨_, ?_, canonical_storedDigits userDigits big (printedInt sign x)⟩
    rw [User.printint, intBuffer_eq userDigits known]
    rfl

/-- The most negative number, which takes the whole buffer. -/
theorem printint_least :
    ∃ out, User.printint userDigits Int64.minValue 10 true = .ok out ∧ Canonical userDigits 10 (-2 ^ 63) out :=
  (printint_canonical Int64.minValue 10 (.inl rfl) true).2

/-- The two tables differ in the case of six letters. -/
theorem digits_case (d : Fin 16) :
    kernelDigits.get d = userDigits.get d ∨ 10 ≤ d ∧ kernelDigits.get d = userDigits.get d + 32 := by
  revert d
  decide

theorem Piece.agree (p : Piece) (small : ∀ w, p = .char w → w < 256) :
    p.toKernel kernelDigits = (p.toUser userDigits).toUInt32 ∨
      ∃ d, p = .digit d ∧ 10 ≤ d ∧ p.toKernel kernelDigits = (p.toUser userDigits + 32).toUInt32 := by
  cases p with
  | byte c => exact .inl rfl
  | char w =>
    have below : w.toNat < 256 := small w rfl
    refine .inl (UInt32.toNat_inj.mp ?_)
    change w.toNat = (w.toUInt8.toUInt32).toNat
    rw [UInt8.toNat_toUInt32, UInt32.toNat_toUInt8, Nat.mod_eq_of_lt below]
  | digit d =>
    rcases digits_case d with same | ⟨letter, lower⟩
    · exact .inl (congrArg UInt8.toUInt32 same)
    · exact .inr ⟨d, rfl, letter, congrArg UInt8.toUInt32 lower⟩

/-- Where the arguments supply what the format consumes, and characters are below 256, both print the same pieces, and
a piece is the same character in both, or it is a digit above nine in lower and in upper case. -/
theorem printf_agree (fmt : List UInt8) (args : List Arg) (out : List Piece) (supplied : output fmt args = some out)
    (small : ∀ w, .char w ∈ out → w < 256) :
    Kernel.printf fmt args = .ok (out.map (Piece.toKernel kernelDigits)) ∧
    User.vprintf fmt args = .ok (out.map (Piece.toUser userDigits)) ∧
    ∀ p ∈ out, p.toKernel kernelDigits = (p.toUser userDigits).toUInt32 ∨
      ∃ d, p = .digit d ∧ 10 ≤ d ∧ p.toKernel kernelDigits = (p.toUser userDigits + 32).toUInt32 := by
  refine ⟨?_, ?_, fun p listed => p.agree fun w same => small w (same ▸ listed)⟩
  · rw [Kernel.printf_eq, supplied]
    rfl
  · rw [User.vprintf_eq, supplied]
    rfl

/-- A number in both cases, a character, an unknown conversion and a trailing `%`. -/
theorem printf_agree_mixed :
    Kernel.printf (ascii "%x%c%lq%") [.word 0xab, .word 33] = .ok ((ascii "ab!%lq").map UInt8.toUInt32) ∧
    User.vprintf (ascii "%x%c%lq%") [.word 0xab, .word 33] = .ok (ascii "AB!%lq") := by
  have printed : output (ascii "%x%c%lq%") [.word 0xab, .word 33] =
      some [.digit 10, .digit 11, .char 33, .byte 37, .byte 108, .byte 113] := by decide +kernel
  have small : ∀ w, Piece.char w ∈ [Piece.digit 10, .digit 11, .char 33, .byte 37, .byte 108, .byte 113] → w < 256 := by
    intro w listed
    obtain rfl : w = 33 := by simpa using listed
    decide
  obtain ⟨kernel, user, -⟩ := printf_agree _ _ _ printed small
  have lower : [Piece.digit 10, .digit 11, .char 33, .byte 37, .byte 108, .byte 113].map (Piece.toKernel kernelDigits) =
      (ascii "ab!%lq").map UInt8.toUInt32 := by decide +kernel
  have upper : [Piece.digit 10, .digit 11, .char 33, .byte 37, .byte 108, .byte 113].map (Piece.toUser userDigits) =
      ascii "AB!%lq" := by decide +kernel
  rw [lower] at kernel
  rw [upper] at user
  exact ⟨kernel, user⟩

end Xv6.Printf
