import Mathlib.Data.Nat.Digits.Lemmas
import Xv6.Model.Format

/-! # Both `printf` print what the format means

A number fits the buffer of 20 bytes and comes out as its numeral. Each conversion of either loop is the one that the
table of keywords has, and the loops are at an index of the format where the directives of the rest are left.
-/

namespace Xv6.Printf

open List

/-! ### Numbers -/

/-- The digits that `printint` stores: of zero, one. -/
def storedDigits (base n : ℕ) : List ℕ := if n = 0 then [0] else Nat.digits base n

variable {base n : ℕ} {x : Int64} {conv : Conv}

theorem storedDigits_of_lt (small : n < base) : storedDigits base n = [n] := by
  unfold storedDigits
  split
  · next zero => rw [zero]
  · next positive => exact Nat.digits_of_lt base n positive small

theorem storedDigits_of_le (big : 1 < base) (large : base ≤ n) :
    storedDigits base n = n % base :: storedDigits base (n / base) := by
  have more : n / base ≠ 0 := Nat.pos_iff_ne_zero.mp (Nat.div_pos large (by omega))
  rw [storedDigits, if_neg (by omega), storedDigits, if_neg more, Nat.digits_def' big (by omega)]

theorem length_storedDigits_le {k : ℕ} (big : 1 < base) (room : 1 ≤ k) (small : n < base ^ k) :
    (storedDigits base n).length ≤ k := by
  unfold storedDigits
  split
  · exact room
  · exact (Nat.digits_length_le_iff big n).mpr small

/-- The characters of stored digits. -/
def chars (digits : Digits) (ds : List ℕ) : List UInt8 := ds.map fun d => digits.get (index d)

theorem storeDigits_of_lt (digits : Digits) {base x : UInt64} (room : ℕ) (small : x.toNat < base.toNat) :
    storeDigits digits base (room + 1) x = .ok (chars digits (storedDigits base.toNat x.toNat)) := by
  have last : ¬ x / base ≠ 0 := by
    rw [not_not, ← UInt64.toNat_inj, UInt64.toNat_div]
    exact Nat.div_eq_of_lt small
  rw [storeDigits, if_neg last, storedDigits_of_lt small, UInt64.toNat_mod, Nat.mod_eq_of_lt small]
  rfl

theorem storeDigits_eq (digits : Digits) {base x : UInt64} (room : ℕ) (big : 1 < base.toNat)
    (small : x.toNat < base.toNat ^ (room + 1)) :
    storeDigits digits base (room + 1) x = .ok (chars digits (storedDigits base.toNat x.toNat)) := by
  induction room generalizing x with
  | zero =>
    rw [Nat.zero_add, Nat.pow_one] at small
    exact storeDigits_of_lt digits 0 small
  | succ room ih =>
    by_cases more : x.toNat < base.toNat
    · exact storeDigits_of_lt digits _ more
    · have next : x / base ≠ 0 := by
        rw [Ne, ← UInt64.toNat_inj, UInt64.toNat_div]
        exact Nat.pos_iff_ne_zero.mp (Nat.div_pos (not_lt.mp more) (by omega))
      have rest : (x / base).toNat < base.toNat ^ (room + 1) := by
        rw [UInt64.toNat_div, Nat.div_lt_iff_lt_mul (by omega)]
        rwa [Nat.pow_succ] at small
      rw [storeDigits, if_pos next, ih rest, storedDigits_of_le big (not_lt.mp more), UInt64.toNat_mod,
        UInt64.toNat_div]
      rfl

theorem toNat_toUInt64 (x : Int64) : (x.toUInt64.toNat : ℤ) = x.toInt % 2 ^ 64 := by
  have bits : x.toInt = x.toUInt64.toBitVec.toInt := rfl
  have value : x.toUInt64.toNat = x.toUInt64.toBitVec.toNat := rfl
  have wrapped : Int.bmod x.toUInt64.toBitVec.toNat (2 ^ 64) % 2 ^ 64 = x.toUInt64.toBitVec.toNat % 2 ^ 64 :=
    Int.bmod_emod
  have small := x.toUInt64.toBitVec.isLt
  rw [bits, value, BitVec.toInt_eq_toNat_bmod, wrapped]
  omega

/-- The magnitude of a negative number, the least one included. -/
theorem toNat_neg (negative : x < 0) : (-x).toUInt64.toNat = x.toInt.natAbs := by
  have below : x.toInt < 0 := Int64.lt_iff_toInt_lt.mp negative
  have above := Int64.le_toInt x
  have least : Int64.minValue.toInt = -2 ^ 63 := rfl
  have value := toNat_toUInt64 (-x)
  rw [Int64.toInt_neg] at value
  have wrapped : (Int.bmod (-x.toInt) (2 ^ 64)) % 2 ^ 64 = (-x.toInt) % 2 ^ 64 := Int.bmod_emod
  rw [wrapped] at value
  omega

theorem toNat_of_nonneg (nonneg : ¬ x < 0) : x.toUInt64.toNat = x.toInt.natAbs := by
  have above : ¬ x.toInt < 0 := fun below => nonneg (Int64.lt_iff_toInt_lt.mpr below)
  have value := toNat_toUInt64 x
  have below := Int64.toInt_lt x
  omega

theorem chars_reverse (digits : Digits) (base n : ℕ) :
    (chars digits (storedDigits base n)).reverse = (numeral base n).map (Piece.toUser digits) := by
  rw [chars, numeral, ← map_reverse, map_map]
  rfl

/-- The number that `printint` prints. -/
def printedInt (sign : Bool) (x : Int64) : ℤ := if sign then x.toInt else x.toUInt64.toNat

/-- The numeral fits the buffer, with the sign, which is stored last. -/
theorem intBuffer_eq (digits : Digits) {base : UInt64} (known : base = 10 ∨ base = 16) (x : Int64) (sign : Bool) :
    intBuffer digits x base sign = .ok (chars digits (storedDigits base.toNat (printedInt sign x).natAbs) ++
      if printedInt sign x < 0 then ['-'.toUInt8] else []) := by
  have big : 1 < base.toNat ∧ 2 ^ 63 < base.toNat ^ 19 ∧ 2 ^ 64 ≤ base.toNat ^ 20 := by
    rcases known with rfl | rfl <;> decide
  by_cases negative : sign = true ∧ x < 0
  · obtain ⟨rfl, below⟩ := negative
    have magnitude : (-x).toUInt64.toNat = (printedInt true x).natAbs := toNat_neg below
    have lower : -2 ^ 63 ≤ x.toInt := Int64.le_toInt x
    have sign : printedInt true x < 0 := Int64.lt_iff_toInt_lt.mp below
    have small : (-x).toUInt64.toNat < base.toNat ^ 19 := by
      rw [toNat_neg below]
      have : x.toInt < 0 := sign
      omega
    have stored := storeDigits_eq digits 19 big.1 ((-x).toUInt64.toNat_lt.trans_le big.2.2)
    have room : (chars digits (storedDigits base.toNat (-x).toUInt64.toNat)).length < bufSize := by
      rw [chars, length_map]
      exact Nat.lt_succ_of_le (length_storedDigits_le big.1 (by decide) small)
    rw [← magnitude, if_pos sign]
    simp only [intBuffer, below, and_self, if_true, bufSize, stored]
    change (if _ < bufSize then _ else _) = _
    rw [if_pos room]
    rfl
  · have magnitude : x.toUInt64.toNat = (printedInt sign x).natAbs ∧ ¬printedInt sign x < 0 := by
      cases sign with
      | false => exact ⟨rfl, Int.not_lt.mpr (Int.natCast_nonneg _)⟩
      | true =>
        have above : ¬x < 0 := fun below => negative ⟨rfl, below⟩
        exact ⟨toNat_of_nonneg above, fun below => above (Int64.lt_iff_toInt_lt.mpr below)⟩
    have stored := storeDigits_eq digits 19 big.1 (x.toUInt64.toNat_lt.trans_le big.2.2)
    rw [← magnitude.1, if_neg magnitude.2, append_nil]
    simp only [intBuffer, negative, if_false, bufSize, stored]
    rfl

theorem ptrDigits_eq (digits : Digits) (n : ℕ) (x : UInt64) :
    ptrDigits digits n x = (range n).map fun i => digits.get (index (x.toNat * 16 ^ i % 2 ^ 64 / 2 ^ 60)) := by
  induction n generalizing x with
  | zero => rfl
  | succ n ih =>
    have top : (x >>> 60).toNat = x.toNat * 16 ^ 0 % 2 ^ 64 / 2 ^ 60 := by
      rw [Nat.pow_zero, Nat.mul_one, Nat.mod_eq_of_lt x.toNat_lt, UInt64.toNat_shiftRight, Nat.shiftRight_eq_div_pow]
      rfl
    have shifted : (x <<< 4).toNat = x.toNat * 16 % 2 ^ 64 := by
      rw [UInt64.toNat_shiftLeft, Nat.shiftLeft_eq]
      rfl
    rw [ptrDigits, ih, range_succ_eq_map, map_cons, map_map, top]
    refine congrArg (_ :: ·) (map_congr_left fun i _ => ?_)
    have power : 16 ^ i.succ = 16 * 16 ^ i := Nat.pow_succ'
    rw [Function.comp_apply, shifted, power, ← Nat.mul_assoc, Nat.mod_mul_mod]

theorem shifted_digit (n : ℕ) {i : ℕ} (inside : i < 16) : n * 16 ^ i % 2 ^ 64 / 2 ^ 60 = n / 16 ^ (15 - i) % 16 := by
  have whole : 2 ^ 64 = 16 ^ i * (16 ^ (15 - i) * 16) := by
    rw [← Nat.pow_succ, ← Nat.pow_add, show i + (15 - i).succ = 16 by omega]
    rfl
  have top : 2 ^ 60 = 16 ^ i * 16 ^ (15 - i) := by
    rw [← Nat.pow_add, show i + (15 - i) = 15 by omega]
    rfl
  rw [whole, top, Nat.mul_comm n, Nat.mul_mod_mul_left, Nat.mul_div_mul_left _ _ (Nat.pow_pos (by decide)),
    Nat.mod_mul_right_div_self]

theorem ptrDigits_address (digits : Digits) (x : UInt64) :
    ptrDigits digits 16 x = (address x.toNat).map (Piece.toUser digits) := by
  rw [ptrDigits_eq, address, map_map]
  refine map_congr_left fun i listed => ?_
  rw [shifted_digit x.toNat (mem_range.mp listed)]
  refine congrArg digits.get (Fin.ext ?_)
  exact Nat.mod_mod _ _

/-! ### Conversions -/

/-- The tests on three characters for a keyword. -/
def Tests (c0 c1 c2 : UInt8) : List UInt8 → Prop
  | [a] => c0 = a
  | [a, b] => c0 = a ∧ c1 = b
  | [a, b, c] => c0 = a ∧ c1 = b ∧ c2 = c
  | _ => False

theorem isPrefixOf_iff {c0 : UInt8} {rest keyword : List UInt8} (plain : keyword.length ∈ [1, 2, 3] ∧ 0 ∉ keyword) :
    keyword.isPrefixOf (c0 :: rest) = true ↔ Tests c0 (rest.getD 0 0) (rest.getD 1 0) keyword := by
  have head {b : UInt8} {bs l : List UInt8} (proper : 0 ≠ b) :
      (b :: bs).isPrefixOf l = true ↔ l.getD 0 0 = b ∧ bs.isPrefixOf l.tail = true := by
    cases l with
    | nil => simpa using fun same => absurd same proper
    | cons c l =>
      rw [isPrefixOf, Bool.and_eq_true, beq_iff_eq, eq_comm]
      rfl
  obtain ⟨size, proper⟩ := plain
  rcases keyword with _ | ⟨a, _ | ⟨b, _ | ⟨c, _ | ⟨d, keyword⟩⟩⟩⟩
  · simp at size
  · rw [head (by simpa using proper)]
    simp [Tests]
  · simp only [mem_cons, not_or] at proper
    rw [head proper.1, tail_cons, head proper.2.1]
    simp [Tests]
  · simp only [mem_cons, not_or] at proper
    rw [head proper.1, tail_cons, head proper.2.1, head proper.2.2.1]
    cases rest <;> simp [Tests]
  · simp at size

/-- The search for a keyword in step with a chain of tests. -/
theorem find?_step {α : Type} {keyword s : List UInt8} {entries : List (List UInt8 × Conv)} {q : Prop} [Decidable q]
    {f : Option (List UInt8 × Conv) → α} {a b : α} (holds : keyword.isPrefixOf s = true ↔ q)
    (pos : f (some (keyword, conv)) = a) (neg : f (entries.find? fun entry => entry.1.isPrefixOf s) = b) :
    f (((keyword, conv) :: entries).find? fun entry => entry.1.isPrefixOf s) = if q then a else b := by
  split
  · next here => exact (congrArg f (find?_cons_of_pos (holds.mpr here))).trans pos
  · next other => exact (congrArg f (find?_cons_of_neg fun here => other (holds.mp here))).trans neg

/-- The output of a conversion in the characters of one of the programs. -/
def Conv.rendered {β γ : Type} (conv : Conv) (render : Piece → β) (args : List Arg) (more : γ) :
    Except Fault (List β × List Arg × γ) :=
  match conv.print args with
  | some (out, args) => .ok (out.map render, args, more)
  | none => .error .vaArg

theorem str_conversion {β γ : Type} {f : List UInt8 → List β} {render : Piece → β}
    (each : ∀ s, (s.map .byte).map render = f s) (args : List Arg) (more : γ) : Conv.str.rendered render args more =
      do let (s, args) ← vaStr args; return (f (bytes (s.getD (ascii "(null)"))), args, more) := by
  rcases args with _ | ⟨w | s, args⟩
  · rfl
  · rfl
  · exact congrArg (fun out => Except.ok (out, args, more)) (each _)

/-- What a program does with a number: a `printint` and a `printptr`, or the number is a character. -/
def Conv.number {β : Type} (render : Piece → β) (int : Int64 → UInt64 → Bool → Except Fault (List β))
    (ptr : UInt64 → List β) (w : UInt64) : Conv → Except Fault (List β)
  | .int => int w.toUInt32.toInt32.toInt64 10 true
  | .long => int w.toInt64 10 true
  | .uint => int w.toUInt32.toUInt64.toInt64 10 false
  | .ulong => int w.toInt64 10 false
  | .hex => int w.toUInt32.toUInt64.toInt64 16 false
  | .lhex => int w.toInt64 16 false
  | .ptr => .ok (ptr w)
  | .char => .ok [render (.char w.toUInt32)]
  | _ => .error .vaArg

/-- A program prints numerals, in its characters. -/
structure Numerals {β : Type} (render : Piece → β) (int : Int64 → UInt64 → Bool → Except Fault (List β))
    (ptr : UInt64 → List β) : Prop where
  signed (x : Int64) : int x 10 true = .ok ((signedNumeral x.toInt).map render)
  unsigned {base : UInt64} (known : base = 10 ∨ base = 16) (x : UInt64) :
    int x.toInt64 base false = .ok ((numeral base.toNat x.toNat).map render)
  pointer (x : UInt64) : ptr x = ((ascii "0x").map Piece.byte ++ address x.toNat).map render

section

variable {β γ : Type} {render : Piece → β} {int : Int64 → UInt64 → Bool → Except Fault (List β)}
  {ptr : UInt64 → List β} (numerals : Numerals render int ptr)
include numerals

theorem Numerals.number (takes : (conv.ofWord 0).isSome) (w : UInt64) :
    ∃ out, conv.ofWord w = some out ∧ conv.number render int ptr w = .ok (out.map render) := by
  have narrow {base : UInt64} (known : base = 10 ∨ base = 16) (x : UInt32) :
      int x.toUInt64.toInt64 base false = .ok ((numeral base.toNat x.toNat).map render) := by
    rw [numerals.unsigned known, UInt32.toNat_toUInt64]
  cases conv with
  | int => exact ⟨_, rfl, (numerals.signed _).trans (by rw [Int32.toInt_toInt64])⟩
  | long => exact ⟨_, rfl, numerals.signed _⟩
  | uint => exact ⟨_, rfl, narrow (.inl rfl) _⟩
  | ulong => exact ⟨_, rfl, numerals.unsigned (.inl rfl) _⟩
  | hex => exact ⟨_, rfl, narrow (.inr rfl) _⟩
  | lhex => exact ⟨_, rfl, numerals.unsigned (.inr rfl) _⟩
  | ptr => exact ⟨_, rfl, congrArg Except.ok (numerals.pointer w)⟩
  | char => exact ⟨_, rfl, rfl⟩
  | str | percent => cases takes

theorem Numerals.conversion (args : List Arg) (more : γ) (takes : (conv.ofWord 0).isSome) :
    conv.rendered render args more =
      do let (w, args) ← vaWord args; return (← conv.number render int ptr w, args, more) := by
  rcases args with _ | ⟨w | s, args⟩
  · cases conv <;> first | rfl | cases takes
  · obtain ⟨out, taken, prints⟩ := numerals.number takes w
    have printed : conv.print (.word w :: args) = some (out, args) := by
      cases conv <;> first | cases taken; done | simp only [Conv.print, taken, Option.map_some]
    change _ = conv.number render int ptr w >>= fun out => pure (out, args, more)
    rw [Conv.rendered, printed, prints]
    rfl
  · cases conv <;> first | rfl | cases takes

end

/-- What the keyword that was found stands for, with how far the index moves on; `%` and `c0` if there is none. -/
def converted {β γ : Type} (render : Piece → β) (more : ℕ → γ) (c0 : UInt8) (args : List Arg) :
    Option (List UInt8 × Conv) → Except Fault (List β × List Arg × γ)
  | some (keyword, conv) => conv.rendered render args (more (keyword.length - 1))
  | none => .ok ([.byte '%'.toUInt8, .byte c0].map render, args, more 0)

namespace User

theorem numerals (digits : Digits) : Numerals (Piece.toUser digits) (printint digits) (printptr digits) where
  signed x := by
    rw [printint, intBuffer_eq digits (.inl rfl), signedNumeral, map_append, ← chars_reverse]
    change Except.ok _ = _
    rw [reverse_append, show printedInt true x = x.toInt from rfl]
    split <;> rfl
  unsigned known x := by
    have nonneg : ¬printedInt false x.toInt64 < 0 := Int.not_lt.mpr (Int.natCast_nonneg _)
    rw [printint, intBuffer_eq digits known, if_neg nonneg, append_nil, ← chars_reverse]
    rfl
  pointer x := by
    rw [printptr, ptrDigits_address, map_append, map_map]
    rfl

/-- The conversions of `vprintf` are those of the table. -/
theorem convert_eq (digits : Digits) (c0 : UInt8) (rest : List UInt8) (args : List Arg) :
    converted (Piece.toUser digits) id c0 args (conversion? (c0 :: rest)) =
      convert digits c0 (rest.getD 0 0) (rest.getD 1 0) args := by
  unfold conversion? conversions convert
  iterate 11 refine find?_step (isPrefixOf_iff (by decide)) ((numerals digits).conversion args _ rfl) ?_
  refine find?_step (isPrefixOf_iff (by decide)) ?_ (find?_step (isPrefixOf_iff (by decide)) rfl rfl)
  exact str_conversion (f := id) (fun s => by rw [map_map]; exact map_id s) args _

end User

namespace Kernel

section

variable (digits : Digits)
include digits

theorem printint_eq (x : Int64) (base : UInt64) (sign : Bool) :
    printint digits x base sign = (User.printint digits x base sign).map fun out => out.map UInt8.toUInt32 := by
  rw [printint, User.printint]
  cases intBuffer digits x base sign <;> rfl

theorem toUser_numeral (base n : ℕ) :
    ((numeral base n).map (Piece.toUser digits)).map UInt8.toUInt32 = (numeral base n).map (Piece.toKernel digits) := by
  rw [numeral, map_map, map_map, map_map]
  rfl

theorem toUser_signedNumeral (n : ℤ) :
    ((signedNumeral n).map (Piece.toUser digits)).map UInt8.toUInt32 =
    (signedNumeral n).map (Piece.toKernel digits) := by
  rw [signedNumeral, map_append, map_append, map_append, toUser_numeral]
  split <;> rfl

theorem numerals : Numerals (Piece.toKernel digits) (printint digits) (printptr digits) where
  signed x := by
    rw [printint_eq, (User.numerals digits).signed, ← toUser_signedNumeral]
    rfl
  unsigned known x := by
    rw [printint_eq, (User.numerals digits).unsigned known, ← toUser_numeral]
    rfl
  pointer x := by
    rw [printptr, ptrDigits_address, map_append, map_append, map_map, address, map_map, map_map, map_map]
    rfl

end

/-- The conversions of `printf` are those of the table. -/
theorem convert_eq (digits : Digits) {c0 : UInt8} (proper : c0 ≠ 0) (rest : List UInt8) (args : List Arg) :
    converted (Piece.toKernel digits) some c0 args (conversion? (c0 :: rest)) =
      convert digits c0 (rest.getD 0 0) (rest.getD 1 0) args := by
  unfold conversion? conversions convert
  iterate 11 refine find?_step (isPrefixOf_iff (by decide)) ((numerals digits).conversion args _ rfl) ?_
  refine find?_step (isPrefixOf_iff (by decide)) ?_ (find?_step (isPrefixOf_iff (by decide)) rfl ?_)
  · exact str_conversion (f := map UInt8.toUInt32) (fun s => by rw [map_map]; rfl) args _
  · rw [if_neg proper]
    rfl

end Kernel

/-! ### Loops -/

section Scan

variable {fmt rest : List UInt8} {c : UInt8} {i : ℕ}

theorem bytes_cons (c : UInt8) (rest : List UInt8) : bytes (c :: rest) = if c = 0 then [] else c :: bytes rest := by
  rw [bytes, takeWhile_cons]
  split <;> simp_all [bytes]

theorem charAt_eq (fmt : List UInt8) (i : ℕ) : charAt fmt i = (bytes (fmt.drop i)).getD 0 0 := by
  cases left : fmt.drop i with
  | nil =>
    have past : fmt.length ≤ i := drop_eq_nil_iff.mp left
    rw [charAt, getD_eq_getElem?_getD, getElem?_eq_none past]
    rfl
  | cons c rest =>
    have here : charAt fmt i = c := by
      have first := congrArg (·[0]?) left
      simp only [getElem?_drop, Nat.add_zero, getElem?_cons_zero] at first
      rw [charAt, getD_eq_getElem?_getD, first]
      rfl
    rw [here, bytes_cons]
    split
    · next nul => exact nul
    · rfl

theorem bytes_drop_succ (left : bytes (fmt.drop i) = c :: rest) : c ≠ 0 ∧ bytes (fmt.drop (i + 1)) = rest := by
  cases whole : fmt.drop i with
  | nil =>
    rw [whole] at left
    cases left
  | cons d tail =>
    rw [whole, bytes_cons] at left
    split at left
    · cases left
    · next proper =>
      obtain ⟨rfl, rfl⟩ := List.cons.inj left
      have next : fmt.drop (i + 1) = tail := by rw [← drop_drop, whole, drop_one, tail_cons]
      exact ⟨proper, congrArg bytes next⟩

theorem bytes_drop_add {n : ℕ} (left : bytes (fmt.drop i) = rest) (inside : n ≤ rest.length) :
    bytes (fmt.drop (i + n)) = rest.drop n := by
  induction n generalizing i rest with
  | zero => exact left
  | succ n ih =>
    cases rest with
    | nil => cases inside
    | cons c rest =>
      have next := (bytes_drop_succ left).2
      rw [show i + (n + 1) = i + 1 + n by omega]
      exact ih next (Nat.le_of_succ_le_succ inside)

theorem lookahead (left : bytes (fmt.drop i) = c :: rest) :
    charAt fmt i = c ∧ (if c ≠ 0 then charAt fmt (i + 1) else 0) = rest.getD 0 0 ∧
      (if rest.getD 0 0 ≠ 0 then charAt fmt (i + 2) else 0) = rest.getD 1 0 := by
  obtain ⟨proper, next⟩ := bytes_drop_succ left
  refine ⟨?_, ?_, ?_⟩
  · rw [charAt_eq, left]
    rfl
  · rw [if_pos proper, charAt_eq, next]
  · cases rest with
    | nil => exact if_neg (not_not.mpr rfl)
    | cons d rest =>
      obtain ⟨proper, next⟩ := bytes_drop_succ next
      change (if d ≠ 0 then _ else _) = rest.getD 0 0
      rw [if_pos proper, charAt_eq, next]

theorem directives_byte (other : c ≠ '%'.toUInt8) : directives 0 (c :: rest) = .byte c :: directives 0 rest := by
  rw [directives.eq_def]
  exact if_pos other

variable {keyword : List UInt8} {conv : Conv}

theorem directives_conv (found : conversion? (c :: rest) = some (keyword, conv)) :
    directives 0 ('%'.toUInt8 :: c :: rest) = .conv conv :: directives (keyword.length - 1) rest := by
  rw [directives.eq_def]
  dsimp only
  rw [if_neg (by decide), found]

theorem directives_unknown (found : conversion? (c :: rest) = none) :
    directives 0 ('%'.toUInt8 :: c :: rest) = .unknown c :: directives 0 rest := by
  rw [directives.eq_def]
  dsimp only
  rw [if_neg (by decide), found]

theorem directives_skip (n : ℕ) (s : List UInt8) : directives n s = directives 0 (s.drop n) := by
  induction n generalizing s with
  | zero => rfl
  | succ n ih =>
    cases s with
    | nil => rfl
    | cons c s => exact ih s

theorem conversion?_some {s : List UInt8} (found : conversion? s = some (keyword, conv)) :
    keyword.length ≤ s.length ∧ 0 < keyword.length := by
  have starts : keyword.isPrefixOf s = true := by simpa using find?_some found
  have listed := mem_of_find?_eq_some found
  refine ⟨(List.isPrefixOf_iff_prefix.mp starts).length_le, ?_⟩
  have all : conversions.all fun entry => decide (0 < entry.1.length) := by decide
  simpa using all_eq_true.mp all _ listed

/-- A list of pieces in the characters of one of the programs. -/
def rendering {β : Type} (render : Piece → β) : Option (List Piece) → Except Fault (List β)
  | some out => .ok (out.map render)
  | none => .error .vaArg

theorem rendering_append {β : Type} (render : Piece → β) (out : List Piece) (printed : Option (List Piece)) :
    (rendering render printed >>= fun rest => pure (out.map render ++ rest)) =
    rendering render (printed.map (out ++ ·)) := by
  cases printed with
  | none => rfl
  | some rest => exact congrArg Except.ok map_append.symm

/-- A round goes on behind the keyword. -/
theorem converted_bind {β γ : Type} {render : Piece → β} {args : List Arg} {more : ℕ → γ}
    {loop : List β × List Arg × γ → Except Fault (List β)} (next : bytes (fmt.drop (i + 1)) = rest)
    (onward : ∀ n out args, bytes (fmt.drop (i + n + 1)) = rest.drop n → loop (out, args, more n) =
      rendering render (print (directives 0 (rest.drop n)) args) >>= fun rest => pure (out ++ rest)) :
    (converted render more c args (conversion? (c :: rest)) >>= loop) =
      rendering render (print (directives 0 ('%'.toUInt8 :: c :: rest)) args) := by
  have behind {n : ℕ} (inside : n ≤ rest.length) : bytes (fmt.drop (i + n + 1)) = rest.drop n := by
    rw [Nat.add_right_comm]
    exact bytes_drop_add next inside
  cases found : conversion? (c :: rest) with
  | none =>
    rw [directives_unknown found, print, ← rendering_append]
    exact onward 0 _ args (behind (Nat.zero_le _))
  | some entry =>
    obtain ⟨short, some⟩ := conversion?_some found
    rw [length_cons] at short
    rw [directives_conv found, directives_skip, print, converted, Conv.rendered]
    cases entry.2.print args with
    | none => rfl
    | some result =>
      change loop (result.1.map render, result.2, more _) = _
      rw [onward _ _ _ (behind (by omega)), rendering_append]
      rfl

end Scan

namespace User

variable {digits : Digits} {fmt : List UInt8}

/-- From state `0` and from state `%`, with the characters that are left. -/
theorem vprintfLoop_eq (fuel i : ℕ) (args : List Arg) (enough : (bytes (fmt.drop i)).length < fuel) :
    vprintfLoop digits fmt fuel i 0 args =
      rendering (Piece.toUser digits) (print (directives 0 (bytes (fmt.drop i))) args) ∧
    vprintfLoop digits fmt fuel i '%'.toUInt8 args =
      rendering (Piece.toUser digits) (print (directives 0 ('%'.toUInt8 :: bytes (fmt.drop i))) args) := by
  induction fuel generalizing i args with
  | zero => cases enough
  | succ fuel ih =>
    cases left : bytes (fmt.drop i) with
    | nil =>
      have nul : charAt fmt i = 0 := by rw [charAt_eq, left]; rfl
      constructor <;> rw [vprintfLoop, nul, if_pos rfl] <;> rfl
    | cons c rest =>
      obtain ⟨proper, next⟩ := bytes_drop_succ left
      obtain ⟨here, first, second⟩ := lookahead left
      rw [left, length_cons] at enough
      have onward := ih (i + 1) args (by rw [next]; omega)
      rw [next] at onward
      constructor
      · rw [vprintfLoop, here, if_neg proper, if_pos rfl]
        by_cases percent : c = '%'.toUInt8
        · rw [if_pos percent, onward.2, percent]
        · rw [if_neg percent, onward.1, directives_byte percent, print]
          exact rendering_append (Piece.toUser digits) [.byte c] _
      · rw [vprintfLoop, here, if_neg proper, if_neg (by decide), if_pos rfl]
        dsimp only
        rw [first, second, ← convert_eq]
        refine converted_bind next fun n out args behind => ?_
        dsimp only [id]
        rw [(ih _ args (by rw [behind, length_drop]; omega)).1, behind]

theorem vprintf_eq (fmt : List UInt8) (args : List Arg) :
    vprintf fmt args = rendering (Piece.toUser userDigits) (output fmt args) := by
  have short : (bytes fmt).length ≤ fmt.length := (takeWhile_sublist _).length_le
  exact (vprintfLoop_eq (fmt.length + 1) 0 args (Nat.lt_succ_of_le short)).1

end User

namespace Kernel

variable {digits : Digits} {fmt : List UInt8}

theorem printfLoop_eq (fuel i : ℕ) (args : List Arg) (enough : (bytes (fmt.drop i)).length < fuel) :
    printfLoop digits fmt fuel i args =
      rendering (Piece.toKernel digits) (print (directives 0 (bytes (fmt.drop i))) args) := by
  induction fuel generalizing i args with
  | zero => cases enough
  | succ fuel ih =>
    cases left : bytes (fmt.drop i) with
    | nil =>
      have nul : charAt fmt i = 0 := by rw [charAt_eq, left]; rfl
      rw [printfLoop, nul, if_pos rfl]
      rfl
    | cons cx rest =>
      obtain ⟨proper, next⟩ := bytes_drop_succ left
      obtain ⟨here, -⟩ := lookahead left
      rw [left, length_cons] at enough
      rw [printfLoop, here, if_neg proper]
      by_cases percent : cx = '%'.toUInt8
      · rw [if_neg (not_not.mpr percent), percent]
        dsimp only
        cases rest with
        | nil =>
          -- a `%` at the end: the next character is the terminator, and the loop ends
          have nul : charAt fmt (i + 1) = 0 := by rw [charAt_eq, next]; rfl
          rw [nul]
          rfl
        | cons c rest =>
          obtain ⟨proper, later⟩ := bytes_drop_succ next
          obtain ⟨here, first, second⟩ := lookahead next
          rw [here, first, second, ← convert_eq digits proper]
          rw [length_cons] at enough
          refine converted_bind later fun n out args behind => ?_
          dsimp only
          rw [ih _ args (by rw [behind, length_drop]; omega), behind]
      · rw [if_pos percent, ih (i + 1) args (by rw [next]; omega), next, directives_byte percent, print]
        exact rendering_append (Piece.toKernel digits) [.byte cx] _

theorem printf_eq (fmt : List UInt8) (args : List Arg) :
    printf fmt args = rendering (Piece.toKernel kernelDigits) (output fmt args) := by
  have short : (bytes fmt).length ≤ fmt.length := (takeWhile_sublist _).length_le
  exact printfLoop_eq (fmt.length + 1) 0 args (Nat.lt_succ_of_le short)

end Kernel

end Xv6.Printf
