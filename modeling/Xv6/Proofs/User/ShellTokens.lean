import Xv6.Machine.Descent
import Xv6.Model.User.ShellGrammar

/-! # The tokens that the parser sees

`gettoken` and `peek` over the bytes of a line, as a step and a look at its tokens.
-/

namespace Xv6.Shell

open Machine List

variable {text : Text} {s : ℕ} {c : UInt8} {ts : List Token}

/-- The position is in front of the tokens. -/
structure At (text : Text) (s : ℕ) (ts : List Token) : Prop where
  inside : s ≤ text.es
  tokens : tokenise s (text.bytes.drop s) = ts

section Bytes

theorem char_eq_zero_iff : text.char s = 0 ↔ text.es ≤ s := by
  unfold Text.char Text.es
  rw [getD_eq_getElem?_getD]
  by_cases inside : s < text.bytes.length
  · rw [getElem?_eq_getElem inside, Option.getD_some]
    refine ⟨fun zero => ?_, fun beyond => by omega⟩
    exact absurd (zero ▸ getElem_mem inside) text.string
  · simp [inside, Nat.not_lt.mp inside]

theorem drop_eq_cons (inside : s < text.es) : text.bytes.drop s = text.char s :: text.bytes.drop (s + 1) := by
  rw [drop_eq_getElem_cons inside, Text.char, getD_eq_getElem?_getD, getElem?_eq_getElem inside, Option.getD_some]

section

variable (p : UInt8 → Bool)
include p

theorem skip_eq (s : ℕ) : skip text p s = s + ((text.bytes.drop s).takeWhile p).length := by
  induction s using skip.induct text p with
  | case1 s more ih =>
    rw [skip, if_pos more, ih, drop_eq_cons more.1, takeWhile_cons, if_pos more.2, length_cons]
    omega
  | case2 s done =>
    rw [skip, if_neg done]
    by_cases inside : s < text.es
    · rw [drop_eq_cons inside, takeWhile_cons, if_neg (fun h => done ⟨inside, h⟩), length_nil, Nat.add_zero]
    · rw [drop_eq_nil_of_le (Nat.not_lt.mp inside), takeWhile_nil, length_nil, Nat.add_zero]

theorem skip_le (inside : s ≤ text.es) : skip text p s ≤ text.es := by
  rw [skip_eq]
  have := Sublist.length_le (takeWhile_sublist (l := text.bytes.drop s) p)
  rw [length_drop] at this
  unfold Text.es at inside ⊢
  omega

theorem le_skip (s : ℕ) : s ≤ skip text p s := by
  rw [skip_eq]
  exact Nat.le_add_right ..

theorem char_of_lt_skip {i : ℕ} (behind : s ≤ i) (passed : i < skip text p s) : p (text.char i) = true := by
  induction s using skip.induct text p with
  | case1 s more ih =>
    rw [skip, if_pos more] at passed
    rcases behind.eq_or_lt with rfl | later
    · exact more.2
    · exact ih later passed
  | case2 s done =>
    rw [skip, if_neg done] at passed
    omega

theorem not_char_skip (s : ℕ) (inside : skip text p s < text.es) : p (text.char (skip text p s)) = false := by
  induction s using skip.induct text p with
  | case1 s more ih =>
    rw [skip, if_pos more] at inside ⊢
    exact ih inside
  | case2 s done =>
    rw [skip, if_neg done] at inside ⊢
    simpa [inside] using done

end

end Bytes

theorem tokenise_skipWhitespace (s : ℕ) :
    tokenise (skipWhitespace text s) (text.bytes.drop (skipWhitespace text s)) = tokenise s (text.bytes.drop s) := by
  unfold skipWhitespace
  induction s using skip.induct text (strchr whitespace) with
  | case1 s more ih => rw [skip, if_pos more, ih, drop_eq_cons more.1, tokenise, if_pos more.2]
  | case2 s done => rw [skip, if_neg done]

theorem At.skipWhitespace (here : At text s ts) : At text (skipWhitespace text s) ts :=
  ⟨skip_le _ here.inside, (tokenise_skipWhitespace s).trans here.tokens⟩

/-- The byte that a token is known by; words have none. -/
def Token.first : Token → Option Char
  | .bar => some '|'
  | .lparen => some '('
  | .rparen => some ')'
  | .semi => some ';'
  | .amp => some '&'
  | .less => some '<'
  | .greater => some '>'
  | .append => some '>'
  | .word _ => none

/-- What `gettoken` returns for a token. -/
def Token.code : Token → UInt8
  | .append => '+'.toUInt8
  | .word _ => 'a'.toUInt8
  | .bar => '|'.toUInt8
  | .lparen => '('.toUInt8
  | .rparen => ')'.toUInt8
  | .semi => ';'.toUInt8
  | .amp => '&'.toUInt8
  | .less => '<'.toUInt8
  | .greater => '>'.toUInt8

theorem code_ne_zero (t : Token) : t.code ≠ 0 := by
  cases t <;> simp only [Token.code] <;> decide

section Scan

theorem oneByte_eq_some {t : Token} (found : oneByte c = some t) :
    strchr ['|', '(', ')', ';', '&', '<'] c = true ∧ t.code = c ∧ t.first.map Char.toUInt8 = some c ∧
      t.first.all (symbols.contains ·) = true := by
  unfold oneByte at found
  split_ifs at found with h h h h h h <;> cases found <;> subst h <;> decide

theorem oneByte_eq_none (absent : oneByte c = none) : strchr ['|', '(', ')', ';', '&', '<'] c = false := by
  unfold oneByte at absent
  split_ifs at absent with h₁ h₂ h₃ h₄ h₅ h₆
  simp [strchr, Ne.symm h₁, Ne.symm h₂, Ne.symm h₃, Ne.symm h₄, Ne.symm h₅, Ne.symm h₆]

theorem strchr_symbols_eq_false (single : strchr ['|', '(', ')', ';', '&', '<'] c = false) (other : c ≠ '>'.toUInt8) :
    strchr symbols c = false := by
  simp only [strchr, symbols, any_cons, any_nil, Bool.or_eq_false_iff, beq_eq_false_iff_ne] at single ⊢
  simp [single, Ne.symm other]

/-- The token at a position where one begins, and the position behind it. -/
structure Begins (text : Text) (q : ℕ) (t : Token) (e : ℕ) : Prop where
  scanned : scanToken text q = (t.code, e)
  tokens : tokenise q (text.bytes.drop q) = t :: tokenise e (text.bytes.drop e)
  inside : e ≤ text.es
  word : ∀ w, t = .word w → w = ⟨q, e⟩
  first : t.first.map Char.toUInt8 = some (text.char q) ∧ t.first.all (symbols.contains ·) = true ∨
    t.first = none ∧ strchr symbols (text.char q) = false

theorem begins_of_char {q : ℕ} (inside : q < text.es) (visible : strchr whitespace (text.char q) = false) :
    ∃ t e, Begins text q t e := by
  have nonzero : text.char q ≠ 0 := fun zero => Nat.not_lt.mpr (char_eq_zero_iff.mp zero) inside
  have bytes := drop_eq_cons inside
  have shown : ¬ strchr whitespace (text.char q) = true := by rw [visible]; decide
  by_cases greater : text.char q = '>'.toUInt8
  · have single : ¬ strchr ['|', '(', ')', ';', '&', '<'] (text.char q) = true := by rw [greater]; decide
    have first : (some '>').map Char.toUInt8 = some (text.char q) := by rw [greater]; rfl
    by_cases twice : text.char (q + 1) = '>'.toUInt8
    · have more : q + 1 < text.es := by
        by_contra beyond
        rw [char_eq_zero_iff.mpr (Nat.not_lt.mp beyond)] at twice
        exact absurd twice (by decide)
      have next := drop_eq_cons more
      refine ⟨.append, q + 2, ?_, ?_, more, by rintro _ ⟨⟩, .inl ⟨first, by decide⟩⟩
      · rw [scanToken, if_neg nonzero, if_neg single, if_pos greater, if_pos twice]
        rfl
      · rw [bytes, tokenise, if_neg shown, if_pos greater, next, twice, head?_cons, if_pos rfl, tail_cons]
    · refine ⟨.greater, q + 1, ?_, ?_, inside, by rintro _ ⟨⟩, .inl ⟨first, by decide⟩⟩
      · rw [scanToken, if_neg nonzero, if_neg single, if_pos greater, if_neg twice, greater]
        rfl
      · rw [bytes, tokenise, if_neg shown, if_pos greater, if_neg]
        intro head
        refine twice ?_
        rw [Text.char, getD_eq_getElem?_getD, ← head?_drop, head, Option.getD_some]
  · cases found : oneByte (text.char q) with
    | some t =>
      obtain ⟨single, code, first, listed⟩ := oneByte_eq_some found
      refine ⟨t, q + 1, ?_, ?_, inside, fun w is => (by rw [is] at first; cases first), .inl ⟨first, listed⟩⟩
      · rw [scanToken, if_neg nonzero, if_pos single, code]
      · rw [bytes, tokenise, if_neg shown, if_neg greater, found]
    | none =>
      have single := oneByte_eq_none found
      have plain := strchr_symbols_eq_false single greater
      have wordy : wordByte (text.char q) = true := by simp [wordByte, visible, plain]
      have stop : skip text wordByte q = q + 1 + ((text.bytes.drop (q + 1)).takeWhile wordByte).length := by
        rw [skip_eq, bytes, takeWhile_cons, if_pos wordy, length_cons]
        omega
      refine ⟨.word ⟨q, skip text wordByte q⟩, skip text wordByte q, ?_, ?_, skip_le _ inside.le, by rintro _ ⟨⟩; rfl,
        .inr ⟨rfl, plain⟩⟩
      · rw [scanToken, if_neg nonzero, if_neg (by rw [single]; decide), if_neg greater]
        rfl
      · rw [stop, bytes, tokenise, if_neg shown, if_neg greater, found]
        simp only [drop_drop]

end Scan

section Steps

variable {fails : Fault → Prop} {toks : List Char}

theorem skipWhitespace_eq_es_iff (here : At text s ts) : skipWhitespace text s = text.es ↔ ts = [] := by
  have next := here.skipWhitespace
  constructor
  · intro stop
    have nothing : text.bytes.drop text.es = [] := drop_eq_nil_of_le le_rfl
    rw [← next.tokens, stop, nothing, tokenise]
  · rintro rfl
    by_contra other
    have inside : skipWhitespace text s < text.es := Nat.lt_of_le_of_ne next.inside other
    obtain ⟨t, e, begins⟩ := begins_of_char inside (not_char_skip _ s inside)
    have both := begins.tokens.symm.trans next.tokens
    cases both

theorem begins_of_cons {t : Token} (here : At text s (t :: ts)) :
    ∃ e, Begins text (skipWhitespace text s) t e ∧ At text e ts := by
  have next := here.skipWhitespace
  have inside : skipWhitespace text s < text.es := by
    refine Nat.lt_of_le_of_ne next.inside fun stop => ?_
    cases (skipWhitespace_eq_es_iff here).mp stop
  obtain ⟨t', e, begins⟩ := begins_of_char inside (not_char_skip _ s inside)
  obtain ⟨rfl, rest⟩ := cons.inj (begins.tokens.symm.trans next.tokens)
  exact ⟨e, begins, begins.inside, rest⟩

theorem gettoken_cons {t : Token} (here : At text s (t :: ts)) :
    Ensures (gettoken text) s (fun r s' => r.1 = t.code ∧ (∀ w, t = .word w → r.2 = w) ∧ At text s' ts) fails := by
  obtain ⟨e, begins, there⟩ := begins_of_cons here
  refine .modifyGet ?_
  simp only [begins.scanned]
  exact ⟨trivial, fun w is => (begins.word w is).symm, there.skipWhitespace⟩

theorem gettoken_nil (here : At text s []) : Ensures (gettoken text) s (fun r s' => r.1 = 0 ∧ At text s' []) fails := by
  have stop := (skipWhitespace_eq_es_iff here).mpr rfl
  have zero : text.char text.es = 0 := char_eq_zero_iff.mpr le_rfl
  have scanned : scanToken text text.es = (0, text.es) := by rw [scanToken, if_pos zero, zero]
  refine .modifyGet ?_
  simp only [stop, scanned]
  exact ⟨trivial, (stop ▸ here.skipWhitespace).skipWhitespace⟩

/-- The first token is a symbol in the set. -/
def starts (toks : List Char) (ts : List Token) : Bool := (ts.head?.bind Token.first).any (toks.contains ·)

section

variable (known : toks.all (symbols.contains ·) = true)
include known

theorem strchr_eq_contains {d : Char} (listed : symbols.contains d = true) :
    strchr toks d.toUInt8 = toks.contains d := by
  have injective : symbols.all (fun a => symbols.all fun b => a.toUInt8 != b.toUInt8 || a == b) = true := by decide
  simp only [all_eq_true, Bool.or_eq_true, bne_iff_ne, beq_iff_eq] at injective
  rw [all_eq_true] at known
  rw [Bool.eq_iff_iff, strchr, any_eq_true, contains_iff_mem]
  constructor
  · rintro ⟨a, member, same⟩
    have symbol := contains_iff_mem.mp (known a member)
    rw [← (injective a symbol d (contains_iff_mem.mp listed)).resolve_left (not_not.mpr (by simpa using same))]
    exact member
  · exact fun member => ⟨d, member, by simp⟩

theorem strchr_eq_false (plain : strchr symbols c = false) : strchr toks c = false := by
  rw [all_eq_true] at known
  rw [strchr, any_eq_false] at plain ⊢
  exact fun a member => plain a (contains_iff_mem.mp (known a member))

theorem peek_ensures (here : At text s ts) :
    Ensures (peek text toks) s (fun b s' => b = starts toks ts ∧ s' = skipWhitespace text s) fails := by
  refine .modifyGet ⟨?_, rfl⟩
  cases ts with
  | nil =>
    have stop := (skipWhitespace_eq_es_iff here).mpr rfl
    have zero : text.char text.es = 0 := char_eq_zero_iff.mpr le_rfl
    simp [stop, zero, starts]
  | cons t ts =>
    obtain ⟨e, begins, -⟩ := begins_of_cons here
    have nonzero : text.char (skipWhitespace text s) ≠ 0 := by
      intro zero
      have scanned := begins.scanned
      rw [scanToken, if_pos zero, zero] at scanned
      exact code_ne_zero t (Prod.mk.inj scanned).1.symm
    have shown : (text.char (skipWhitespace text s) != 0) = true := by simpa using nonzero
    simp only [shown, Bool.true_and, starts, head?_cons, Option.bind_some]
    rcases begins.first with ⟨same, listed⟩ | ⟨none, plain⟩
    · obtain ⟨d, first, byte⟩ := Option.map_eq_some_iff.mp same
      rw [first] at listed ⊢
      rw [← byte, strchr_eq_contains known listed]
      rfl
    · rw [none, strchr_eq_false known plain]
      rfl

end

end Steps

section Rules

variable {γ T : Type} {m₁ m₂ : Parser γ} {yield : T → List Token} {value : T → γ} {follow : List Token → Prop}
  {toks : List Char}

/-- Recognition at the positions of a text. -/
abbrev Parses (text : Text) (m : Parser γ) (ts : List Token) (yield : T → List Token) (value : T → γ)
    (follow : List Token → Prop) : Prop :=
  Recognises (At text) (· = Fault.outOfFuel) m ts yield value follow

theorem Parses.peek (known : toks.all (symbols.contains ·) = true)
    (pos : starts toks ts = true → Parses text m₁ ts yield value follow)
    (neg : starts toks ts = false → Parses text m₂ ts yield value follow) :
    Parses text (do if ← peek text toks then m₁ else m₂) ts yield value follow := by
  intro s here
  refine (peek_ensures known here).bind ?_
  rintro b s' ⟨rfl, rfl⟩
  cases first : starts toks ts with
  | true => exact pos first _ here.skipWhitespace
  | false => exact neg first _ here.skipWhitespace

theorem Parses.gettoken {t : Token} {k : UInt8 × Word → Parser γ}
    (rest : ∀ w, (∀ w', t = .word w' → w = w') → Parses text (k (t.code, w)) ts yield value follow) :
    Parses text (gettoken text >>= k) (t :: ts) (fun x => t :: yield x) value follow := by
  intro s here
  refine (gettoken_cons here).bind ?_
  rintro ⟨code, w⟩ s' ⟨rfl, word, there⟩
  refine ((rest w word s' there).allow fun e failed => ⟨failed.1, failed.2.cons t⟩).mono ?_
  rintro _ s'' ⟨x, after, reads, rfl, last⟩
  exact ⟨x, after, reads.cons t, rfl, last⟩

end Rules

end Xv6.Shell
