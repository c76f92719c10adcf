import Xv6.Model.User.Grep

/-! # The matcher of `grep`

`matchhere` and `matchstar` decide whether a text begins with a string of the language of a pattern, and `match` tries
all places where such a string may begin, or the first one for a `^`.
-/

namespace Xv6.Grep

open scoped Computability

variable {c d : UInt8} {re text : List UInt8}

theorem mem_kstar_single {w : List UInt8} : w ∈ (single c)∗ ↔ ∀ t ∈ w, Accepts c t := by
  rw [Language.mem_kstar]
  constructor
  · rintro ⟨pieces, rfl, each⟩ t listed
    obtain ⟨piece, member, inside⟩ := List.mem_flatten.mp listed
    obtain ⟨u, accepts, rfl⟩ := each piece member
    rwa [List.mem_singleton.mp inside]
  · intro all
    refine ⟨w.map fun t => [t], ?_, ?_⟩
    · induction w with
      | nil => rfl
      | cons t w ih =>
        rw [List.map_cons, List.flatten_cons, ← ih fun u listed => all u (List.mem_cons_of_mem t listed)]
        rfl
    · intro piece member
      obtain ⟨t, listed, rfl⟩ := List.mem_map.mp member
      exact ⟨t, all t listed, rfl⟩

theorem accepts_iff {t : UInt8} : (t = c || c = '.'.toUInt8) = true ↔ Accepts c t := by
  rw [Bool.or_eq_true, decide_eq_true_iff, decide_eq_true_iff, Accepts, or_comm, eq_comm (a := t)]

/-- The loop of `matchstar` tries the rest of the pattern behind any number of accepted characters. -/
theorem starLoop_iff (here : List UInt8 → Bool) :
    starLoop c here text = true ↔ ∃ w rest, text = w ++ rest ∧ (∀ t ∈ w, Accepts c t) ∧ here rest = true := by
  induction text with
  | nil =>
    constructor
    · intro found
      exact ⟨[], [], rfl, List.forall_mem_nil _, found⟩
    · rintro ⟨w, rest, split, -, found⟩
      obtain ⟨rfl, rfl⟩ := List.append_eq_nil_iff.mp split.symm
      exact found
  | cons t text ih =>
    rw [starLoop, Bool.or_eq_true, Bool.and_eq_true, accepts_iff, ih]
    constructor
    · rintro (found | ⟨accepts, w, rest, rfl, all, found⟩)
      · exact ⟨[], t :: text, rfl, List.forall_mem_nil _, found⟩
      · refine ⟨t :: w, rest, rfl, ?_, found⟩
        rintro u (_ | ⟨_, listed⟩)
        · exact accepts
        · exact all u listed
    · rintro ⟨w, rest, split, all, found⟩
      cases w with
      | nil =>
        rw [List.nil_append] at split
        exact .inl (split ▸ found)
      | cons u w =>
        obtain ⟨rfl, rfl⟩ := List.cons.inj split
        exact .inr ⟨all t List.mem_cons_self, w, rest, rfl,
          fun v listed => all v (List.mem_cons_of_mem t listed), found⟩

theorem matchesAt_nil : MatchesAt [] text := ⟨[], text, rfl, rfl, fun no => nomatch no⟩

theorem matchesAt_end : MatchesAt ['$'.toUInt8] text ↔ text = [] := by
  constructor
  · rintro ⟨found, after, rfl, member, last⟩
    rw [last rfl]
    exact congrArg (· ++ []) (show found = [] from member)
  · rintro rfl
    exact ⟨[], [], rfl, rfl, fun _ => rfl⟩

theorem matchesAt_one (items : (body (c :: re)).1 = .one c :: (body re).1) (last : (body (c :: re)).2 = (body re).2) :
    MatchesAt (c :: re) text ↔ ∃ t rest, text = t :: rest ∧ Accepts c t ∧ MatchesAt re rest := by
  unfold MatchesAt
  rw [items, last, List.map_cons, List.prod_cons]
  constructor
  · rintro ⟨found, after, rfl, member, atEnd⟩
    obtain ⟨w, ⟨t, accepts, rfl⟩, found, inside, rfl⟩ := Language.mem_mul.mp member
    exact ⟨t, found ++ after, rfl, accepts, found, after, rfl, inside, atEnd⟩
  · rintro ⟨t, rest, rfl, accepts, found, after, rfl, inside, atEnd⟩
    exact ⟨t :: found, after, rfl, Language.mem_mul.mpr ⟨[t], ⟨t, accepts, rfl⟩, found, inside, rfl⟩, atEnd⟩

theorem matchesAt_star : MatchesAt (c :: '*'.toUInt8 :: re) text ↔
    ∃ w rest, text = w ++ rest ∧ (∀ t ∈ w, Accepts c t) ∧ MatchesAt re rest := by
  unfold MatchesAt
  rw [body, if_pos rfl, List.map_cons, List.prod_cons]
  constructor
  · rintro ⟨found, after, rfl, member, atEnd⟩
    obtain ⟨w, starred, found, inside, rfl⟩ := Language.mem_mul.mp member
    exact ⟨w, found ++ after, List.append_assoc .., mem_kstar_single.mp starred, found, after, rfl, inside, atEnd⟩
  · rintro ⟨w, rest, rfl, all, found, after, rfl, inside, atEnd⟩
    exact ⟨w ++ found, after, (List.append_assoc ..).symm,
      Language.mem_mul.mpr ⟨w, mem_kstar_single.mpr all, found, inside, rfl⟩, atEnd⟩

theorem matchhere_end (text : List UInt8) : matchhere ['$'.toUInt8] text = text.isEmpty := by
  rw [matchhere.eq_def]
  exact if_pos rfl

theorem matchhere_last (other : c ≠ '$'.toUInt8) :
    matchhere [c] text = true ↔ ∃ t rest, text = t :: rest ∧ Accepts c t := by
  rw [matchhere.eq_def]
  dsimp only
  rw [if_neg other]
  cases text with
  | nil => simp
  | cons t text => simp [Accepts]

theorem matchhere_star (c : UInt8) (re text : List UInt8) :
    matchhere (c :: '*'.toUInt8 :: re) text = matchstar c re text := by
  rw [matchhere.eq_def]
  exact if_pos rfl

theorem matchhere_one (other : d ≠ '*'.toUInt8) :
    matchhere (c :: d :: re) text = true ↔ ∃ t rest, text = t :: rest ∧ Accepts c t ∧
    matchhere (d :: re) rest = true := by
  rw [matchhere.eq_def]
  dsimp only
  rw [if_neg other]
  cases text with
  | nil => simp
  | cons t text => simp [Accepts]

theorem matchhere_iff (re text : List UInt8) : matchhere re text = true ↔ MatchesAt re text := by
  -- along the recursion of `matchhere` on the pattern
  induction re using body.induct generalizing text with
  | case1 => exact ⟨fun _ => matchesAt_nil, fun _ => rfl⟩
  | case2 => rw [matchesAt_end, matchhere_end, List.isEmpty_iff]
  | case3 c other =>
    have plain : body [c] = ([.one c], false) := if_neg other
    rw [matchhere_last other, matchesAt_one (by rw [plain]; rfl) (by rw [plain]; rfl)]
    simp only [matchesAt_nil, and_true]
  | case4 c re ih =>
    rw [matchhere_star, matchstar, starLoop_iff, matchesAt_star]
    simp only [ih]
  | case5 c d re other ih =>
    rw [matchhere_one other, matchesAt_one (by rw [body, if_neg other]) (by rw [body, if_neg other])]
    simp only [ih]

theorem matchLoop_iff : matchLoop re text = true ↔ ∃ before rest, text = before ++ rest ∧ MatchesAt re rest := by
  induction text with
  | nil =>
    rw [matchLoop, matchhere_iff]
    constructor
    · exact fun matched => ⟨[], [], rfl, matched⟩
    · rintro ⟨before, rest, split, matched⟩
      obtain ⟨rfl, rfl⟩ := List.append_eq_nil_iff.mp split.symm
      exact matched
  | cons t text ih =>
    rw [matchLoop, Bool.or_eq_true, matchhere_iff, ih]
    constructor
    · rintro (matched | ⟨before, rest, rfl, matched⟩)
      · exact ⟨[], t :: text, rfl, matched⟩
      · exact ⟨t :: before, rest, rfl, matched⟩
    · rintro ⟨before, rest, split, matched⟩
      cases before with
      | nil =>
        rw [List.nil_append] at split
        exact .inl (split ▸ matched)
      | cons u before =>
        obtain ⟨rfl, rfl⟩ := List.cons.inj split
        exact .inr ⟨before, rest, rfl, matched⟩

/-- `match` returns 1 exactly if some substring of the text matches. -/
theorem matchText_iff (re text : List UInt8) : matchText re text = true ↔ Matches re text := by
  have free {re : List UInt8} (other : re.head? ≠ some '^'.toUInt8) : matchLoop re text = true ↔ Matches re text := by
    rw [matchLoop_iff, Matches]
    simp only [other, false_implies, true_and, if_false]
  cases re with
  | nil => exact free (by simp)
  | cons c re =>
    rw [matchText]
    split
    · next anchor =>
      subst anchor
      rw [matchhere_iff, Matches]
      simp only [List.head?_cons, if_true, true_implies, List.tail_cons]
      constructor
      · exact fun matched => ⟨[], text, rfl, rfl, matched⟩
      · rintro ⟨before, rest, rfl, rfl, matched⟩
        exact matched
    · next other => exact free fun same => other (Option.some.inj same)

end Xv6.Grep
