import Xv6.Model.User.Grep
import Xv6.Proofs.User.Ulib
import Xv6.ToMathlib.ListWords

/-! # `grep` and the boundaries of its reads

Between two calls of `read` the buffer holds the part of the current line that has been read. However the input is cut
into pieces, the lines that end in the buffer are those that end in the piece, and what is behind the last newline is
carried over. A line of at most 1022 bytes fits with its newline.
-/

namespace Xv6.Grep

open Ulib List Function

variable {pattern : List UInt8} {buf : Memory} {p : ℕ} {ls : List (List UInt8)} {r input : List UInt8}

/-- The newline. -/
abbrev nl : UInt8 := '\n'.toUInt8

/-- The lines that match, with their newlines. -/
def selected (pattern : List UInt8) (ls : List (List UInt8)) : List UInt8 := unlines nl (ls.filter (matchText pattern))

theorem report_unlines_append (plain : ∀ l ∈ ls, nl ∉ l) (input : List UInt8) :
    report pattern (unlines nl ls ++ input) = selected pattern ls ++ report pattern input := by
  have some : input.splitOn nl ≠ [] := splitOnP_ne_nil _ _
  rw [report, splitOn_unlines_append plain, dropLast_append_of_ne_nil some, filter_append, flatMap_append]
  rfl

theorem report_of_notMem (plain : nl ∉ input) : report pattern input = [] := by
  rw [report, splitOn_of_notMem plain]
  rfl

/-- The inner loop: every line that ends in the buffer is looked at once, and what is behind them stays as it is. -/
theorem lines_eq (pattern : List UInt8) (bound : ℕ) (plain : ∀ l ∈ ls, nl ∉ l) (last : nl ∉ r)
    (shows : Shows buf p (unlines nl ls ++ r))
    (proper : 0 ∉ unlines nl ls ++ r) (ends : buf (p + (unlines nl ls ++ r).length) = 0)
    (fits : (unlines nl ls ++ r).length < bufSize) (enough : ls.length < bound) :
    ∃ buf', lines pattern bound buf p = (buf', p + (unlines nl ls).length, selected pattern ls) ∧
      Shows buf' (p + (unlines nl ls).length) r := by
  induction ls generalizing buf p bound with
  | nil =>
    cases bound with
    | zero => cases enough
    | succ bound =>
      refine ⟨buf, ?_, shows⟩
      rw [lines, strchr_none shows proper last ends fits]
      rfl
  | cons l ls ih =>
    cases bound with
    | zero => cases enough
    | succ bound =>
      obtain ⟨first, others⟩ := forall_mem_cons.mp plain
      rw [unlines_cons, append_assoc, cons_append] at shows proper ends fits
      obtain ⟨clean, tail⟩ := not_or.mp (fun either => proper (mem_append.mpr either))
      obtain ⟨-, tail⟩ := not_or.mp (fun either => tail (mem_cons.mpr either))
      obtain ⟨here, behind⟩ := shows_append.mp shows
      obtain ⟨newline, behind⟩ := shows_cons.mp behind
      rw [length_append, length_cons] at ends fits
      have found : strchr buf nl bufSize p = some (p + l.length) := strchr_some shows clean first (by decide) (by omega)
      -- the line is a string once its newline is overwritten
      have text : string (update buf (p + l.length) 0) bufSize p = l := by
        refine string_eq (here.update (.inr le_rfl)) clean (update_self ..) (by omega)
      have place : p + (unlines nl (l :: ls)).length = p + l.length + 1 + (unlines nl ls).length := by
        rw [unlines_cons, length_append, length_cons]
        omega
      have enough : ls.length < bound := Nat.lt_of_succ_lt_succ enough
      have ends : buf (p + l.length + 1 + (unlines nl ls ++ r).length) = 0 := by
        rw [← ends]
        congr 1
        omega
      rw [lines, found]
      dsimp only
      rw [text, place]
      split
      · next matched =>
        have shown : Shows (update (update buf (p + l.length) 0) (p + l.length) nl) p (l ++ [nl]) :=
          shows_append.mpr ⟨(here.update (.inr le_rfl)).update (.inr le_rfl),
            shows_cons.mpr ⟨update_self .., shows_nil⟩⟩
        have written := slice_eq shown
        rw [length_append, length_singleton] at written
        have rest : Shows (update (update buf (p + l.length) 0) (p + l.length) nl) (p + l.length + 1)
            (unlines nl ls ++ r) := (behind.update (.inl (Nat.lt_succ_self _))).update (.inl (Nat.lt_succ_self _))
        obtain ⟨buf', ran, left⟩ := ih bound others rest tail
          (by rw [update_of_ne (by omega), update_of_ne (by omega), ends]) (by omega) enough
        refine ⟨buf', ?_, left⟩
        rw [ran, selected, selected, filter_cons_of_pos matched, unlines_cons,
          show p + l.length + 1 - p = l.length + 1 by omega]
        dsimp only
        rw [written, append_assoc]
        rfl
      · next other =>
        have rest : Shows (update buf (p + l.length) 0) (p + l.length + 1) (unlines nl ls ++ r) :=
          behind.update (.inl (Nat.lt_succ_self _))
        obtain ⟨buf', ran, left⟩ := ih bound others rest tail
          (by rw [update_of_ne (by omega), ends]) (by omega) enough
        refine ⟨buf', ?_, left⟩
        rw [ran, selected, selected, filter_cons_of_neg other]

theorem length_le_unlines (ls : List (List UInt8)) : ls.length ≤ (unlines nl ls).length := by
  induction ls with
  | nil => exact le_rfl
  | cons l ls ih =>
    rw [unlines_cons, length_append, length_cons, length_cons]
    omega

theorem short_rest (plain : ∀ l ∈ ls, nl ∉ l) (short : ∀ line ∈ ((unlines nl ls ++ input).splitOn nl).dropLast,
    line.length ≤ 1022) :
    (∀ line ∈ ls, line.length ≤ 1022) ∧ ∀ line ∈ (input.splitOn nl).dropLast, line.length ≤ 1022 := by
  have some : input.splitOn nl ≠ [] := splitOnP_ne_nil _ _
  rw [splitOn_unlines_append plain, dropLast_append_of_ne_nil some] at short
  exact forall_mem_append.mp short

/-- A full buffer without a newline: no line ends behind it. -/
theorem notMem_of_full {carry : List UInt8} (plain : nl ∉ carry) (full : 1023 ≤ carry.length)
    (short : ∀ line ∈ ((carry ++ input).splitOn nl).dropLast, line.length ≤ 1022) : nl ∉ carry ++ input := by
  obtain ⟨ls, r, split, lines, last⟩ := exists_unlines nl (carry ++ input)
  rw [split] at short ⊢
  cases ls with
  | nil => exact last
  | cons l ls =>
    -- the first line goes beyond the buffer
    have long : l.length ≤ 1022 := (short_rest lines short).1 l mem_cons_self
    have newline : (carry ++ input)[l.length]? = some nl := by
      rw [split, unlines_cons, append_assoc, getElem?_append_right le_rfl, Nat.sub_self]
      rfl
    rw [getElem?_append_left (by omega)] at newline
    exact absurd (mem_of_getElem? newline) plain

/-- The outer loop, with what is carried over from the pieces before. -/
theorem loop_eq {calls m : ℕ} {wants : ℕ → ℕ} (carry : List UInt8) (place : m = carry.length)
    (shows : Shows buf 0 carry)
    (plain : nl ∉ carry) (small : m < bufSize) (proper : 0 ∉ carry ++ input)
    (short : ∀ line ∈ ((carry ++ input).splitOn nl).dropLast, line.length ≤ 1022) (enough : input.length < calls) :
    loop pattern calls wants buf m input = report pattern (carry ++ input) := by
  induction calls generalizing wants buf m input carry with
  | zero => cases enough
  | succ calls ih =>
    have size : bufSize = 1024 := rfl
    rw [loop, read, splitAt_eq]
    generalize amount : min (max 1 (wants 0)) (bufSize - m - 1) = n
    dsimp only
    have cut : input.take n ++ input.drop n = input := take_append_drop n input
    have taken : (input.take n).length = min n input.length := length_take
    have left : (input.drop n).length = input.length - n := length_drop
    generalize input.take n = piece at cut taken ⊢
    generalize input.drop n = rest at cut left ⊢
    by_cases some : piece.length > 0
    · subst cut
      rw [if_pos some, if_pos (by omega)]
      obtain ⟨ls, r, data, lines, last⟩ := exists_unlines nl (carry ++ piece)
      rw [← append_assoc, data, append_assoc] at short proper
      rw [← append_assoc, data, append_assoc, report_unlines_append lines]
      have total : (unlines nl ls ++ r).length = m + piece.length := by rw [← data, length_append, place]
      have filled : Shows (update (store buf m piece) (m + piece.length) 0) 0 (unlines nl ls ++ r) := by
        rw [← data]
        refine Shows.update (shows_append.mpr ⟨shows.congr fun a _ inside => store_of_lt (by omega), ?_⟩) (.inr ?_)
        · rw [Nat.zero_add, ← place]
          exact shows_store _ _ _
        · rw [length_append, place, Nat.zero_add]
      have clean : 0 ∉ unlines nl ls ++ r := by
        rw [← append_assoc] at proper
        exact fun mem => proper (mem_append_left _ mem)
      have many := length_le_unlines ls
      rw [length_append] at total
      obtain ⟨buf', ran, kept⟩ := lines_eq pattern bufSize lines last filled clean
        (by rw [Nat.zero_add, length_append, total]; exact update_self ..) (by rw [length_append]; omega) (by omega)
      rw [ran]
      dsimp only
      rw [Nat.zero_add] at kept ⊢
      have count : m + piece.length - (unlines nl ls).length = r.length := by omega
      rw [count]
      refine congrArg _ (ih r rfl (shows_memmove kept) last (by omega) ?_ (short_rest lines short).2 ?_)
      · exact fun mem => proper (mem_append_right _ mem)
      · rw [length_append] at enough
        omega
    · rw [if_neg some]
      refine (report_of_notMem ?_).symm
      rcases Nat.eq_zero_or_pos input.length with empty | more
      · rw [length_eq_zero_iff.mp empty, append_nil]
        exact plain
      · exact notMem_of_full plain (by omega) short

/-- However the input is cut into pieces, `grep` writes the lines that match. -/
theorem grep_eq_report (pattern : List UInt8) (wants : ℕ → ℕ) (buf : Memory) (input : List UInt8) (proper : 0 ∉ input)
    (short : ∀ line ∈ (input.splitOn nl).dropLast, line.length ≤ 1022) :
    grep pattern wants buf input = report pattern input :=
  loop_eq [] rfl shows_nil not_mem_nil (by decide) proper short (Nat.lt_succ_self _)

/-- One byte at a time. -/
theorem grep_eq_report_bytes : grep [98] (fun _ => 1) (fun _ => 7) [97, 10, 98, 10, 99] = [98, 10] := by
  rw [grep_eq_report [98] (fun _ => 1) (fun _ => 7) [97, 10, 98, 10, 99] (by decide) (by decide)]
  decide

end Xv6.Grep
