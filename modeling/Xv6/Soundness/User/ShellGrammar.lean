import Xv6.Proofs.User.ShellParser

/-! # The shell accepts exactly its grammar

With enough fuel for the tokens of a line, and any more, the parser returns the command of the derivation of
the line where there is one, and stops with a message where there is none. The derivation is unique.
-/

namespace Xv6.Shell

open Machine

/-- Fuel that is enough for a line. -/
def enough (text : Text) : ℕ := 4 * (tokens text).length + 4

theorem at_start (text : Text) : At text 0 (tokens text) := ⟨Nat.zero_le _, by rw [List.drop_zero, tokens]⟩

/-- The check for leftovers: the tree has to be the whole line. -/
theorem parsewhole_ensures (text : Text) (fuel : ℕ) (sufficient : enough text ≤ fuel) :
    Ensures (parsewhole text fuel) 0
      (fun cmd _ => ∃ line : Line, line.cmd = cmd ∧ line.yield = tokens text ∧ ∀ other : Line,
        other.yield = tokens text → other = line)
      fun fault => fault ≠ .outOfFuel ∧ ∀ line : Line, line.yield ≠ tokens text := by
  have line := (parses_all fuel).1 (tokens text) sufficient 0 (at_start text)
  have refused (fault : Fault) (failed : fault ≠ .outOfFuel ∧ Refuses Line.yield FollowLine (tokens text)) :
      fault ≠ .outOfFuel ∧ ∀ line : Line, line.yield ≠ tokens text :=
    ⟨failed.1, fun tree whole => failed.2 tree [] (by rw [whole, List.append_nil]) (.inl rfl)⟩
  refine (line.allow refused).bind ?_
  rintro _ s ⟨tree, rest, reads, rfl, here⟩
  refine (peek_ensures rfl here).bind ?_
  rintro _ _ ⟨-, rfl⟩
  refine .get_bind (.ite (fun more => ?_) fun done => ?_)
  · refine .throw ⟨by decide, fun other whole => more ?_⟩
    obtain ⟨-, rfl⟩ := reads.only other [] (by rw [whole, List.append_nil]) (.inl rfl)
    exact (skipWhitespace_eq_es_iff here).mpr rfl
  · obtain rfl := (skipWhitespace_eq_es_iff here).mp (not_not.mp done)
    have whole := reads.split
    rw [List.append_nil] at whole
    refine .pure ⟨tree, rfl, whole.symm, fun other same => ?_⟩
    exact (reads.only other [] (by rw [same, List.append_nil]) (.inl rfl)).1

/-- With enough fuel the parser accepts the lines of the grammar, each as the one command that the grammar gives it, and
stops at any other line with an error. -/
theorem parsecmd_grammar (text : Text) (spare : ℕ) :
    (∀ cmd, parsecmd text (enough text + spare) = .ok cmd ↔ ∃ line : Line, line.yield = tokens text ∧ line.cmd = cmd) ∧
    (∀ line line' : Line, line.yield = tokens text → line'.yield = tokens text → line = line') ∧
    ((∀ line : Line, line.yield ≠ tokens text) →
      ∃ fault, fault ≠ Fault.outOfFuel ∧ parsecmd text (enough text + spare) = .error fault) := by
  have whole := parsewhole_ensures text (enough text + spare) (Nat.le_add_right ..)
  unfold parsecmd
  cases ran : (parsewhole text (enough text + spare)).run 0 with
  | error fault =>
    obtain ⟨proper, none⟩ := whole.of_error ran
    refine ⟨fun cmd => ⟨fun ok => (by cases ok), ?_⟩, fun line _ derived => absurd derived (none line),
      fun _ => ⟨fault, proper, rfl⟩⟩
    rintro ⟨line, derived, -⟩
    exact absurd derived (none line)
  | ok result =>
    obtain ⟨line, value, derived, only⟩ := whole.of_run ran
    refine ⟨fun cmd => ⟨?_, ?_⟩, fun left right first second => (only left first).trans (only right second).symm,
      fun none => absurd derived (none line)⟩
    · rintro ⟨⟩
      exact ⟨line, derived, value⟩
    · rintro ⟨other, same, rfl⟩
      rw [only other same, value]
      rfl

/-- `(a; b) > c &`, with the words where they stand. -/
example : parsecmd ⟨[40, 97, 59, 32, 98, 41, 32, 62, 32, 99, 32, 38], by decide⟩ 40 =
    .ok (.back (.redir (.list (.exec [⟨1, 2⟩]) (.exec [⟨4, 5⟩])) ⟨9, 10⟩ 0x601 1)) := by
  decide +kernel

end Xv6.Shell
