import Xv6.Proofs.User.Ulib
import Xv6.Soundness.User.ShellGrammar

/-! # The words of a command as strings

`nulterminate` overwrites the byte behind each word that a command points to. Such a byte is a blank, a symbol or the
NUL of the line, and so it is in no word: every word of the command ends where it was read to end, and keeps its bytes.
-/

namespace Xv6.Shell

open Machine Ulib List

variable {text : Text} {s : ℕ} {ts : List Token} {w w' : Word}

section Runs

/-- A word is a run of word bytes, and no such byte is behind it. -/
structure IsRun (text : Text) (w : Word) : Prop where
  order : w.q ≤ w.eq
  inside : w.eq ≤ text.es
  bytes : ∀ i, w.q ≤ i → i < w.eq → wordByte (text.char i) = true
  stop : w.eq < text.es → wordByte (text.char w.eq) = false

theorem scanToken_word {q e : ℕ} (scanned : scanToken text q = ('a'.toUInt8, e)) : e = skip text wordByte q := by
  unfold scanToken at scanned
  dsimp only at scanned
  split_ifs at scanned with zero single greater twice
  · rw [zero] at scanned
    exact absurd (Prod.mk.inj scanned).1 (by decide)
  · rw [(Prod.mk.inj scanned).1] at single
    exact absurd single (by decide)
  · exact absurd (Prod.mk.inj scanned).1 (by decide)
  · rw [greater] at scanned
    exact absurd (Prod.mk.inj scanned).1 (by decide)
  · exact (Prod.mk.inj scanned).2.symm

theorem isRun_of_mem (here : At text s ts) (member : .word w ∈ ts) : IsRun text w := by
  induction ts generalizing s with
  | nil => cases member
  | cons t ts ih =>
    obtain ⟨e, begins, next⟩ := begins_of_cons here
    rcases mem_cons.mp member with rfl | later
    · obtain rfl := begins.word w rfl
      obtain rfl := scanToken_word begins.scanned
      exact ⟨le_skip .., begins.inside, fun _ behind passed => char_of_lt_skip _ behind passed, not_char_skip _ _⟩
    · exact ih next later

theorem IsRun.apart (left : IsRun text w) (right : IsRun text w') : w'.eq < w.q ∨ w.eq ≤ w'.eq := by
  by_contra within
  have inside : w'.eq < text.es := by have := left.inside; omega
  have byte := left.bytes w'.eq (by omega) (by omega)
  rw [right.stop inside] at byte
  cases byte

end Runs

section Derivations

theorem words_foldl_apply (redirs : List Redir) (cmd : Cmd) :
    (redirs.foldl Redir.apply cmd).words = cmd.words ++ redirs.map Redir.file := by
  induction redirs generalizing cmd with
  | nil => exact (append_nil _).symm
  | cons redir redirs ih =>
    have applied : (Redir.apply cmd redir).words = cmd.words ++ [redir.file] := by
      rcases redir with ⟨_ | _ | _, file⟩ <;> rfl
    rw [foldl_cons, ih, applied, append_assoc]
    rfl

theorem words_iterate_back (amps : ℕ) (cmd : Cmd) : (Cmd.back^[amps] cmd).words = cmd.words := by
  induction amps generalizing cmd with
  | zero => rfl
  | succ amps ih => rw [Function.iterate_succ_apply, ih, Cmd.words]

theorem file_mem_yieldRedirs {redirs : List Redir} (member : w ∈ redirs.map Redir.file) :
    .word w ∈ yieldRedirs redirs := by
  obtain ⟨redir, listed, rfl⟩ := mem_map.mp member
  exact mem_flatMap.mpr ⟨redir, listed, by simp [Redir.yield]⟩

theorem word_mem_yieldArgs {args : List Arg} (member : w ∈ (args.flatMap Prod.snd).map Redir.file ∨
    w ∈ args.map Prod.fst) :
    .word w ∈ args.flatMap Arg.yield := by
  rcases member with file | argument
  · obtain ⟨redir, listed, rfl⟩ := mem_map.mp file
    obtain ⟨arg, among, behind⟩ := mem_flatMap.mp listed
    refine mem_flatMap.mpr ⟨arg, among, mem_cons_of_mem _ (file_mem_yieldRedirs ?_)⟩
    exact mem_map_of_mem behind
  · obtain ⟨arg, among, rfl⟩ := mem_map.mp argument
    exact mem_flatMap.mpr ⟨arg, among, mem_cons_self⟩

mutual

/-- The words of a command are tokens that it was read from. -/
theorem Line.word_mem : (line : Line) → ∀ w ∈ line.cmd.words, .word w ∈ line.yield
  | .last first amps, w, member => by
    rw [Line.cmd, words_iterate_back] at member
    rw [Line.yield]
    exact mem_append_left _ (first.word_mem w member)
  | .seq first amps rest, w, member => by
    rw [Line.cmd, Cmd.words, words_iterate_back] at member
    rw [Line.yield]
    rcases mem_append.mp member with left | right
    · exact mem_append_left _ (mem_append_left _ (first.word_mem w left))
    · exact mem_append_right _ (mem_cons_of_mem _ (rest.word_mem w right))

theorem Pipe.word_mem : (pipe : Pipe) → ∀ w ∈ pipe.cmd.words, .word w ∈ pipe.yield
  | .last first, w, member => by
    rw [Pipe.cmd] at member
    rw [Pipe.yield]
    exact first.word_mem w member
  | .bar first rest, w, member => by
    rw [Pipe.cmd, Cmd.words] at member
    rw [Pipe.yield]
    rcases mem_append.mp member with left | right
    · exact mem_append_left _ (first.word_mem w left)
    · exact mem_append_right _ (mem_cons_of_mem _ (rest.word_mem w right))

theorem Exec.word_mem : (exec : Exec) → ∀ w ∈ exec.cmd.words, .word w ∈ exec.yield
  | .block line redirs, w, member => by
    rw [Exec.cmd, words_foldl_apply] at member
    rw [Exec.yield]
    rcases mem_append.mp member with inner | file
    · exact mem_append_left _ (mem_cons_of_mem _ (line.word_mem w inner))
    · exact mem_append_right _ (mem_cons_of_mem _ (file_mem_yieldRedirs file))
  | .simple redirs args _, w, member => by
    rw [Exec.cmd, words_foldl_apply, map_append, mem_append, mem_append, Cmd.words] at member
    rw [Exec.yield]
    rcases member with argument | front | file
    · exact mem_append_right _ (word_mem_yieldArgs (.inr argument))
    · exact mem_append_left _ (file_mem_yieldRedirs front)
    · exact mem_append_right _ (word_mem_yieldArgs (.inl file))

end

/-- What the parser returns for a line that it accepts. -/
theorem word_mem_tokens {cmd : Cmd} {spare : ℕ} (accepted : parsecmd text (enough text + spare) = .ok cmd)
    (member : w ∈ cmd.words) :
    .word w ∈ tokens text := by
  have whole := parsewhole_ensures text (enough text + spare) (Nat.le_add_right ..)
  unfold parsecmd at accepted
  cases ran : (parsewhole text (enough text + spare)).run 0 with
  | error fault => rw [ran] at accepted; cases accepted
  | ok result =>
    rw [ran] at accepted
    obtain ⟨line, value, derived, -⟩ := whole.of_run ran
    cases accepted
    dsimp only at member
    rw [← value] at member
    rw [← derived]
    exact line.word_mem w member

end Derivations

section Writes

variable {mem : Memory} {line a : ℕ}

theorem nulterminate_eq (line : ℕ) (cmd : Cmd) (mem : Memory) :
    nulterminate line cmd mem = cmd.words.foldl (terminate line) mem := by
  induction cmd generalizing mem with
  | exec argv => rfl
  | redir cmd file mode fd ih => rw [nulterminate, ih, Cmd.words, foldl_append]; rfl
  | pipe _ _ ihl ihr | list _ _ ihl ihr => rw [nulterminate, ihl, ihr, Cmd.words, foldl_append]
  | back cmd ih => rw [nulterminate, ih, Cmd.words]

theorem foldl_terminate (words : List Word) (mem : Memory) (a : ℕ) :
    words.foldl (terminate line) mem a = if ∃ w ∈ words, a = line + w.eq then 0 else mem a := by
  induction words generalizing mem with
  | nil => exact (if_neg (by simp)).symm
  | cons w words ih =>
    rw [foldl_cons, ih, terminate]
    by_cases later : ∃ v ∈ words, a = line + v.eq
    · obtain ⟨v, among, same⟩ := later
      rw [if_pos ⟨v, among, same⟩, if_pos ⟨v, mem_cons_of_mem _ among, same⟩]
    · rw [if_neg later]
      by_cases first : a = line + w.eq
      · rw [if_pos ⟨w, mem_cons_self, first⟩, first, Function.update_self]
      · rw [Function.update_of_ne first, if_neg]
        rintro ⟨v, among, same⟩
        rcases mem_cons.mp among with rfl | tail
        · exact first same
        · exact later ⟨v, tail, same⟩

theorem length_word (run : IsRun text w) : (text.word w).length = w.eq - w.q := by
  have inside := run.inside
  unfold Text.es at inside
  rw [Text.word, length_take, length_drop]
  omega

theorem zero_notMem_word (text : Text) (w : Word) : 0 ∉ text.word w := fun zero =>
  text.string (mem_of_mem_drop (mem_of_mem_take zero))

theorem shows_word (there : Shows mem line text.bytes) (run : IsRun text w) : Shows mem (line + w.q) (text.word w) := by
  intro i inside
  rw [length_word run] at inside
  have within : w.q + i < text.bytes.length := by have := run.inside; unfold Text.es at this; omega
  rw [Nat.add_assoc, there _ within]
  simp only [Text.word, getElem_take, getElem_drop]

/-- In the line that the shell has parsed, each word of the command is the string at its place, and nothing outside of
the line is written. -/
theorem nulterminate_words (text : Text) (spare line : ℕ) (mem : Memory) (cmd : Cmd)
    (accepted : parsecmd text (enough text + spare) = .ok cmd) (there : Shows mem line (text.bytes ++ [0])) :
    (∀ w ∈ cmd.words, .word w ∈ tokens text ∧
      ∀ bound, text.es < bound → string (nulterminate line cmd mem) bound (line + w.q) = text.word w) ∧
    ∀ a, a < line ∨ line + text.es < a → nulterminate line cmd mem a = mem a := by
  have runs (w : Word) (member : w ∈ cmd.words) : IsRun text w :=
    isRun_of_mem (at_start text) (word_mem_tokens accepted member)
  have writes := nulterminate_eq line cmd mem
  constructor
  · intro w member
    refine ⟨word_mem_tokens accepted member, fun bound enough => ?_⟩
    have run := runs w member
    have order := run.order
    have length := length_word run
    rw [writes]
    refine string_eq ((shows_word (shows_append.mp there).1 run).congr fun a first last => ?_)
      (zero_notMem_word text w) ?_ ?_
    · rw [foldl_terminate, if_neg]
      rintro ⟨w', other, rfl⟩
      have := run.apart (runs w' other)
      omega
    · rw [foldl_terminate, if_pos ⟨w, member, by omega⟩]
    · have := run.inside
      omega
  · intro a outside
    rw [writes, foldl_terminate, if_neg]
    rintro ⟨w, member, rfl⟩
    have := (runs w member).inside
    omega

/-- `a>b`: the symbol is the byte behind a word, and the NUL is the one behind the other. -/
theorem nulterminate_words_redir :
    let text : Text := ⟨[97, 62, 98], by decide⟩
    let cmd : Cmd := .redir (.exec [⟨0, 1⟩]) ⟨2, 3⟩ 0x601 1
    let mem : Memory := store (fun _ => 7) 100 [97, 62, 98, 0]
    ((∀ w ∈ cmd.words, .word w ∈ tokens text ∧
      ∀ bound, text.es < bound → string (nulterminate 100 cmd mem) bound (100 + w.q) = text.word w) ∧
    ∀ a, a < 100 ∨ 100 + text.es < a → nulterminate 100 cmd mem a = mem a) ∧ cmd.words = [⟨0, 1⟩, ⟨2, 3⟩] :=
  ⟨nulterminate_words _ 0 100 _ _ (by decide +kernel) (shows_store _ 100 _), rfl⟩

end Writes

end Xv6.Shell
