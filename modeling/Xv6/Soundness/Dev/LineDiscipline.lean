import Xv6.Machine.Ring
import Xv6.Machine.Run
import Xv6.Model.Dev.Console

/-! # The console keeps to its line discipline

The buffer is a ring that holds what was committed and not taken yet, then the line that is being edited.
What readers get, in order, is what the line discipline committed, without ^D. A read ends with a newline or
before a ^D at the latest, and a ^D ends one read without any bytes.
-/

namespace Xv6.Console

open Machine Editor

section

open List

namespace Cons

variable {c : Cons} {unread line : List UInt8} {ch : UInt8}

/-- The committed characters that are unread, and the line. -/
structure Holds (c : Cons) (unread line : List UInt8) : Prop where
  ring : Ring (2 ^ 32) inputBufSize c.byte c.r.toNat c.e.toNat (unread ++ line)
  commit : c.w.toNat = (c.r.toNat + unread.length) % 2 ^ 32
  plain : ∀ ch ∈ line, ch ≠ newline ∧ ch ≠ ctrl 'D'

namespace Holds

section

variable (holds : c.Holds unread line)
include holds

theorem length_le : unread.length + line.length ≤ 128 := by
  have bound := holds.ring.length_le
  rwa [length_append] at bound

theorem edit_eq : c.e.toNat = (c.r.toNat + (unread.length + line.length)) % 2 ^ 32 := by
  rw [holds.ring.next_eq, length_append]

theorem edit_sub_read : (c.e - c.r).toNat = unread.length + line.length := by
  have bound := holds.length_le
  have read := c.r.toNat_lt
  rw [UInt32.toNat_sub, holds.edit_eq]
  omega

theorem write_sub_read : (c.w - c.r).toNat = unread.length := by
  have bound := holds.length_le
  have read := c.r.toNat_lt
  rw [UInt32.toNat_sub, holds.commit]
  omega

theorem edit_sub_write : (c.e - c.w).toNat = line.length := by
  have bound := holds.length_le
  have read := c.r.toNat_lt
  rw [UInt32.toNat_sub, holds.edit_eq, holds.commit]
  omega

theorem edit_eq_write_iff : c.e = c.w ↔ line = [] := by
  have bound := holds.length_le
  rw [← UInt32.toNat_inj, holds.edit_eq, holds.commit, ← length_eq_zero_iff]
  omega

theorem read_eq_write_iff : c.r = c.w ↔ unread = [] := by
  have bound := holds.length_le
  have read := c.r.toNat_lt
  rw [← UInt32.toNat_inj, holds.commit, ← length_eq_zero_iff]
  omega

end

theorem erase (holds : c.Holds unread (line ++ [ch])) :
    c.byte (c.e - 1).toNat = ch ∧ Holds { c with e := c.e - 1 } unread line := by
  have ring := holds.ring
  have place : (c.e - 1).toNat = (c.r.toNat + (unread ++ line).length) % 2 ^ 32 := by
    have bound := holds.length_le
    have read := c.r.toNat_lt
    have edit := holds.edit_eq
    rw [length_append, length_singleton] at bound edit
    rw [UInt32.toNat_sub, edit, length_append, UInt32.toNat_one]
    omega
  rw [← append_assoc] at ring
  obtain ⟨last, shorter⟩ := ring.retract (by decide)
  rw [← place] at last shorter
  refine ⟨?_, shorter, holds.commit, fun other listed => holds.plain other (mem_append_left _ listed)⟩
  rw [← last, byte, byte]
  simp only [Nat.mod_mod]

section

variable (holds : c.Holds unread line)
include holds

theorem killLine : (Cons.killLine line.length c).Holds unread [] := by
  induction line using reverseRecOn generalizing c with
  | nil => exact holds
  | append_singleton line last ih =>
    obtain ⟨read, erased⟩ := holds.erase
    have more : c.e ≠ c.w := by simp [holds.edit_eq_write_iff]
    have kept : c.byte (c.e - 1).toNat ≠ newline := read ▸ (holds.plain last (by simp)).1
    rw [length_append, length_singleton, Cons.killLine, if_pos ⟨more, kept⟩]
    exact ih erased

theorem backspace :
    Holds (if c.e ≠ c.w then { c with e := c.e - 1 } else c) unread line.dropLast := by
  rcases eq_nil_or_concat line with rfl | ⟨rest, last, rfl⟩
  · rw [if_neg (not_not.mpr (holds.edit_eq_write_iff.mpr rfl))]
    exact holds
  · rw [concat_eq_append] at holds ⊢
    rw [if_pos (by simp [holds.edit_eq_write_iff]), dropLast_concat]
    exact holds.erase.2

section

variable (room : unread.length + line.length < 128)
include room

theorem store (ch : UInt8) :
    Ring (2 ^ 32) inputBufSize (c.store ch).byte (c.store ch).r.toNat (c.store ch).e.toNat (unread ++
      line ++ [ch]) := by
  have pushed := holds.ring.push (by decide) (by rwa [length_append]) ch
  rw [Cons.store, UInt32.toNat_add]
  refine pushed.congr fun k inside => ?_
  simp only [byte, Vector.getElem_set, Function.update_apply, Nat.mod_eq_of_lt inside, eq_comm]

theorem append (ordinary : ch ≠ newline ∧ ch ≠ ctrl 'D') : (c.store ch).Holds unread (line ++ [ch]) where
  ring := by
    rw [← append_assoc]
    exact holds.store room ch
  commit := holds.commit
  plain other listed := by
    rcases mem_append.mp listed with old | new
    · exact holds.plain other old
    · rwa [mem_singleton.mp new]

theorem enter (ch : UInt8) :
    Holds { c.store ch with w := (c.store ch).e } (unread ++ (line ++ [ch])) [] where
  ring := by
    rw [append_nil, ← append_assoc]
    exact holds.store room ch
  commit := by
    rw [← append_assoc]
    exact (holds.store room ch).next_eq
  plain _ listed := by cases listed

end

theorem take (ready : c.r ≠ c.w) : ∃ rest,
    unread = c.byte c.r.toNat :: rest ∧ Holds { c with r := c.r + 1 } rest line := by
  cases unread with
  | nil => exact (ready (holds.read_eq_write_iff.mpr rfl)).elim
  | cons first rest =>
    obtain ⟨same, ring⟩ := Ring.pop holds.ring (by decide)
    refine ⟨rest, ?_, ?_, ?_, holds.plain⟩
    · rw [← same]
      simp [byte]
    · rw [UInt32.toNat_add]
      exact ring
    · have commit := holds.commit
      rw [length_cons] at commit
      rw [commit, UInt32.toNat_add, UInt32.toNat_one]
      omega

end

end Holds

end Cons

/-! ## Typing -/

/-- The buffer holds what the line discipline says. -/
structure Agrees (c : Cons) (ed : Editor) : Prop where
  taken_le : ed.taken ≤ ed.committed.length
  holds : c.Holds (ed.committed.drop ed.taken) ed.line

namespace Agrees

variable {c : Cons} {ed : Editor}

theorem unread_eq (agrees : Agrees c ed) : ed.unread = (ed.committed.drop ed.taken).length + ed.line.length := by
  have le := agrees.taken_le
  rw [unread, length_drop]
  omega

theorem edit_sub_read (agrees : Agrees c ed) : (c.e - c.r).toNat = ed.unread := by
  rw [agrees.holds.edit_sub_read, agrees.unread_eq]

theorem store (agrees : Agrees c ed) (room : ed.unread < inputBufSize) (ch : UInt8) :
    Agrees (if ch = newline ∨ ch = ctrl 'D' ∨ (c.store ch).e - (c.store ch).r = UInt32.ofNat inputBufSize then
        { c.store ch with w := (c.store ch).e } else c.store ch)
      (if ch = newline ∨ ch = ctrl 'D' ∨ unread { ed with line := ed.line ++ [ch] } = inputBufSize then
        commit { ed with line := ed.line ++ [ch] } else { ed with line := ed.line ++ [ch] }) := by
  have le := agrees.taken_le
  have space : (ed.committed.drop ed.taken).length + ed.line.length < 128 := agrees.unread_eq ▸ room
  have entered := agrees.holds.enter space ch
  have full : (c.store ch).e - (c.store ch).r = UInt32.ofNat inputBufSize ↔
      unread { ed with line := ed.line ++ [ch] } = inputBufSize := by
    have distance := entered.edit_sub_read
    rw [← UInt32.toNat_inj]
    refine Iff.of_eq (congrArg₂ _ (distance.trans ?_) rfl)
    simp only [unread, length_append, length_drop, length_nil]
    omega
  simp only [full]
  split_ifs with commits
  · refine ⟨le.trans (by simp [commit]), ?_⟩
    rw [commit, drop_append_of_le_length le]
    exact entered
  · rw [not_or, not_or] at commits
    exact ⟨le, agrees.holds.append space ⟨commits.1, commits.2.1⟩⟩

theorem consoleintr (agrees : Agrees c ed) (ch : UInt8) : Agrees (c.consoleintr ch) (ed.type ch) := by
  unfold Cons.consoleintr type
  by_cases print : ch = ctrl 'P'
  · rw [if_pos print, if_pos (.inl print)]
    exact agrees
  by_cases kill : ch = ctrl 'U'
  · rw [if_neg print, if_pos kill, if_neg (by subst kill; decide), if_pos kill, agrees.holds.edit_sub_write]
    exact ⟨agrees.taken_le, agrees.holds.killLine⟩
  by_cases erase : ch = ctrl 'H' ∨ ch = delete
  · have printed : ¬ (ch = ctrl 'P' ∨ ch = 0) := by rcases erase with rfl | rfl <;> decide
    rw [if_neg print, if_neg kill, if_pos erase, if_neg printed, if_neg kill, if_pos erase]
    exact ⟨agrees.taken_le, agrees.holds.backspace⟩
  rw [if_neg print, if_neg kill, if_neg erase]
  by_cases nul : ch = 0
  · rw [if_neg (fun taken => taken.1 nul), if_pos (.inr nul)]
    exact agrees
  rw [if_neg (not_or.mpr ⟨print, nul⟩), if_neg kill, if_neg erase]
  have room : c.e - c.r < UInt32.ofNat inputBufSize ↔ ed.unread < inputBufSize := by
    rw [UInt32.lt_iff_toNat_lt, agrees.edit_sub_read]
    rfl
  by_cases space : ed.unread < inputBufSize
  · rw [if_pos ⟨nul, room.mpr space⟩, if_pos space]
    exact agrees.store space _
  · rw [if_neg (fun taken => space (room.mp taken.2)), if_neg space]
    exact agrees

end Agrees

/-! ## Reading -/

/-- What a reader has when it stops, if it began with `bytes`. -/
def Outcome (target : ℕ) (bytes unread : List UInt8) (leg : Leg) : Prop :=
  leg.bytes = bytes ++ leg.taken.filter (· ≠ ctrl 'D') ∧ match leg.stop with
  | .asleep m => leg.bytes.length + m = target ∧ ctrl 'D' ∉ leg.taken ∧ ∀ ch ∈ leg.bytes, ch ≠ newline ∧ ch ≠ ctrl 'D'
  | .done m => leg.bytes.length + m = target ∧ (leg.bytes = [] ∧ leg.taken = [ctrl 'D'] ∨ ctrl 'D' ∉ leg.taken ∧
      ctrl 'D' ∉ leg.bytes ∧ newline ∉ leg.bytes.dropLast ∧ (m = 0 ∨ leg.bytes.getLast? = some newline ∨
        leg.bytes ≠ [] ∧ (unread.drop leg.taken.length).head? = some (ctrl 'D')))

theorem Outcome.cons {target : ℕ} {bytes unread : List UInt8} {ch : UInt8} {leg : Leg} (other : ch ≠ ctrl 'D')
    (later : Outcome target (bytes ++ [ch]) unread leg) :
    Outcome target bytes (ch :: unread) { leg with taken := ch :: leg.taken } := by
  obtain ⟨stored, ends⟩ := later
  refine ⟨by simp [stored, other], ?_⟩
  have more (none_listed : ctrl 'D' ∉ leg.taken) : ctrl 'D' ∉ ch :: leg.taken := by simp [none_listed, other.symm]
  dsimp only
  cases stop : leg.stop with
  | asleep m =>
    rw [stop] at ends
    exact ⟨ends.1, more ends.2.1, ends.2.2⟩
  | done m =>
    rw [stop] at ends
    obtain ⟨size, ⟨empty, -⟩ | ⟨none_listed, rest⟩⟩ := ends
    · simp [empty] at stored
    · exact ⟨size, .inr ⟨more none_listed, rest⟩⟩

variable {c : Cons} {line chars : List UInt8}

theorem readLoop_outcome {target : ℕ} {writable : ℕ → Bool} (all : ∀ i, writable i = true) (n : ℕ)
    {bytes unread : List UInt8} (holds : c.Holds unread line) (size : bytes.length + n = target)
    (plain : ∀ ch ∈ bytes, ch ≠ newline ∧ ch ≠ ctrl 'D') : ∃ rest,
    unread = (readLoop target writable n c bytes).taken ++ rest ∧
    (readLoop target writable n c bytes).cons.Holds rest line ∧
      Outcome target bytes unread (readLoop target writable n c bytes) := by
  have kept : bytes = bytes ++ ([] : List UInt8).filter (· ≠ ctrl 'D') := (append_nil _).symm
  have no_eof : ctrl 'D' ∉ bytes := fun listed => (plain _ listed).2 rfl
  have no_newline : newline ∉ bytes := fun listed => (plain _ listed).1 rfl
  have one_line : newline ∉ bytes.dropLast := fun listed => no_newline ((dropLast_sublist _).mem listed)
  induction n generalizing c unread bytes with
  | zero => exact ⟨unread, rfl, holds, kept, size, .inr ⟨not_mem_nil, no_eof, one_line, .inl rfl⟩⟩
  | succ n ih =>
    rw [readLoop]
    by_cases none_left : c.r = c.w
    · rw [if_pos none_left]
      exact ⟨unread, rfl, holds, kept, size, not_mem_nil, plain⟩
    rw [if_neg none_left]
    obtain ⟨rest, rfl, holds'⟩ := holds.take none_left
    dsimp only
    generalize c.byte c.r.toNat = ch at *
    by_cases eof : ch = ctrl 'D'
    · subst eof
      rw [if_pos rfl]
      split_ifs with later
      · have back : c.r + 1 - 1 = c.r := by simp
        have some_bytes : bytes ≠ [] := by
          rintro rfl
          simp at size
          omega
        rw [back]
        exact ⟨_, rfl, holds, kept, size, .inr ⟨not_mem_nil, no_eof, one_line, .inr (.inr ⟨some_bytes, rfl⟩)⟩⟩
      · obtain rfl : bytes = [] := length_eq_zero_iff.mp (by omega)
        exact ⟨rest, rfl, holds', rfl, size, .inl ⟨rfl, rfl⟩⟩
    · rw [if_neg eof, if_pos (all _)]
      have no_eof' : ctrl 'D' ∉ bytes ++ [ch] := by simp [no_eof, Ne.symm eof]
      have size' : (bytes ++ [ch]).length + n = target := by
        rw [length_append, length_singleton]
        omega
      split_ifs with ends
      · refine ⟨rest, rfl, holds', by simp [eof], size', .inr ⟨?_, no_eof', ?_, .inr (.inl ?_)⟩⟩
        · simpa using Ne.symm eof
        · rwa [dropLast_concat]
        · rw [ends, getLast?_concat]
      · have plain' : ∀ other ∈ bytes ++ [ch], other ≠ newline ∧ other ≠ ctrl 'D' :=
          forall_mem_append.mpr ⟨plain, forall_mem_singleton.mpr ⟨ends, eof⟩⟩
        have no_newline' : newline ∉ bytes ++ [ch] := fun listed => (plain' _ listed).1 rfl
        obtain ⟨rest', split, held, later⟩ := ih holds' size' plain' (append_nil _).symm no_eof' no_newline'
          fun listed => no_newline' ((dropLast_sublist _).mem listed)
        exact ⟨rest', by rw [cons_append, ← split], held, later.cons eof⟩

/-! ## The record -/

variable {P : Type*}

@[simp] theorem taken_append (first second : List (Event P)) : taken (first ++ second) = taken first ++ taken second :=
  filterMap_append

theorem taken_took (p : P) (chars : List UInt8) : taken (chars.map (Event.took p)) = chars := by
  simp [taken, filterMap_map, Function.comp_def, Event.took?]

theorem Editor.run_append (first second : List (Event P)) : run (first ++ second) = second.foldl step (run first) :=
  foldl_append

theorem Editor.run_took (trace : List (Event P)) (p : P) (chars : List UInt8) :
    run (trace ++ chars.map (Event.took p)) = { run trace with taken := (run trace).taken + chars.length } := by
  rw [run_append]
  generalize run trace = ed
  induction chars generalizing ed with
  | nil => rfl
  | cons ch rest ih =>
    rw [map_cons, foldl_cons, ih]
    simp only [step, length_cons]
    congr 1
    omega

theorem Editor.type_committed (ed : Editor) (ch : UInt8) : ∃ more, (ed.type ch).committed = ed.committed ++ more ∧
    (ed.type ch).taken = ed.taken := by
  unfold type
  dsimp only
  split_ifs
  all_goals first | exact ⟨[], (append_nil _).symm, rfl⟩ | exact ⟨_, rfl, rfl⟩

/-- How a call ended that has stored `bytes`. -/
structure Ends (past : List (Event P)) (p : P) (target : ℕ) (value : ℤ) (bytes : List UInt8) : Prop where
  value_eq : value = bytes.length
  length_le : bytes.length ≤ target
  no_eof : ctrl 'D' ∉ bytes
  one_line : newline ∉ bytes.dropLast
  /-- a call returns nothing if it has just taken a ^D -/
  empty : bytes = [] → ∃ earlier, past = earlier ++ [.took p (ctrl 'D')]
  /-- otherwise it has all the bytes it wanted or a line, or it has met a ^D and left it -/
  cause : bytes ≠ [] → bytes.length = target ∨ bytes.getLast? = some newline ∨
    ((Editor.run past).committed.drop (Editor.run past).taken).head? = some (ctrl 'D')

def Returns (trace : List (Event P)) : Prop :=
  ∀ past p target value bytes rest, trace = past ++ .returned p target value bytes :: rest →
    Ends past p target value bytes

/-- A call that takes a ^D returns, with no bytes. -/
def EndOfFile (trace : List (Event P)) : Prop :=
  ∀ past p rest, trace = past ++ .took p (ctrl 'D') :: rest → ∃ target rest', rest = .returned p target 0 [] :: rest'

theorem Returns.concat {trace : List (Event P)} {event : Event P} (returns : Returns trace)
    (ends : ∀ p target value bytes, event = .returned p target value bytes → Ends trace p target value bytes) :
    Returns (trace ++ [event]) := by
  intro past p target value bytes rest split
  rcases concat_eq_append_cons.mp split with ⟨-, rfl, same⟩ | ⟨earlier, -, before⟩
  · exact ends p target value bytes same.symm
  · exact returns past p target value bytes earlier before

theorem Returns.took {trace : List (Event P)} (returns : Returns trace) (p : P) (chars : List UInt8) :
    Returns (trace ++ chars.map (Event.took p)) := by
  induction chars using reverseRecOn with
  | nil => simpa using returns
  | append_singleton chars ch ih =>
    rw [map_append, ← append_assoc]
    exact ih.concat (by rintro _ _ _ _ ⟨⟩)

theorem EndOfFile.concat {trace : List (Event P)} {event : Event P} (eofs : EndOfFile trace)
    (other : ∀ p, event ≠ .took p (ctrl 'D')) : EndOfFile (trace ++ [event]) := by
  intro past p rest split
  rcases concat_eq_append_cons.mp split with ⟨-, -, same⟩ | ⟨earlier, rfl, before⟩
  · exact (other p same.symm).elim
  · obtain ⟨target, rest', rfl⟩ := eofs past p earlier before
    exact ⟨target, rest' ++ [event], rfl⟩

theorem EndOfFile.took {trace : List (Event P)} (eofs : EndOfFile trace) (p : P) (none_listed : ctrl 'D' ∉ chars) :
    EndOfFile (trace ++ chars.map (Event.took p)) := by
  induction chars using reverseRecOn with
  | nil => simpa using eofs
  | append_singleton chars ch ih =>
    rw [mem_append, mem_singleton, not_or] at none_listed
    rw [map_append, ← append_assoc]
    exact (ih none_listed.1).concat (by rintro _ ⟨⟩; exact none_listed.2 rfl)

/-- A ^D is taken by a call that then returns. -/
theorem EndOfFile.zero {trace : List (Event P)} (eofs : EndOfFile trace) (p : P) (target : ℕ) :
    EndOfFile (trace ++ [.took p (ctrl 'D')] ++ [.returned p target 0 []]) := by
  intro past q rest split
  rcases concat_eq_append_cons.mp split with ⟨-, -, same⟩ | ⟨earlier, rfl, before⟩
  · cases same
  · rcases concat_eq_append_cons.mp before with ⟨rfl, -, same⟩ | ⟨earliest, rfl, first⟩
    · cases same
      exact ⟨target, [], rfl⟩
    · obtain ⟨size, rest', rfl⟩ := eofs past q earliest first
      exact ⟨size, _, rfl⟩

/-! ## Runs -/

variable [DecidableEq P]

@[simp] theorem takenBy_append (p : P) (first second : List (Event P)) :
    takenBy p (first ++ second) = takenBy p first ++ takenBy p second :=
  filterMap_append

@[simp] theorem returnedTo_append (p : P) (first second : List (Event P)) :
    returnedTo p (first ++ second) = returnedTo p first ++ returnedTo p second :=
  flatMap_append

theorem takenBy_took (p q : P) (chars : List UInt8) :
    takenBy p (chars.map (Event.took q)) = if q = p then chars.filter (· ≠ ctrl 'D') else [] := by
  rw [takenBy, filterMap_map]
  split_ifs with own
  · rw [← filterMap_eq_filter]
    refine congrArg (filterMap · chars) (funext fun ch => ?_)
    simp [Event.tookBy?, Option.guard, own]
  · simp [Function.comp_def, Event.tookBy?, own]

theorem returnedTo_took (p q : P) (chars : List UInt8) : returnedTo p (chars.map (Event.took q)) = [] := by
  simp [returnedTo, flatMap_map, Event.bytesTo]

/-- The bytes that a call which is under way has stored. -/
def System.pending (s : System P) (p : P) : List UInt8 := (s.reader p).elim [] Reader.bytes

/-- A call that has stored some of its bytes. -/
structure Reader.Waits (rd : Reader) : Prop where
  size : rd.bytes.length + rd.n = rd.target
  positive : 0 < rd.target
  plain : ∀ ch ∈ rd.bytes, ch ≠ newline ∧ ch ≠ ctrl 'D'
  writable : ∀ i, rd.writable i = true

/-- The buffer is in the state that the record leads to. -/
structure Tracks (c : Cons) (trace : List (Event P)) : Prop extends Agrees c (Editor.run trace) where
  taken_eq : taken trace = (Editor.run trace).committed.take (Editor.run trace).taken

structure Sound (s : System P) : Prop where
  tracks : Tracks s.cons s.trace
  returned : ∀ p, takenBy p s.trace = returnedTo p s.trace ++ s.pending p
  waits : ∀ p rd, s.reader p = some rd → rd.Waits
  returns : Returns s.trace
  eofs : EndOfFile s.trace

/-- The positive sizes, writable destinations and living processes. -/
def Act.Fine : Act P → Prop
  | .intr _ => True
  | .read _ n writable killed => 0 < n ∧ (∀ i, writable i = true) ∧ killed = false
  | .resume _ killed => killed = false

namespace Sound

variable {s s' : System P} {p : P} {rd : Reader}

theorem boot (buf : _) : Sound (.boot buf : System P) where
  tracks := ⟨⟨le_rfl, Ring.empty (Nat.two_pow_pos 32), rfl, by rintro _ ⟨⟩⟩, rfl⟩
  returned _ := rfl
  waits := by rintro _ _ ⟨⟩
  returns _ _ _ _ _ _ split := by simp [System.boot] at split
  eofs _ _ _ split := by simp [System.boot] at split

section

variable (sound : Sound s)
include sound

theorem intr (ch : UInt8) :
    Sound { s with cons := s.cons.consoleintr ch, trace := s.trace ++ [.typed ch] } := by
  have typed : Editor.run (s.trace ++ [.typed ch]) = (Editor.run s.trace).type ch := Editor.run_append _ _
  have le := sound.tracks.taken_le
  refine ⟨⟨?_, ?_⟩, fun q => ?_, sound.waits, sound.returns.concat (by rintro _ _ _ _ ⟨⟩),
    sound.eofs.concat (by rintro _ ⟨⟩)⟩
  · rw [typed]
    exact sound.tracks.toAgrees.consoleintr ch
  · obtain ⟨more, same⟩ := (Editor.run s.trace).type_committed ch
    rw [typed, same.1, same.2, take_append_of_le_length le, taken_append, ← sound.tracks.taken_eq]
    exact append_nil _
  · rw [takenBy_append, returnedTo_append, sound.returned q]
    simp [takenBy, returnedTo, Event.tookBy?, Event.bytesTo, System.pending]

variable {leg : Leg} {m : ℕ}

theorem took (waits : rd.Waits) (p : P) (ran : readLoop rd.target rd.writable rd.n s.cons rd.bytes = leg) :
    Tracks leg.cons (s.trace ++ leg.taken.map (Event.took p)) ∧
      Outcome rd.target rd.bytes ((run s.trace).committed.drop (run s.trace).taken) leg := by
  subst ran
  have le := sound.tracks.taken_le
  obtain ⟨rest, split, holds, outcome⟩ :=
    readLoop_outcome waits.writable rd.n sound.tracks.holds waits.size waits.plain
  have bound := congrArg length split
  rw [length_drop, length_append] at bound
  refine ⟨⟨⟨?_, ?_⟩, ?_⟩, outcome⟩
  · rw [run_took]
    dsimp only
    omega
  · rw [run_took, ← drop_drop, split, drop_left]
    exact holds
  · rw [run_took, taken_append, taken_took, sound.tracks.taken_eq, take_add, split, take_left]

theorem takenBy_eq (began : s.pending p = rd.bytes) (stored : leg.bytes = rd.bytes ++ leg.taken.filter (· ≠ ctrl 'D'))
    (q : P) : takenBy q (s.trace ++ leg.taken.map (Event.took p)) =
      returnedTo q (s.trace ++ leg.taken.map (Event.took p)) ++ if q = p then leg.bytes else s.pending q := by
  rw [takenBy_append, takenBy_took, sound.returned q, returnedTo_append, returnedTo_took, append_nil, append_assoc]
  rcases eq_or_ne q p with rfl | other
  · rw [if_pos rfl, if_pos rfl, began, stored]
  · rw [if_neg other, if_neg other.symm, append_nil]

theorem setReader {next : Option Reader} (waiting : ∀ rd, next = some rd → rd.Waits) {q : P}
    (here : Function.update s.reader p next q = some rd) : rd.Waits := by
  rcases eq_or_ne q p with rfl | other
  · rw [Function.update_self] at here
    exact waiting rd here
  · rw [Function.update_of_ne other] at here
    exact sound.waits q rd here

theorem sleep (waits : rd.Waits) (began : s.pending p = rd.bytes)
    (tracks : Tracks leg.cons (s.trace ++ leg.taken.map (Event.took p))) {unread : List UInt8}
    (outcome : Outcome rd.target rd.bytes unread leg) (stop : leg.stop = .asleep m) :
    Sound (({ s with cons := leg.cons, trace := s.trace ++ leg.taken.map (Event.took p) } : System P).setReader p
      (some { rd with n := m, bytes := leg.bytes })) := by
  obtain ⟨stored, ends⟩ := outcome
  rw [stop] at ends
  obtain ⟨size, none_listed, plain⟩ := ends
  refine ⟨tracks, fun q => ?_, fun q rd' => sound.setReader ?_, sound.returns.took p _, sound.eofs.took p none_listed⟩
  · refine (sound.takenBy_eq began stored q).trans (congrArg _ ?_)
    rcases eq_or_ne q p with rfl | other
    · simp [System.pending, System.setReader]
    · simp [System.pending, System.setReader, other]
  · rintro _ ⟨⟩
    exact ⟨size, waits.positive, plain, waits.writable⟩

theorem done (waits : rd.Waits) (began : s.pending p = rd.bytes)
    (tracks : Tracks leg.cons (s.trace ++ leg.taken.map (Event.took p)))
    (outcome : Outcome rd.target rd.bytes ((Editor.run s.trace).committed.drop (Editor.run s.trace).taken) leg)
    (stop : leg.stop = .done m) :
    Sound { (({ s with cons := leg.cons } : System P).setReader p none) with
      trace := s.trace ++ leg.taken.map (Event.took p) ++ [.returned p rd.target (rd.target - m : ℤ) leg.bytes] } := by
  obtain ⟨stored, ends⟩ := outcome
  rw [stop] at ends
  obtain ⟨size, cases⟩ := ends
  have value : (rd.target - m : ℤ) = leg.bytes.length := by omega
  have run_done :
      Editor.run (s.trace ++ leg.taken.map (Event.took p) ++ [.returned p rd.target (rd.target - m : ℤ) leg.bytes]) =
      Editor.run (s.trace ++ leg.taken.map (Event.took p)) := Editor.run_append _ _
  refine ⟨⟨run_done ▸ tracks.toAgrees, ?_⟩, fun q => ?_, fun q rd' => sound.setReader (by rintro _ ⟨⟩),
    (sound.returns.took p _).concat ?_, ?_⟩
  · rw [taken_append, run_done, tracks.taken_eq]
    exact append_nil _
  · rw [takenBy_append, sound.takenBy_eq began stored q, returnedTo_append _ (s.trace ++ _)]
    rcases eq_or_ne q p with rfl | other
    · simp [takenBy, returnedTo, Event.tookBy?, Event.bytesTo, System.pending, System.setReader]
    · simp [takenBy, returnedTo, Event.tookBy?, Event.bytesTo, System.pending, System.setReader, other, other.symm]
  · rintro _ _ _ _ ⟨⟩
    rcases cases with ⟨empty, eof⟩ | ⟨-, no_eof, one, why⟩
    · exact ⟨value, by omega, by simp [empty], by simp [empty], fun _ => ⟨s.trace, by rw [eof]; rfl⟩, absurd empty⟩
    · refine ⟨value, by omega, no_eof, one, fun empty => ?_, fun _ => ?_⟩
      · have := waits.positive
        rcases why with all | last | ⟨some_bytes, -⟩
        · simp only [empty, length_nil] at size
          omega
        · simp [empty] at last
        · exact (some_bytes empty).elim
      · rcases why with all | last | ⟨-, met⟩
        · exact .inl (by omega)
        · exact .inr (.inl last)
        · rw [Editor.run_took, ← drop_drop]
          exact .inr (.inr met)
  · rcases cases with ⟨empty, eof⟩ | ⟨none_listed, -⟩
    · rw [value, empty, eof]
      exact sound.eofs.zero p rd.target
    · exact (sound.eofs.took p none_listed).concat (by rintro _ ⟨⟩)

theorem consoleread (waits : rd.Waits) (began : s.pending p = rd.bytes) : Sound (s.consoleread p rd false) := by
  obtain ⟨tracks, outcome⟩ := sound.took waits p rfl
  unfold System.consoleread
  dsimp only
  cases stop : (readLoop rd.target rd.writable rd.n s.cons rd.bytes).stop with
  | asleep m => exact sound.sleep waits began tracks outcome stop
  | done m => exact sound.done waits began tracks outcome stop

theorem step {act : Act P} (fine : act.Fine) (enabled : s.step? act = some s') : Sound s' := by
  cases act with
  | intr ch =>
    cases enabled
    exact sound.intr ch
  | read p n writable killed =>
    obtain ⟨positive, all, rfl⟩ := fine
    simp only [System.step?, Option.ite_none_right_eq_some, Option.some.injEq] at enabled
    obtain ⟨idle, rfl⟩ := enabled
    exact sound.consoleread ⟨Nat.zero_add n, positive, by rintro _ ⟨⟩, all⟩
      (by rw [System.pending, idle, Option.elim_none])
  | resume p killed =>
    obtain rfl : killed = false := fine
    obtain ⟨rd, here, rfl⟩ := Option.map_eq_some_iff.mp enabled
    exact sound.consoleread (sound.waits p rd here) (by rw [System.pending, here, Option.elim_some])

end

end Sound

/-- The committed characters in the buffer. -/
def Cons.unread (c : Cons) : List UInt8 := (List.range (c.w - c.r).toNat).map fun k => c.byte (c.r.toNat + k)

theorem Cons.Holds.unread_eq {unread : List UInt8} (holds : c.Holds unread line) : c.unread = unread := by
  refine ext_getElem (by simp [Cons.unread, holds.write_sub_read]) fun k inside short => ?_
  have slot := holds.ring.slot_eq k (by rw [length_append]; omega)
  rw [getElem_append_left short] at slot
  simp only [Cons.unread, getElem_map, getElem_range, ← slot, byte, Nat.mod_mod]

end

variable {P : Type*} [DecidableEq P]

/-- Readers get what the line discipline commits, in runs in which calls have positive sizes, write to memory that is
there and are not killed. -/
theorem line_discipline {s : System P} (buf : Vector UInt8 inputBufSize) (acts : List (Act P))
    (fine : ∀ act ∈ acts, act.Fine)
    (reached : run? System.step? (.boot buf) acts = some s) :
    (s.cons.w - s.cons.r ≤ s.cons.e - s.cons.r ∧ s.cons.e - s.cons.r ≤ UInt32.ofNat inputBufSize) ∧
      (Editor.run s.trace).committed = taken s.trace ++ s.cons.unread ∧
      (∀ p, takenBy p s.trace = returnedTo p s.trace ++ s.pending p) ∧ Returns s.trace ∧ EndOfFile s.trace := by
  have along : Along System.step? (fun _ act => act.Fine) (.boot buf) acts := by
    rintro past act rest _ rfl -
    exact fine act (by simp)
  have sound : Sound s := run?_along System.step? along (fun _ s => Sound s) (.boot buf)
    (fun _ _ _ _ sound fine enabled => sound.step fine enabled) reached
  have holds := sound.tracks.holds
  have bound := holds.length_le
  refine ⟨⟨?_, ?_⟩, ?_, sound.returned, sound.returns, sound.eofs⟩
  · rw [UInt32.le_iff_toNat_le, holds.write_sub_read, holds.edit_sub_read]
    omega
  · rw [UInt32.le_iff_toNat_le, holds.edit_sub_read]
    exact bound
  · rw [holds.unread_eq, sound.tracks.taken_eq, List.take_append_drop]

/-- Two lines are typed, with a correction and an end of file in between, and read in four calls. -/
def twoLines : List (Act Bool) :=
  [.intr 104, .intr 106, .intr 8, .intr 105, .intr 13, .intr 4, .intr 104, .intr 10,
    .read true 2 (fun _ => true) false, .read true 9 (fun _ => true) false, .read true 9 (fun _ => true) false,
    .read true 9 (fun _ => true) false]

theorem line_discipline_twoLines : ∃ s, run? System.step? (.boot (.replicate _ 0)) twoLines = some s ∧
    returnedTo true s.trace = [104, 105, 10, 104, 10] ∧ Returns s.trace := by
  have ran : ((run? System.step? (.boot (.replicate _ 0)) twoLines).map fun s => returnedTo true s.trace) =
      some [104, 105, 10, 104, 10] := by decide +kernel
  obtain ⟨s, reached, same⟩ := Option.map_eq_some_iff.mp ran
  exact ⟨s, reached, same, (line_discipline _ twoLines (by simp [twoLines, Act.Fine]) reached).2.2.2.1⟩

end Xv6.Console
