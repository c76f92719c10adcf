import Xv6.Proofs.User.ShellTokens

/-! # The parser recognises the grammar

One specification for each function of the parser, from the innermost loop outwards. What may follow a part
is the set of symbols that its caller looks for next.
-/

namespace Xv6.Shell

open Machine List

variable {text : Text} {ts : List Token} {toks : List Char}
variable {fuel : ℕ} {t : Token} {d : Char}

section Follow

theorem starts_cons (t : Token) : starts toks (t :: ts) = t.first.any (toks.contains ·) := rfl

theorem exists_of_starts (first : starts toks ts = true) :
    ∃ t rest d, ts = t :: rest ∧ t.first = some d ∧ d ∈ toks := by
  cases ts with
  | nil => cases first
  | cons t rest =>
    rw [starts_cons] at first
    cases known : t.first with
    | none =>
      rw [known] at first
      cases first
    | some d =>
      rw [known] at first
      exact ⟨t, rest, d, rfl, known, contains_iff_mem.mp first⟩

theorem starts_operator : starts ['<', '>'] ts = true ↔ ∃ d rest, ts = Redir.operator d :: rest := by
  constructor
  · intro first
    obtain ⟨t, rest, d, rfl, known, listed⟩ := exists_of_starts first
    cases t with
    | less => exact ⟨.input, rest, rfl⟩
    | greater => exact ⟨.output, rest, rfl⟩
    | append => exact ⟨.append, rest, rfl⟩
    | _ => cases known <;> exact absurd listed (by decide)
  · rintro ⟨d, rest, rfl⟩
    cases d <;> rfl

theorem first_inj {t' : Token} (left : t.first = some d) (right : t'.first = some d) (single : d ≠ '>') :
    t = t' := by
  cases t <;> cases left <;> cases t' <;>
    first | rfl | exact absurd rfl single | exact absurd right (by decide) | cases right

theorem starts_single (known : t.first = some d) (single : d ≠ '>') :
    starts [d] ts = true ↔ ∃ rest, ts = t :: rest := by
  constructor
  · intro first
    obtain ⟨t', rest, d', rfl, known', listed⟩ := exists_of_starts first
    obtain rfl := mem_singleton.mp listed
    exact ⟨rest, by rw [first_inj known known' single]⟩
  · rintro ⟨rest, rfl⟩
    rw [starts_cons, known]
    simp

/-- The end, or one of some symbols. -/
def Ends (toks : List Char) (ts : List Token) : Prop := ts = [] ∨ starts toks ts = true

/-- What ends a line: the text, or the block it is in. -/
def FollowLine : List Token → Prop := Ends [')']
def FollowPipe : List Token → Prop := Ends ['&', ';', ')']
def FollowExec : List Token → Prop := Ends ['|', ')', '&', ';']
def FollowAmps (ts : List Token) : Prop := starts ['&'] ts = false
def FollowRedirs (ts : List Token) : Prop := starts ['<', '>'] ts = false

theorem Ends.of_subset {more : List Char} (ends : Ends toks ts) (subset : toks.all (more.contains ·) = true) :
    Ends more ts := by
  rcases ends with none | first
  · exact .inl none
  · obtain ⟨t, rest, d, rfl, known, listed⟩ := exists_of_starts first
    right
    rw [starts_cons, known]
    exact all_eq_true.mp subset d listed

theorem Ends.starts_eq_false {other : List Char} (ends : Ends toks ts)
    (disjoint : toks.all (!other.contains ·) = true) :
    starts other ts = false := by
  rcases ends with rfl | first
  · rfl
  · obtain ⟨t, rest, d, rfl, known, listed⟩ := exists_of_starts first
    rw [starts_cons, known]
    simpa using all_eq_true.mp disjoint d listed

theorem not_ends_cons (other : t.first.all (!toks.contains ·) = true) : ¬ Ends toks (t :: ts) := by
  rintro (none | first)
  · cases none
  · rw [starts_cons] at first
    cases known : t.first with
    | none =>
      rw [known] at first
      cases first
    | some d =>
      rw [known] at first other
      simp_all

end Follow

section Loops

theorem Redir.operator_inj {d d' : Direction} (same : Redir.operator d = Redir.operator d') : d = d' := by
  cases d <;> cases d' <;> first | rfl | cases same

theorem code_word (w : Word) : (Token.word w).code = 'a'.toUInt8 := rfl

theorem redirected_operator (d : Direction) (cmd : Cmd) (w : Word) :
    redirected (Redir.operator d).code cmd w = Redir.apply cmd ⟨d, w⟩ := by
  cases d <;> rfl

theorem yieldRedirs_cons (redir : Redir) (redirs : List Redir) :
    yieldRedirs (redir :: redirs) = Redir.operator redir.direction :: .word redir.file :: yieldRedirs redirs := rfl

theorem gettoken_not_word {s : ℕ} {fails : Fault → Prop} (here : At text s ts)
    (missing : ∀ w rest, ts ≠ .word w :: rest) :
    Ensures (gettoken text) s (fun r _ => r.1 ≠ 'a'.toUInt8) fails := by
  cases ts with
  | nil =>
    refine (gettoken_nil here).mono fun r s' after => ?_
    rw [after.1]
    decide
  | cons t rest =>
    refine (gettoken_cons here).mono fun r s' after => ?_
    rw [after.1]
    cases t with
    | word w => exact absurd rfl (missing w rest)
    | _ => decide

theorem parses_redirs (fuel : ℕ) (cmd : Cmd) (enough : ts.length < fuel) :
    Parses text (parseredirs text fuel cmd) ts yieldRedirs (fun redirs => redirs.foldl Redir.apply cmd)
    FollowRedirs := by
  induction fuel generalizing cmd ts with
  | zero => omega
  | succ fuel ih =>
    refine .peek (by decide) (fun first => ?_) fun other => ?_
    · obtain ⟨d, rest, rfl⟩ := starts_operator.mp first
      by_cases named : ∃ w rest', rest = .word w :: rest'
      · obtain ⟨w, rest, rfl⟩ := named
        have tail (cmd : Cmd) : Parses text (parseredirs text fuel cmd) rest yieldRedirs _ FollowRedirs :=
          ih cmd (by simp only [length_cons] at enough; omega)
        have whole : Parses text (do
            let tok ← gettoken text
            let file ← gettoken text
            if file.1 ≠ 'a'.toUInt8 then throw .missingFile
            else parseredirs text fuel (redirected tok.1 cmd file.2)) (Redir.operator d :: .word w :: rest)
            (fun redirs => Redir.operator d :: .word w :: yieldRedirs redirs)
            (fun redirs => redirs.foldl Redir.apply (Redir.apply cmd ⟨d, w⟩)) FollowRedirs := by
          refine .gettoken fun _ _ => .gettoken fun w' same => ?_
          obtain rfl := same w rfl
          simp only [code_word, ne_eq, not_true_eq_false, if_false, redirected_operator]
          exact tail _
        refine whole.map (fun redirs => ⟨d, w⟩ :: redirs) (fun _ => rfl) (fun _ => rfl) fun redirs r split allowed => ?_
        cases redirs with
        | nil =>
          obtain rfl : _ = r := split
          rw [FollowRedirs, first] at allowed
          cases allowed
        | cons redir redirs =>
          rw [yieldRedirs_cons] at split
          injection split with operator split
          injection split with file split
          injection file with file
          exact ⟨redirs, by rw [Redir.operator_inj operator, file]⟩
      · intro s here
        refine (gettoken_cons here).bind ?_
        rintro tok s' ⟨-, -, there⟩
        refine (gettoken_not_word there fun w rest' is => named ⟨w, rest', is⟩).bind ?_
        rintro file s'' bad
        rw [if_pos bad]
        refine .throw ⟨by decide, fun redirs r split allowed => ?_⟩
        cases redirs with
        | nil =>
          obtain rfl : _ = r := split
          rw [FollowRedirs, first] at allowed
          cases allowed
        | cons redir redirs =>
          rw [yieldRedirs_cons] at split
          injection split with operator split
          exact named ⟨_, _, split⟩
    · refine Recognises.pure.map (fun _ => []) (fun _ => rfl) (fun _ => rfl) fun redirs r split allowed => ?_
      cases redirs with
      | nil => exact ⟨(), rfl⟩
      | cons redir redirs =>
        rw [yieldRedirs_cons] at split
        rw [starts_operator.mpr ⟨_, _, split⟩] at other
        cases other

theorem parses_backs (fuel : ℕ) (cmd : Cmd) (enough : ts.length < fuel) :
    Parses text (parsebacks text fuel cmd) ts (fun amps => replicate amps .amp) (fun amps => Cmd.back^[amps] cmd)
    FollowAmps := by
  induction fuel generalizing cmd ts with
  | zero => omega
  | succ fuel ih =>
    refine .peek (by decide) (fun first => ?_) fun other => ?_
    · obtain ⟨rest, rfl⟩ := (starts_single (t := .amp) rfl (by decide)).mp first
      have tail : Parses text (parsebacks text fuel (.back cmd)) rest _ _ FollowAmps :=
        ih (.back cmd) (by simp only [length_cons] at enough; omega)
      have whole : Parses text (do
          let _ ← gettoken text
          parsebacks text fuel (.back cmd)) (.amp :: rest) (fun amps => .amp :: replicate amps .amp)
          (fun amps => Cmd.back^[amps] (.back cmd)) FollowAmps := .gettoken fun _ _ => tail
      refine whole.map (· + 1) (fun _ => rfl) (fun _ => rfl) fun amps r split allowed => ?_
      cases amps with
      | zero =>
        obtain rfl : _ = r := split
        rw [FollowAmps, first] at allowed
        cases allowed
      | succ amps => exact ⟨amps, rfl⟩
    · refine Recognises.pure.map (fun _ => 0) (fun _ => rfl) (fun _ => rfl) fun amps r split allowed => ?_
      cases amps with
      | zero => exact ⟨(), rfl⟩
      | succ amps =>
        rw [replicate_succ] at split
        rw [(starts_single (t := .amp) rfl (by decide)).mpr ⟨_, split⟩] at other
        cases other

/-- The arguments that may still come. -/
abbrev Args (argc : ℕ) := { args : List Arg // argc + args.length ≤ maxargs - 1 }

theorem storeArg_foldl (redirs : List Redir) (cmd : Cmd) (w : Word) :
    (redirs.foldl Redir.apply cmd).storeArg w = redirs.foldl Redir.apply (cmd.storeArg w) := by
  induction redirs generalizing cmd with
  | nil => rfl
  | cons redir redirs ih =>
    have one : (Redir.apply cmd redir).storeArg w = Redir.apply (cmd.storeArg w) redir := by
      unfold Redir.apply
      cases redir.direction <;> rfl
    rw [foldl_cons, foldl_cons, ih, one]

theorem followRedirs_args {args : List Arg} {r : List Token} (allowed : FollowExec r) :
    FollowRedirs (args.flatMap Arg.yield ++ r) := by
  cases args with
  | nil => exact allowed.starts_eq_false (by decide)
  | cons arg args => rfl

theorem parses_args (fuel argc : ℕ) (redirs : List Redir) (argv : List Word) (enough : ts.length < fuel)
    (room : argc ≤ maxargs - 1) :
    Parses text (parseargs text fuel argc (redirs.foldl Redir.apply (.exec argv))) ts
      (fun args : Args argc => args.val.flatMap Arg.yield)
      (fun args => (redirs ++ args.val.flatMap Prod.snd).foldl Redir.apply (.exec (argv ++ args.val.map Prod.fst)))
        FollowExec := by
  induction fuel generalizing argc redirs argv ts with
  | zero => omega
  | succ fuel ih =>
    have none (empty : ∀ w rest, ts ≠ .word w :: rest) :
        Parses text (pure (redirs.foldl Redir.apply (.exec argv))) ts (fun args : Args argc =>
          args.val.flatMap Arg.yield)
          (fun args => (redirs ++ args.val.flatMap Prod.snd).foldl Redir.apply (.exec (argv ++ args.val.map Prod.fst)))
            FollowExec := by
      refine Recognises.pure.map (fun _ => ⟨[], room⟩) (fun _ => rfl) (fun _ => by simp) ?_
      rintro ⟨args, few⟩ r split -
      cases args with
      | nil => exact ⟨(), rfl⟩
      | cons arg args => exact absurd split (empty _ _)
    refine .peek (by decide) (fun first => none fun w rest is => ?_) fun other => ?_
    · rw [is] at first
      cases first
    cases ts with
    | nil =>
      intro s here
      refine (gettoken_nil here).bind ?_
      rintro tok s' ⟨zero, there⟩
      rw [if_pos zero]
      exact none (fun _ _ is => by cases is) s' there
    | cons t rest =>
      -- no argument can be empty here
      have more {args : List Arg} {r : List Token} (split : t :: rest = args.flatMap Arg.yield ++
          r) (allowed : FollowExec r) :
          ∃ arg args', args = arg :: args' := by
        cases args with
        | nil =>
          obtain rfl : t :: rest = r := split
          rcases allowed with absurd | first
          · cases absurd
          · rw [first] at other
            cases other
        | cons arg args => exact ⟨arg, args, rfl⟩
      by_cases wordy : ∃ w, t = .word w
      · obtain ⟨w, rfl⟩ := wordy
        by_cases full : maxargs ≤ argc + 1
        · intro s here
          refine (gettoken_cons here).bind ?_
          rintro tok s' ⟨code, -, -⟩
          rw [code_word] at code
          rw [if_neg (by rw [code]; decide), if_neg (not_not.mpr code), if_pos full]
          refine .throw ⟨by decide, ?_⟩
          rintro ⟨args, few⟩ r split allowed
          obtain ⟨arg, args', rfl⟩ := more split allowed
          simp only [length_cons] at few
          omega
        · have shorter : rest.length < fuel := by
            simp only [length_cons] at enough
            omega
          have body (tok : UInt8 × Word) (code : tok.1 = 'a'.toUInt8) (word : tok.2 = w) : Parses text
              (if tok.1 = 0 then pure (redirs.foldl Redir.apply (.exec argv))
              else if tok.1 ≠ 'a'.toUInt8 then throw .badToken
              else if maxargs ≤ argc + 1 then throw .tooManyArgs
              else do
                let ret ← parseredirs text fuel ((redirs.foldl Redir.apply (.exec argv)).storeArg tok.2)
                parseargs text fuel (argc + 1) ret) rest
              (fun p : List Redir × Args (argc + 1) => yieldRedirs p.1 ++ p.2.val.flatMap Arg.yield)
              (fun p => (redirs ++ p.1 ++ p.2.val.flatMap Prod.snd).foldl Redir.apply
                (.exec (argv ++ [w] ++ p.2.val.map Prod.fst)))
              FollowExec := by
            rw [if_neg (by rw [code]; decide), if_neg (not_not.mpr code), if_neg full, word, storeArg_foldl]
            refine Recognises.seq (parses_redirs fuel _ shorter) (fun _ _ => followRedirs_args) fun rs mid reads => ?_
            rw [← foldl_append]
            exact ih (argc + 1) (redirs ++ rs) (argv ++ [w]) (Nat.lt_of_le_of_lt reads.length_le shorter) (by omega)
          refine Recognises.map (Parses.gettoken fun w' same => body (_, w') rfl (same w rfl))
            (fun p => ⟨(w, p.1) :: p.2.val, by have := p.2.property; simp only [length_cons]; omega⟩)
              (fun _ => rfl) ?_ ?_
          · intro p
            simp
          · rintro ⟨args, few⟩ r split allowed
            obtain ⟨arg, args', rfl⟩ := more split allowed
            injection split with first
            injection first with first
            simp only [length_cons] at few
            exact ⟨(arg.2, ⟨args', by omega⟩), by simp only [first]⟩
      · intro s here
        refine (gettoken_cons here).bind ?_
        rintro tok s' ⟨code, -, -⟩
        have notWord : t.code ≠ 'a'.toUInt8 := by
          cases t with
          | word w => exact absurd ⟨w, rfl⟩ wordy
          | _ => decide
        rw [if_neg (by rw [code]; exact code_ne_zero t), if_pos (by rwa [code])]
        refine .throw ⟨by decide, ?_⟩
        rintro ⟨args, few⟩ r split allowed
        obtain ⟨arg, args', rfl⟩ := more split allowed
        injection split with first
        exact wordy ⟨_, first⟩

end Loops

section Commands

/-- What a block has besides its opening parenthesis. -/
def yieldBlock (p : Line × List Redir) : List Token := .lparen :: (p.1.yield ++ .rparen :: yieldRedirs p.2)

theorem parses_block (enough : ts.length < fuel)
    (line : ∀ rest : List Token, rest.length < ts.length →
      Parses text (parseline text fuel) rest Line.yield Line.cmd FollowLine)
    (first : starts ['('] ts = true) :
    Parses text (parseblock text (fuel + 1)) ts yieldBlock (fun p => p.2.foldl Redir.apply p.1.cmd) FollowExec := by
  rw [parseblock]
  refine .peek (by decide) (fun _ => ?_) fun other => ?_
  · obtain ⟨rest, rfl⟩ := (starts_single (t := .lparen) rfl (by decide)).mp first
    have shorter : rest.length < fuel := by
      simp only [length_cons] at enough
      omega
    have redirs (mid : List Token) (cmd : Cmd) (le : mid.length ≤ rest.length) :
        Parses text (do
          if ← peek text [')'] then
            let _ ← gettoken text
            parseredirs text fuel cmd
          else throw .missingParen) mid (fun redirs => .rparen :: yieldRedirs redirs) (fun redirs =>
            redirs.foldl Redir.apply cmd)
          FollowExec := by
      refine .peek (by decide) (fun closed => ?_) fun other => ?_
      · obtain ⟨mid, rfl⟩ := (starts_single (t := .rparen) rfl (by decide)).mp closed
        simp only [length_cons] at le
        refine .gettoken fun _ _ => (parses_redirs fuel cmd (by omega)).weaken fun r allowed => ?_
        exact allowed.starts_eq_false (by decide)
      · refine .throw (by decide) fun redirs r split _ => ?_
        rw [(starts_single (t := .rparen) rfl (by decide)).mpr ⟨_, split⟩] at other
        cases other
    have inner : Parses text (do
        let cmd ← parseline text fuel
        if ← peek text [')'] then
          let _ ← gettoken text
          parseredirs text fuel cmd
        else throw .missingParen) rest (fun p : Line × List Redir => p.1.yield ++ .rparen :: yieldRedirs p.2)
        (fun p => p.2.foldl Redir.apply p.1.cmd) FollowExec := by
      have closes (u : List Redir) (r : List Token) (_ : FollowExec r) :
          FollowLine (.rparen :: yieldRedirs u ++ r) := .inr rfl
      refine Recognises.seq (line rest (Nat.lt_succ_self _)) closes fun l mid reads => ?_
      exact redirs mid _ reads.length_le
    exact .gettoken fun _ _ => inner
  · rw [first] at other
    cases other

theorem parses_exec (enough : ts.length < fuel) (block : starts ['('] ts = true →
      Parses text (parseblock text fuel) ts yieldBlock (fun p => p.2.foldl Redir.apply p.1.cmd) FollowExec) :
    Parses text (parseexec text (fuel + 1)) ts Exec.yield Exec.cmd FollowExec := by
  rw [parseexec]
  refine .peek (by decide) (fun first => ?_) fun other => ?_
  · refine (block first).map (fun p => .block p.1 p.2) (fun _ => by simp [yieldBlock, Exec.yield]) (fun _ => rfl) ?_
    rintro (⟨line, redirs⟩ | ⟨redirs, args, few⟩) r split allowed
    · exact ⟨(line, redirs), rfl⟩
    · obtain ⟨rest, rfl⟩ := (starts_single (t := .lparen) rfl (by decide)).mp first
      rw [Exec.yield] at split
      cases redirs with
      | nil =>
        cases args with
        | nil =>
          obtain rfl : _ = r := split
          exact absurd allowed (not_ends_cons (by decide))
        | cons arg args => cases split
      | cons redir redirs =>
        rw [yieldRedirs_cons] at split
        injection split with operator
        cases known : redir.direction <;> rw [known] at operator <;> cases operator
  · have simple : Parses text (do
        let ret ← parseredirs text fuel (.exec [])
        parseargs text fuel 0 ret) ts
        (fun p : List Redir × Args 0 => yieldRedirs p.1 ++ p.2.val.flatMap Arg.yield)
        (fun p => (p.1 ++ p.2.val.flatMap Prod.snd).foldl Redir.apply (.exec ([] ++ p.2.val.map Prod.fst)))
          FollowExec := by
      refine Recognises.seq (parses_redirs fuel _ enough) (fun _ _ => followRedirs_args) fun redirs mid reads => ?_
      exact parses_args fuel 0 redirs [] (Nat.lt_of_le_of_lt reads.length_le enough) (Nat.zero_le _)
    refine simple.map (fun p => .simple p.1 p.2.val (by have := p.2.property; omega)) (fun _ => by rw [Exec.yield])
      (fun _ => by rw [Exec.cmd, nil_append]) ?_
    rintro (⟨line, redirs⟩ | ⟨redirs, args, few⟩) r split allowed
    · rw [Exec.yield] at split
      rw [(starts_single (t := .lparen) rfl (by decide)).mpr ⟨_, split⟩] at other
      cases other
    · exact ⟨(redirs, ⟨args, by omega⟩), rfl⟩

/-- A separator and what it is followed by, or nothing. -/
def yieldAfter {α : Type} (t : Token) (yield : α → List Token) (rest : Option α) : List Token :=
  (rest.map fun x => t :: yield x).getD []

/-- A command, and perhaps a second one behind a separator. -/
theorem parses_after {α : Type} {yield : α → List Token} {value : α → Cmd} {right : Parser Cmd}
    {follow : List Char} (join : Cmd → Cmd → Cmd) (cmd : Cmd) (known : t.first = some d)
    (symbol : symbols.contains d = true)
    (single : d ≠ '>') (away : t.first.all (!follow.contains ·) = true)
    (later : ∀ rest : List Token, rest.length < ts.length → Parses text right rest yield value (Ends follow)) :
    Parses text (do
      if ← peek text [d] then
        let _ ← gettoken text
        let right ← right
        return join cmd right
      else return cmd) ts (yieldAfter t yield) (fun rest => (rest.map fun x => join cmd (value x)).getD cmd)
        (Ends follow) := by
  refine .peek (by simpa using symbol) (fun first => ?_) fun other => ?_
  · obtain ⟨rest, rfl⟩ := (starts_single known single).mp first
    have tail := (later rest (by simp)).bind_pure (g := join cmd)
    refine Recognises.map (Parses.gettoken fun _ _ => tail) some (fun _ => rfl) (fun _ => rfl)
      fun second r split allowed => ?_
    cases second with
    | none =>
      obtain rfl : _ = r := split
      exact absurd allowed (not_ends_cons away)
    | some x => exact ⟨x, rfl⟩
  · refine Recognises.pure.map (fun _ => none) (fun _ => rfl) (fun _ => rfl) fun second r split allowed => ?_
    cases second with
    | none => exact ⟨(), rfl⟩
    | some x =>
      rw [(starts_single known single).mpr ⟨_, split⟩] at other
      cases other

theorem parses_pipe (exec : Parses text (parseexec text fuel) ts Exec.yield Exec.cmd FollowExec)
    (pipe : ∀ rest : List Token, rest.length < ts.length →
      Parses text (parsepipe text fuel) rest Pipe.yield Pipe.cmd FollowPipe) :
    Parses text (parsepipe text (fuel + 1)) ts Pipe.yield Pipe.cmd FollowPipe := by
  rw [parsepipe]
  have compatible (u : Option Pipe) (r : List Token) (allowed : FollowPipe r) :
      FollowExec (yieldAfter .bar Pipe.yield u ++ r) := by
    cases u with
    | none => exact allowed.of_subset (by decide)
    | some pipe => exact .inr rfl
  have whole : Parses text (do
      let cmd ← parseexec text fuel
      if ← peek text ['|'] then
        let _ ← gettoken text
        let right ← parsepipe text fuel
        return .pipe cmd right
      else return cmd) ts (fun p : Exec × Option Pipe => p.1.yield ++ yieldAfter .bar Pipe.yield p.2)
      (fun p => (p.2.map fun pipe => .pipe p.1.cmd pipe.cmd).getD p.1.cmd) FollowPipe :=
    Recognises.seq exec compatible fun e mid reads =>
      parses_after .pipe e.cmd rfl rfl (by decide) (by decide) fun rest shorter =>
        pipe rest (Nat.lt_of_lt_of_le shorter reads.length_le)
  refine whole.map (fun p => p.2.elim (.last p.1) (.bar p.1)) ?_ ?_ ?_
  · rintro ⟨e, _ | pipe⟩
    · exact (append_nil _).symm
    · rfl
  · rintro ⟨e, _ | pipe⟩ <;> rfl
  · rintro (e | ⟨e, pipe⟩) r - -
    · exact ⟨(e, none), rfl⟩
    · exact ⟨(e, some pipe), rfl⟩

theorem parses_line (enough : ts.length < fuel)
    (pipe : Parses text (parsepipe text fuel) ts Pipe.yield Pipe.cmd FollowPipe)
    (line : ∀ rest : List Token, rest.length < ts.length →
      Parses text (parseline text fuel) rest Line.yield Line.cmd FollowLine) :
    Parses text (parseline text (fuel + 1)) ts Line.yield Line.cmd FollowLine := by
  rw [parseline]
  have afterAmps (u : Option Line) (r : List Token) (allowed : FollowLine r) :
      FollowAmps (yieldAfter .semi Line.yield u ++ r) := by
    cases u with
    | none => exact allowed.starts_eq_false (by decide)
    | some line => rfl
  have afterPipe (u : ℕ × Option Line) (r : List Token) (allowed : FollowLine r) :
      FollowPipe ((replicate u.1 Token.amp ++ yieldAfter .semi Line.yield u.2) ++ r) := by
    obtain ⟨_ | amps, _ | line⟩ := u
    · exact allowed.of_subset (by decide)
    · exact .inr rfl
    · exact .inr rfl
    · exact .inr rfl
  have tail (mid : List Token) (cmd : Cmd) (le : mid.length ≤ ts.length) : Parses text (do
      let cmd ← parsebacks text fuel cmd
      if ← peek text [';'] then
        let _ ← gettoken text
        let right ← parseline text fuel
        return .list cmd right
      else return cmd) mid (fun p : ℕ × Option Line => replicate p.1 .amp ++ yieldAfter .semi Line.yield p.2)
      (fun p => (p.2.map fun line => .list (Cmd.back^[p.1] cmd) line.cmd).getD (Cmd.back^[p.1] cmd)) FollowLine :=
    Recognises.seq (parses_backs fuel cmd (Nat.lt_of_le_of_lt le enough)) afterAmps
      fun amps last reads => parses_after .list _ rfl rfl (by decide) (by decide)
        fun rest shorter => line rest (Nat.lt_of_lt_of_le shorter (reads.length_le.trans le))
  have whole : Parses text (do
      let cmd ← parsepipe text fuel
      let cmd ← parsebacks text fuel cmd
      if ← peek text [';'] then
        let _ ← gettoken text
        let right ← parseline text fuel
        return .list cmd right
      else return cmd) ts
      (fun p : Pipe × ℕ × Option Line => p.1.yield ++ (replicate p.2.1 .amp ++ yieldAfter .semi Line.yield p.2.2))
      (fun p => (p.2.2.map fun line => .list (Cmd.back^[p.2.1] p.1.cmd) line.cmd).getD (Cmd.back^[p.2.1] p.1.cmd))
        FollowLine :=
    Recognises.seq pipe afterPipe fun p mid reads => tail mid p.cmd reads.length_le
  refine whole.map (fun p => p.2.2.elim (.last p.1 p.2.1) (.seq p.1 p.2.1)) ?_ ?_ ?_
  · rintro ⟨p, amps, _ | line⟩
    · simp [Line.yield, yieldAfter]
    · simp [Line.yield, yieldAfter]
  · rintro ⟨p, amps, _ | line⟩ <;> rfl
  · rintro (⟨p, amps⟩ | ⟨p, amps, line⟩) r - -
    · exact ⟨(p, amps, none), rfl⟩
    · exact ⟨(p, amps, some line), rfl⟩

/-- All functions at once, by induction on the fuel: each call has less of it, and four calls consume a token. -/
theorem parses_all (fuel : ℕ) :
    (∀ ts : List Token, 4 * ts.length + 4 ≤ fuel →
      Parses text (parseline text fuel) ts Line.yield Line.cmd FollowLine) ∧
    (∀ ts : List Token, 4 * ts.length + 3 ≤ fuel →
      Parses text (parsepipe text fuel) ts Pipe.yield Pipe.cmd FollowPipe) ∧
    (∀ ts : List Token, 4 * ts.length + 2 ≤ fuel →
      Parses text (parseexec text fuel) ts Exec.yield Exec.cmd FollowExec) ∧
    (∀ ts : List Token, 4 * ts.length + 1 ≤ fuel → starts ['('] ts = true →
      Parses text (parseblock text fuel) ts yieldBlock (fun p => p.2.foldl Redir.apply p.1.cmd) FollowExec) := by
  induction fuel with
  | zero => exact ⟨fun _ _ => by omega, fun _ _ => by omega, fun _ _ => by omega, fun _ _ => by omega⟩
  | succ fuel ih =>
    obtain ⟨line, pipe, exec, block⟩ := ih
    refine ⟨fun ts enough => ?_, fun ts enough => ?_, fun ts enough => ?_, fun ts enough first => ?_⟩
    · exact parses_line (by omega) (pipe ts (by omega)) fun rest shorter => line rest (by omega)
    · exact parses_pipe (exec ts (by omega)) fun rest shorter => pipe rest (by omega)
    · exact parses_exec (by omega) (block ts (by omega))
    · have some : ts ≠ [] := by
        rintro rfl
        cases first
      have := length_pos_iff.mpr some
      exact parses_block (by omega) (fun rest shorter => line rest (by omega)) first

end Commands

end Xv6.Shell
