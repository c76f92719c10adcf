import Xv6.Model.User.Ulib

/-! # The parser of the shell

The functions of `sh.c` from `gettoken` to `nulterminate`. A pointer into the line is a position, and the NUL is
behind the last byte. Allocation succeeds. A loop or a recursion takes fuel, and running out of it is a fault
of its own.

The `execcmd` that `parseexec` fills lies at the bottom of the redirections put on top of it, so that a store
through its pointer is a change of that node. The unused places of `argv` are not modelled: the array is the
list of what has been stored.
-/

namespace Xv6.Shell

def maxargs : ℕ := 10

structure Text where
  bytes : List UInt8
  string : 0 ∉ bytes

namespace Text

/-- The position behind the last byte. -/
def es (text : Text) : ℕ := text.bytes.length

def char (text : Text) (s : ℕ) : UInt8 := text.bytes.getD s 0

end Text

def whitespace : List Char := [' ', '\t', '\r', '\n', '\x0b']
def symbols : List Char := ['<', '|', '>', '&', ';', '(', ')']

def strchr (chars : List Char) (c : UInt8) : Bool := chars.any fun d => d.toUInt8 == c

/-- The pointers to the first byte of a token and behind its last. -/
structure Word where
  q : ℕ
  eq : ℕ
deriving DecidableEq, Repr

inductive Cmd where
  | exec (argv : List Word)
  | redir (cmd : Cmd) (file : Word) (mode fd : ℕ)
  | pipe (left right : Cmd)
  | list (left right : Cmd)
  | back (cmd : Cmd)
deriving DecidableEq, Repr

inductive Fault where
  | leftovers
  | badToken
  | missingFile
  | missingParen
  | tooManyArgs
  | parseblock
  | outOfFuel
deriving DecidableEq, Repr

abbrev Parser := StateT ℕ (Except Fault)

section Tokens

variable (text : Text)

/-- `while(s < es && p(*s)) s++` -/
def skip (p : UInt8 → Bool) (s : ℕ) : ℕ :=
  if s < text.es ∧ p (text.char s) = true then skip p (s + 1) else s
termination_by text.es - s

def skipWhitespace (s : ℕ) : ℕ := skip text (strchr whitespace) s

def wordByte (c : UInt8) : Bool := !strchr whitespace c && !strchr symbols c

/-- The value that `gettoken` returns for the token at `s`, and where the token ends. -/
def scanToken (s : ℕ) : UInt8 × ℕ :=
  let c := text.char s
  if c = 0 then (c, s)
  else if strchr ['|', '(', ')', ';', '&', '<'] c then (c, s + 1)
  else if c = '>'.toUInt8 then
    if text.char (s + 1) = '>'.toUInt8 then ('+'.toUInt8, s + 2) else (c, s + 1)
  else ('a'.toUInt8, skip text wordByte s)

def gettoken : Parser (UInt8 × Word) :=
  modifyGet fun s =>
    let q := skipWhitespace text s
    let (ret, eq) := scanToken text q
    ((ret, ⟨q, eq⟩), skipWhitespace text eq)

def peek (toks : List Char) : Parser Bool :=
  modifyGet fun s =>
    let s := skipWhitespace text s
    (text.char s != 0 && strchr toks (text.char s), s)

end Tokens

section Commands

def oRdonly : ℕ := 0x000
def oWronly : ℕ := 0x001
def oCreate : ℕ := 0x200
def oTrunc : ℕ := 0x400

/-- `cmd->argv[argc] = q` and `cmd->eargv[argc] = eq`, for the `execcmd` below the redirections. -/
def Cmd.storeArg : Cmd → Word → Cmd
  | .exec argv, w => .exec (argv ++ [w])
  | .redir cmd file mode fd, w => .redir (cmd.storeArg w) file mode fd
  | cmd, _ => cmd

/-- The redirection for the value of an operator. -/
def redirected (tok : UInt8) (cmd : Cmd) (file : Word) : Cmd :=
  if tok = '<'.toUInt8 then .redir cmd file oRdonly 0
  else if tok = '>'.toUInt8 then .redir cmd file (oWronly ||| oCreate ||| oTrunc) 1
  else if tok = '+'.toUInt8 then .redir cmd file (oWronly ||| oCreate) 1
  else cmd

variable (text : Text)

def parseredirs : (fuel : ℕ) → Cmd → Parser Cmd
  | 0, _ => throw .outOfFuel
  | fuel + 1, cmd => do
    if ← peek text ['<', '>'] then
      let tok ← gettoken text
      let file ← gettoken text
      if file.1 ≠ 'a'.toUInt8 then throw .missingFile
      else parseredirs fuel (redirected tok.1 cmd file.2)
    else return cmd

/-- The loop of `parseexec`. -/
def parseargs : (fuel : ℕ) → (argc : ℕ) → (ret : Cmd) → Parser Cmd
  | 0, _, _ => throw .outOfFuel
  | fuel + 1, argc, ret => do
    if ← peek text ['|', ')', '&', ';'] then return ret
    else
      let tok ← gettoken text
      if tok.1 = 0 then return ret
      else if tok.1 ≠ 'a'.toUInt8 then throw .badToken
      else if maxargs ≤ argc + 1 then throw .tooManyArgs
      else
        let ret ← parseredirs text fuel (ret.storeArg tok.2)
        parseargs fuel (argc + 1) ret

/-- The loop of `parseline`. -/
def parsebacks : (fuel : ℕ) → Cmd → Parser Cmd
  | 0, _ => throw .outOfFuel
  | fuel + 1, cmd => do
    if ← peek text ['&'] then
      let _ ← gettoken text
      parsebacks fuel (.back cmd)
    else return cmd

mutual

def parseline : (fuel : ℕ) → Parser Cmd
  | 0 => throw .outOfFuel
  | fuel + 1 => do
    let cmd ← parsepipe fuel
    let cmd ← parsebacks text fuel cmd
    if ← peek text [';'] then
      let _ ← gettoken text
      let right ← parseline fuel
      return .list cmd right
    else return cmd

def parsepipe : (fuel : ℕ) → Parser Cmd
  | 0 => throw .outOfFuel
  | fuel + 1 => do
    let cmd ← parseexec fuel
    if ← peek text ['|'] then
      let _ ← gettoken text
      let right ← parsepipe fuel
      return .pipe cmd right
    else return cmd

def parseblock : (fuel : ℕ) → Parser Cmd
  | 0 => throw .outOfFuel
  | fuel + 1 => do
    if ← peek text ['('] then
      let _ ← gettoken text
      let cmd ← parseline fuel
      if ← peek text [')'] then
        let _ ← gettoken text
        parseredirs text fuel cmd
      else throw .missingParen
    else throw .parseblock

def parseexec : (fuel : ℕ) → Parser Cmd
  | 0 => throw .outOfFuel
  | fuel + 1 => do
    if ← peek text ['('] then parseblock fuel
    else
      let ret ← parseredirs text fuel (.exec [])
      parseargs text fuel 0 ret

end

/-- `parsecmd` up to the check for leftovers. -/
def parsewhole (fuel : ℕ) : Parser Cmd := do
  let cmd ← parseline text fuel
  let _ ← peek text []
  if (← get) ≠ text.es then throw .leftovers
  else return cmd

/-- `parsecmd` before `nulterminate`. -/
def parsecmd (fuel : ℕ) : Except Fault Cmd := ((parsewhole text fuel).run 0).map (·.1)

end Commands

section Termination

open Ulib

/-- `*eq = 0`, in the memory that has the line at an address. -/
def terminate (line : ℕ) (mem : Memory) (w : Word) : Memory := Function.update mem (line + w.eq) 0

def nulterminate (line : ℕ) : Cmd → Memory → Memory
  | .exec argv, mem => argv.foldl (terminate line) mem
  | .redir cmd file _ _, mem => terminate line (nulterminate line cmd mem) file
  | .pipe left right, mem => nulterminate line right (nulterminate line left mem)
  | .list left right, mem => nulterminate line right (nulterminate line left mem)
  | .back cmd, mem => nulterminate line cmd mem

/-- The words that a command keeps pointers to. -/
def Cmd.words : Cmd → List Word
  | .exec argv => argv
  | .redir cmd file _ _ => cmd.words ++ [file]
  | .pipe left right => left.words ++ right.words
  | .list left right => left.words ++ right.words
  | .back cmd => cmd.words

/-- The bytes of a word in the line that was read. -/
def Text.word (text : Text) (w : Word) : List UInt8 := (text.bytes.drop w.q).take (w.eq - w.q)

end Termination

end Xv6.Shell
