import Mathlib.Logic.Function.Iterate
import Xv6.Model.User.Shell

/-! # The language of the shell

The tokens of a line and the grammar, with the command that a derivation stands for:

    line  -> pipe '&'* [';' line]
    pipe  -> exec ['|' pipe]
    exec  -> '(' line ')' redir* | redir* (word redir*)*
    redir -> ('<' | '>' | '>>') word

A derivation is a tree, so that two derivations of the same tokens can be compared.
-/

namespace Xv6.Shell

inductive Token where
  | bar
  | lparen
  | rparen
  | semi
  | amp
  | less
  | greater
  | append
  | word (w : Word)
deriving DecidableEq, Repr

/-- The tokens of one byte; `>` may be the first of two. -/
def oneByte (c : UInt8) : Option Token :=
  if c = '|'.toUInt8 then some .bar
  else if c = '('.toUInt8 then some .lparen
  else if c = ')'.toUInt8 then some .rparen
  else if c = ';'.toUInt8 then some .semi
  else if c = '&'.toUInt8 then some .amp
  else if c = '<'.toUInt8 then some .less
  else none

/-- The tokens of a line, the rest of which begins at a position. A word goes on to the next blank or symbol. -/
def tokenise (position : ℕ) : List UInt8 → List Token
  | [] => []
  | c :: rest =>
    if strchr whitespace c then tokenise (position + 1) rest
    else if c = '>'.toUInt8 then
      if rest.head? = some '>'.toUInt8 then .append :: tokenise (position + 2) rest.tail
      else .greater :: tokenise (position + 1) rest
    else
      match oneByte c with
      | some token => token :: tokenise (position + 1) rest
      | none =>
        let more := rest.takeWhile wordByte
        .word ⟨position, position + 1 + more.length⟩ :: tokenise (position + 1 + more.length) (rest.drop more.length)
termination_by bytes => bytes.length

def tokens (text : Text) : List Token := tokenise 0 text.bytes

inductive Direction where
  | input
  | output
  | append
deriving DecidableEq, Repr

structure Redir where
  direction : Direction
  file : Word
deriving DecidableEq, Repr

namespace Redir

def operator : Direction → Token
  | .input => .less
  | .output => .greater
  | .append => .append

def yield (redir : Redir) : List Token := [operator redir.direction, .word redir.file]

/-- The redirection of a command. -/
def apply (cmd : Cmd) (redir : Redir) : Cmd :=
  match redir.direction with
  | .input => .redir cmd redir.file oRdonly 0
  | .output => .redir cmd redir.file (oWronly ||| oCreate ||| oTrunc) 1
  | .append => .redir cmd redir.file (oWronly ||| oCreate) 1

end Redir

/-- A word with the redirections behind it. -/
abbrev Arg := Word × List Redir

def yieldRedirs (redirs : List Redir) : List Token := redirs.flatMap Redir.yield

def Arg.yield (arg : Arg) : List Token := .word arg.1 :: yieldRedirs arg.2

mutual

inductive Line where
  | last (first : Pipe) (amps : ℕ)
  | seq (first : Pipe) (amps : ℕ) (rest : Line)

inductive Pipe where
  | last (first : Exec)
  | bar (first : Exec) (rest : Pipe)

inductive Exec where
  | block (line : Line) (redirs : List Redir)
  | simple (redirs : List Redir) (args : List Arg) (few : args.length ≤ maxargs - 1)

end

mutual

def Line.yield : Line → List Token
  | .last first amps => first.yield ++ List.replicate amps .amp
  | .seq first amps rest => first.yield ++ List.replicate amps .amp ++ .semi :: rest.yield

def Pipe.yield : Pipe → List Token
  | .last first => first.yield
  | .bar first rest => first.yield ++ .bar :: rest.yield

def Exec.yield : Exec → List Token
  | .block line redirs => .lparen :: line.yield ++ .rparen :: yieldRedirs redirs
  | .simple redirs args _ => yieldRedirs redirs ++ args.flatMap Arg.yield

end

mutual

/-- The command of a derivation. -/
def Line.cmd : Line → Cmd
  | .last first amps => Cmd.back^[amps] first.cmd
  | .seq first amps rest => .list (Cmd.back^[amps] first.cmd) rest.cmd

def Pipe.cmd : Pipe → Cmd
  | .last first => first.cmd
  | .bar first rest => .pipe first.cmd rest.cmd

/-- The arguments are the words in order, and the redirections are applied in order. -/
def Exec.cmd : Exec → Cmd
  | .block line redirs => redirs.foldl Redir.apply line.cmd
  | .simple redirs args _ => (redirs ++ args.flatMap Prod.snd).foldl Redir.apply (.exec (args.map Prod.fst))

end

end Xv6.Shell
