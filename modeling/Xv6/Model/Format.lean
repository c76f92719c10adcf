import Mathlib.Data.Nat.Digits.Defs
import Xv6.Model.Printf

/-! # What a format means

A format is a list of directives: characters, conversions by their keywords, and unknown conversions, which stand for
themselves. A conversion takes at most one argument. Its output is a list of pieces, in which a digit is a number and
not yet a character, so that the two tables of digits do not matter here.
-/

namespace Xv6.Printf

/-- A part of the output. -/
inductive Piece where
  | byte (c : UInt8)
  | digit (d : Fin 16)
  | char (w : UInt32)
deriving DecidableEq, Repr

/-- A piece as the kernel hands it to `consputc`. -/
def Piece.toKernel (digits : Digits) : Piece → UInt32
  | .byte c => c.toUInt32
  | .digit d => (digits.get d).toUInt32
  | .char w => w

/-- A piece as a user program writes it. -/
def Piece.toUser (digits : Digits) : Piece → UInt8
  | .byte c => c
  | .digit d => digits.get d
  | .char w => w.toUInt8

inductive Conv where
  | int
  | long
  | uint
  | ulong
  | hex
  | lhex
  | ptr
  | char
  | str
  | percent
deriving DecidableEq, Repr

/-- The keywords behind a `%`. None of them begins another one. -/
def conversions : List (List UInt8 × Conv) :=
  [(ascii "d", .int), (ascii "ld", .long), (ascii "lld", .long), (ascii "u", .uint), (ascii "lu", .ulong),
    (ascii "llu", .ulong), (ascii "x", .hex), (ascii "lx", .lhex), (ascii "llx", .lhex), (ascii "p", .ptr),
    (ascii "c", .char), (ascii "s", .str), (ascii "%", .percent)]

def conversion? (rest : List UInt8) : Option (List UInt8 × Conv) :=
  conversions.find? fun entry => entry.1.isPrefixOf rest

inductive Directive where
  | byte (c : UInt8)
  | conv (c : Conv)
  | unknown (c : UInt8)
deriving DecidableEq, Repr

/-- The directives of a string, of which the first `skip` characters belong to a conversion in front of it. -/
def directives : (skip : ℕ) → List UInt8 → List Directive
  | _, [] => []
  | skip + 1, _ :: rest => directives skip rest
  | 0, c :: rest =>
    if c ≠ '%'.toUInt8 then .byte c :: directives 0 rest
    else
      match rest with
      | [] => []
      | c0 :: rest =>
        match conversion? (c0 :: rest) with
        | some (keyword, conv) => .conv conv :: directives (keyword.length - 1) rest
        | none => .unknown c0 :: directives 0 rest

/-- The canonical numeral of a number, most significant digit first. -/
def numeral (base n : ℕ) : List Piece :=
  (if n = 0 then [0] else Nat.digits base n).reverse.map fun d => .digit (index d)

/-- The numeral of an integer. -/
def signedNumeral (n : ℤ) : List Piece := (if n < 0 then [.byte '-'.toUInt8] else []) ++ numeral 10 n.natAbs

/-- All sixteen hexadecimal digits of an address. -/
def address (n : ℕ) : List Piece := (List.range 16).map fun i => .digit (index (n / 16 ^ (15 - i)))

/-- What a conversion makes of a number. -/
def Conv.ofWord (w : UInt64) : Conv → Option (List Piece)
  | .int => some (signedNumeral w.toUInt32.toInt32.toInt)
  | .long => some (signedNumeral w.toInt64.toInt)
  | .uint => some (numeral 10 w.toUInt32.toNat)
  | .ulong => some (numeral 10 w.toNat)
  | .hex => some (numeral 16 w.toUInt32.toNat)
  | .lhex => some (numeral 16 w.toNat)
  | .ptr => some ((ascii "0x").map .byte ++ address w.toNat)
  | .char => some [.char w.toUInt32]
  | .str => none
  | .percent => none

/-- The output of a conversion and the arguments that are left, if the next argument is of its kind. -/
def Conv.print (conv : Conv) (args : List Arg) : Option (List Piece × List Arg) :=
  match conv, args with
  | .percent, args => some ([.byte '%'.toUInt8], args)
  | .str, .str s :: args => some ((bytes (s.getD (ascii "(null)"))).map .byte, args)
  | conv, .word w :: args => (conv.ofWord w).map fun out => (out, args)
  | _, _ => none

/-- The output of a list of directives, if the arguments supply what they consume. -/
def print : List Directive → List Arg → Option (List Piece)
  | [], _ => some []
  | .byte c :: rest, args => (print rest args).map (.byte c :: ·)
  | .unknown c :: rest, args => (print rest args).map ([.byte '%'.toUInt8, .byte c] ++ ·)
  | .conv conv :: rest, args => (conv.print args).bind fun (out, args) => (print rest args).map (out ++ ·)

/-- What `printf(fmt, args...)` prints. -/
def output (fmt : List UInt8) (args : List Arg) : Option (List Piece) := print (directives 0 (bytes fmt)) args

end Xv6.Printf
