import Mathlib.Computability.Language
import Xv6.Model.User.Ulib

/-! # `grep`

An embedding of `user/grep.c`: the matcher on strings, which are lists of the bytes in front of the NUL, and the loop
over the input with its buffer. The number of bytes that a call of `read` returns is an input; it is at least one
unless the input is at its end or nothing is asked for. What a pattern is for is said in terms of formal languages.
-/

namespace Xv6.Grep

open Ulib

/-- The loop of `matchstar`, with what is called for the rest of the pattern. -/
def starLoop (c : UInt8) (here : List UInt8 → Bool) : List UInt8 → Bool
  | [] => here []
  | t :: text => here (t :: text) || (t = c || c = '.'.toUInt8) && starLoop c here text

/-- `matchhere`. A string has its NUL behind the last byte, so that a comparison with a byte past the end fails. -/
def matchhere : List UInt8 → List UInt8 → Bool
  | [], _ => true
  | [c], text =>
    if c = '$'.toUInt8 then text.isEmpty
    else
      match text with
      | [] => false
      | t :: _ => c = '.'.toUInt8 || c = t
  | c :: d :: re, text =>
    if d = '*'.toUInt8 then starLoop c (matchhere re) text
    else
      match text with
      | [] => false
      | t :: text => (c = '.'.toUInt8 || c = t) && matchhere (d :: re) text

/-- `matchstar`. -/
def matchstar (c : UInt8) (re text : List UInt8) : Bool := starLoop c (matchhere re) text

/-- The loop of `match`. -/
def matchLoop (re : List UInt8) : List UInt8 → Bool
  | [] => matchhere re []
  | t :: text => matchhere re (t :: text) || matchLoop re text

/-- `match`. -/
def matchText (re text : List UInt8) : Bool :=
  match re with
  | [] => matchLoop [] text
  | c :: rest => if c = '^'.toUInt8 then matchhere rest text else matchLoop (c :: rest) text

/-! ### The loop over the input -/

/-- `sizeof(buf)`. -/
def bufSize : ℕ := 1024

/-- A call of `read`: what it stores, and the input that is left. -/
def read (want request : ℕ) (input : List UInt8) : List UInt8 × List UInt8 :=
  input.splitAt (min (max 1 want) request)

/-- The inner loop: the lines that end in the buffer, from `p` on. The buffer has fewer lines than bytes. -/
def lines (pattern : List UInt8) : (bound : ℕ) → Memory → (p : ℕ) → Memory × ℕ × List UInt8
  | 0, buf, p => (buf, p, [])
  | bound + 1, buf, p =>
    match strchr buf '\n'.toUInt8 bufSize p with
    | none => (buf, p, [])
    | some q =>
      let buf := Function.update buf q 0
      if matchText pattern (string buf bufSize p) then
        let buf := Function.update buf q '\n'.toUInt8
        let (buf', p', out) := lines pattern bound buf (q + 1)
        (buf', p', slice buf p (q + 1 - p) ++ out)
      else lines pattern bound buf (q + 1)

/-- The outer loop of `grep`, with the number of bytes that each call of `read` is willing to return. -/
def loop (pattern : List UInt8) : (calls : ℕ) → (wants : ℕ → ℕ) → Memory → (m : ℕ) → (input : List UInt8) → List UInt8
  | 0, _, _, _, _ => []
  | calls + 1, wants, buf, m, input =>
    let (piece, input) := read (wants 0) (bufSize - m - 1) input
    if piece.length > 0 then
      let buf := store buf m piece
      let m := m + piece.length
      let buf := Function.update buf m 0
      let (buf, p, out) := lines pattern bufSize buf 0
      if m > 0 then out ++ loop pattern calls (fun i => wants (i + 1)) (memmove buf 0 p (m - p)) (m - p) input
      else out ++ loop pattern calls (fun i => wants (i + 1)) buf m input
    else []

/-- `grep` on an input, with what a former call has left in the buffer. Every call of `read` but the last takes some of
the input. -/
def grep (pattern : List UInt8) (wants : ℕ → ℕ) (buf : Memory) (input : List UInt8) : List UInt8 :=
  loop pattern (input.length + 1) wants buf 0 input

/-! ### What it is for -/

/-- What a character of a pattern stands for. -/
def Accepts (c t : UInt8) : Prop := c = '.'.toUInt8 ∨ c = t

inductive Item where
  | one (c : UInt8)
  | star (c : UInt8)
deriving DecidableEq, Repr

/-- The strings of one character that a character of a pattern stands for. -/
def single (c : UInt8) : Language UInt8 := fun w => ∃ t, Accepts c t ∧ w = [t]

open scoped Computability in
/-- The strings that an item stands for. -/
def Item.language : Item → Language UInt8
  | .one c => single c
  | .star c => (single c)∗

/-- The items of a pattern without its `^`, and whether it has a `$` at its end. -/
def body : List UInt8 → List Item × Bool
  | [] => ([], false)
  | [c] => if c = '$'.toUInt8 then ([], true) else ([.one c], false)
  | c :: d :: re =>
    if d = '*'.toUInt8 then (.star c :: (body re).1, (body re).2) else (.one c :: (body (d :: re)).1,
      (body (d :: re)).2)

/-- Some substring matches the items, at the end for a `$`. -/
def MatchesAt (re text : List UInt8) : Prop :=
  ∃ found after, text = found ++ after ∧ found ∈ ((body re).1.map Item.language).prod ∧
    ((body re).2 = true → after = [])

/-- What a pattern means: some substring matches its items, at the start for a `^` and at the end for a `$`. -/
def Matches (re text : List UInt8) : Prop :=
  ∃ before rest, text = before ++ rest ∧ (re.head? = some '^'.toUInt8 → before = []) ∧
    MatchesAt (if re.head? = some '^'.toUInt8 then re.tail else re) rest

/-- The lines of an input that end in a newline and match, each with its newline. -/
def report (pattern input : List UInt8) : List UInt8 :=
  ((input.splitOn '\n'.toUInt8).dropLast.filter (matchText pattern)).flatMap fun line => line ++ ['\n'.toUInt8]

end Xv6.Grep
