import Mathlib.Data.Fin.Basic

/-! # The two `printf`

An embedding of `kernel/printf.c` and `user/printf.c`: the numbers, which both print through a buffer of 20 bytes, and
the loops over the format. The kernel scans with an index and looks ahead; the library of user programs keeps a state
between two characters. A call consumes the variadic arguments from a list. What the kernel hands to `consputc` are
values of type `int`; a user program writes bytes. Both stop at the first NUL, or at the end of the list, of a string.
-/

namespace Xv6.Printf

/-- A variadic argument: a value of at most 64 bits in its register, or a pointer to a string. -/
inductive Arg where
  | word (w : UInt64)
  | str (s : Option (List UInt8))
deriving DecidableEq, Repr

/-- What a call must not do: read an argument that is not there or is of another kind, or write past a buffer. -/
inductive Fault where
  | vaArg
  | overrun
  | fuel
deriving DecidableEq, Repr

/-- The next argument as a number. -/
def vaWord : List Arg → Except Fault (UInt64 × List Arg)
  | .word w :: args => .ok (w, args)
  | _ => .error .vaArg

/-- The next argument as a `char *`. -/
def vaStr : List Arg → Except Fault (Option (List UInt8) × List Arg)
  | .str s :: args => .ok (s, args)
  | _ => .error .vaArg

/-- `fmt[i] & 0xff`. -/
def charAt (fmt : List UInt8) (i : ℕ) : UInt8 := fmt.getD i 0

/-- The bytes of a C string. -/
def bytes (s : List UInt8) : List UInt8 := s.takeWhile (· ≠ 0)

def ascii (s : String) : List UInt8 := s.toList.map Char.toUInt8

/-- The characters of a table of digits. -/
abbrev Digits := Vector UInt8 16

/-- `digits[]` of `kernel/printf.c`. -/
def kernelDigits : Digits := #v[48, 49, 50, 51, 52, 53, 54, 55, 56, 57, 97, 98, 99, 100, 101, 102]

/-- `digits[]` of `user/printf.c`. -/
def userDigits : Digits := #v[48, 49, 50, 51, 52, 53, 54, 55, 56, 57, 65, 66, 67, 68, 69, 70]

/-- The index of a digit. -/
def index (n : ℕ) : Fin 16 := Fin.ofNat 16 n

/-- `char buf[20]`. -/
def bufSize : ℕ := 20

/-- The loop of `printint` that stores the digits of `x`, least significant first, into the rest of the buffer. -/
def storeDigits (digits : Digits) (base : UInt64) : (room : ℕ) → UInt64 → Except Fault (List UInt8)
  | 0, _ => .error .overrun
  | room + 1, x =>
    let digit := digits.get (index (x % base).toNat)
    if x / base ≠ 0 then (digit :: ·) <$> storeDigits digits base room (x / base)
    else .ok [digit]

/-- The buffer that either `printint` fills and then writes from its end. -/
def intBuffer (digits : Digits) (xx : Int64) (base : UInt64) (sign : Bool) : Except Fault (List UInt8) := do
  let neg := sign ∧ xx < 0
  let x := if neg then (-xx).toUInt64 else xx.toUInt64
  let buf ← storeDigits digits base bufSize x
  if neg then
    if buf.length < bufSize then return buf ++ ascii "-" else throw .overrun
  else return buf

/-- The loop of `printptr`. -/
def ptrDigits (digits : Digits) : ℕ → UInt64 → List UInt8
  | 0, _ => []
  | n + 1, x => digits.get (index (x >>> 60).toNat) :: ptrDigits digits n (x <<< 4)

namespace Kernel

/-- `printint`, with what it hands to `consputc`. -/
def printint (digits : Digits) (xx : Int64) (base : UInt64) (sign : Bool) : Except Fault (List UInt32) := do
  return (← intBuffer digits xx base sign).reverse.map UInt8.toUInt32

/-- `printptr`. -/
def printptr (digits : Digits) (x : UInt64) : List UInt32 := (ascii "0x" ++ ptrDigits digits 16 x).map UInt8.toUInt32

/-- The conversion behind a `%`: the output, the arguments that are left, and how far `i` moves on, if the loop does
not end. -/
def convert (digits : Digits) (c0 c1 c2 : UInt8) (args : List Arg) :
    Except Fault (List UInt32 × List Arg × Option ℕ) := do
  if c0 = 'd'.toUInt8 then
    let (w, args) ← vaWord args
    return (← printint digits w.toUInt32.toInt32.toInt64 10 true, args, some 0)
  else if c0 = 'l'.toUInt8 ∧ c1 = 'd'.toUInt8 then
    let (w, args) ← vaWord args
    return (← printint digits w.toInt64 10 true, args, some 1)
  else if c0 = 'l'.toUInt8 ∧ c1 = 'l'.toUInt8 ∧ c2 = 'd'.toUInt8 then
    let (w, args) ← vaWord args
    return (← printint digits w.toInt64 10 true, args, some 2)
  else if c0 = 'u'.toUInt8 then
    let (w, args) ← vaWord args
    return (← printint digits w.toUInt32.toUInt64.toInt64 10 false, args, some 0)
  else if c0 = 'l'.toUInt8 ∧ c1 = 'u'.toUInt8 then
    let (w, args) ← vaWord args
    return (← printint digits w.toInt64 10 false, args, some 1)
  else if c0 = 'l'.toUInt8 ∧ c1 = 'l'.toUInt8 ∧ c2 = 'u'.toUInt8 then
    let (w, args) ← vaWord args
    return (← printint digits w.toInt64 10 false, args, some 2)
  else if c0 = 'x'.toUInt8 then
    let (w, args) ← vaWord args
    return (← printint digits w.toUInt32.toUInt64.toInt64 16 false, args, some 0)
  else if c0 = 'l'.toUInt8 ∧ c1 = 'x'.toUInt8 then
    let (w, args) ← vaWord args
    return (← printint digits w.toInt64 16 false, args, some 1)
  else if c0 = 'l'.toUInt8 ∧ c1 = 'l'.toUInt8 ∧ c2 = 'x'.toUInt8 then
    let (w, args) ← vaWord args
    return (← printint digits w.toInt64 16 false, args, some 2)
  else if c0 = 'p'.toUInt8 then
    let (w, args) ← vaWord args
    return (printptr digits w, args, some 0)
  else if c0 = 'c'.toUInt8 then
    let (w, args) ← vaWord args
    return ([w.toUInt32], args, some 0)
  else if c0 = 's'.toUInt8 then
    let (s, args) ← vaStr args
    return ((bytes (s.getD (ascii "(null)"))).map UInt8.toUInt32, args, some 0)
  else if c0 = '%'.toUInt8 then
    return ([('%'.toUInt8).toUInt32], args, some 0)
  else if c0 = 0 then
    return ([], args, none)
  else
    return ([('%'.toUInt8).toUInt32, c0.toUInt32], args, some 0)

/-- The loop of `printf` from index `i` on. A round moves on by at least one, so that the length of the format bounds
their number. -/
def printfLoop (digits : Digits) (fmt : List UInt8) : (fuel i : ℕ) → List Arg → Except Fault (List UInt32)
  | 0, _, _ => .error .fuel
  | fuel + 1, i, args => do
    let cx := charAt fmt i
    if cx = 0 then return []
    else if cx ≠ '%'.toUInt8 then return cx.toUInt32 :: (← printfLoop digits fmt fuel (i + 1) args)
    else
      let i := i + 1
      let c0 := charAt fmt i
      let c1 := if c0 ≠ 0 then charAt fmt (i + 1) else 0
      let c2 := if c1 ≠ 0 then charAt fmt (i + 2) else 0
      let (out, args, more) ← convert digits c0 c1 c2 args
      match more with
      | some more => return out ++ (← printfLoop digits fmt fuel (i + more + 1) args)
      | none => return out

/-- The kernel's `printf`. -/
def printf (fmt : List UInt8) (args : List Arg) : Except Fault (List UInt32) :=
  printfLoop kernelDigits fmt (fmt.length + 1) 0 args

end Kernel

namespace User

/-- `printint`, with the bytes that it writes. -/
def printint (digits : Digits) (xx : Int64) (base : UInt64) (sgn : Bool) : Except Fault (List UInt8) := do
  return (← intBuffer digits xx base sgn).reverse

/-- `printptr`. -/
def printptr (digits : Digits) (x : UInt64) : List UInt8 := ascii "0x" ++ ptrDigits digits 16 x

/-- The conversion in the state `%`: the output, the arguments that are left, and how far `i` moves on. -/
def convert (digits : Digits) (c0 c1 c2 : UInt8) (args : List Arg) : Except Fault (List UInt8 × List Arg × ℕ) := do
  if c0 = 'd'.toUInt8 then
    let (w, args) ← vaWord args
    return (← printint digits w.toUInt32.toInt32.toInt64 10 true, args, 0)
  else if c0 = 'l'.toUInt8 ∧ c1 = 'd'.toUInt8 then
    let (w, args) ← vaWord args
    return (← printint digits w.toInt64 10 true, args, 1)
  else if c0 = 'l'.toUInt8 ∧ c1 = 'l'.toUInt8 ∧ c2 = 'd'.toUInt8 then
    let (w, args) ← vaWord args
    return (← printint digits w.toInt64 10 true, args, 2)
  else if c0 = 'u'.toUInt8 then
    let (w, args) ← vaWord args
    return (← printint digits w.toUInt32.toUInt64.toInt64 10 false, args, 0)
  else if c0 = 'l'.toUInt8 ∧ c1 = 'u'.toUInt8 then
    let (w, args) ← vaWord args
    return (← printint digits w.toInt64 10 false, args, 1)
  else if c0 = 'l'.toUInt8 ∧ c1 = 'l'.toUInt8 ∧ c2 = 'u'.toUInt8 then
    let (w, args) ← vaWord args
    return (← printint digits w.toInt64 10 false, args, 2)
  else if c0 = 'x'.toUInt8 then
    let (w, args) ← vaWord args
    return (← printint digits w.toUInt32.toUInt64.toInt64 16 false, args, 0)
  else if c0 = 'l'.toUInt8 ∧ c1 = 'x'.toUInt8 then
    let (w, args) ← vaWord args
    return (← printint digits w.toInt64 16 false, args, 1)
  else if c0 = 'l'.toUInt8 ∧ c1 = 'l'.toUInt8 ∧ c2 = 'x'.toUInt8 then
    let (w, args) ← vaWord args
    return (← printint digits w.toInt64 16 false, args, 2)
  else if c0 = 'p'.toUInt8 then
    let (w, args) ← vaWord args
    return (printptr digits w, args, 0)
  else if c0 = 'c'.toUInt8 then
    let (w, args) ← vaWord args
    return ([w.toUInt32.toUInt8], args, 0)
  else if c0 = 's'.toUInt8 then
    let (s, args) ← vaStr args
    return (bytes (s.getD (ascii "(null)")), args, 0)
  else if c0 = '%'.toUInt8 then
    return (['%'.toUInt8], args, 0)
  else
    return (['%'.toUInt8, c0], args, 0)

/-- The loop of `vprintf` from index `i` on, with its `state`. -/
def vprintfLoop (digits : Digits) (fmt : List UInt8) :
    (fuel i : ℕ) → (state : UInt8) → List Arg → Except Fault (List UInt8)
  | 0, _, _, _ => .error .fuel
  | fuel + 1, i, state, args => do
    let c0 := charAt fmt i
    if c0 = 0 then return []
    else if state = 0 then
      if c0 = '%'.toUInt8 then vprintfLoop digits fmt fuel (i + 1) '%'.toUInt8 args
      else return c0 :: (← vprintfLoop digits fmt fuel (i + 1) state args)
    else if state = '%'.toUInt8 then
      let c1 := if c0 ≠ 0 then charAt fmt (i + 1) else 0
      let c2 := if c1 ≠ 0 then charAt fmt (i + 2) else 0
      let (out, args, more) ← convert digits c0 c1 c2 args
      return out ++ (← vprintfLoop digits fmt fuel (i + more + 1) 0 args)
    else vprintfLoop digits fmt fuel (i + 1) state args

/-- The `vprintf` of user programs. -/
def vprintf (fmt : List UInt8) (args : List Arg) : Except Fault (List UInt8) :=
  vprintfLoop userDigits fmt (fmt.length + 1) 0 0 args

end User

end Xv6.Printf
