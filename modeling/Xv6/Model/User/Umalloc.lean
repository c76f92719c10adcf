import Mathlib.Algebra.Order.Ring.Int
import Xv6.Model.Vm.Address

/-! # The allocator of user programs

`user/umalloc.c` over the headers in memory, by their addresses. The system call moves the break by exactly what it is
asked for, which is an `int`; to grow may fail, and a shrink below address zero does nothing. The first write to what
`sbrk` returned is the only access that can be to a page that is not mapped: the headers on the free list are below it.
-/

namespace Xv6.Umalloc

open Vm (pgroundup)

structure Header where
  ptr : ℕ
  size : ℕ
deriving DecidableEq, Repr

/-- `sizeof(Header)` -/
def unit : ℕ := 16

/-- A null `freep` is zero. -/
structure Heap where
  header : ℕ → Header
  freep : ℕ
  brk : ℕ

inductive Stop where
  | fault
  | outOfFuel
deriving DecidableEq, Repr

namespace Heap

def next (h : Heap) (p : ℕ) : ℕ := (h.header p).ptr

def size (h : Heap) (p : ℕ) : ℕ := (h.header p).size

def setPtr (h : Heap) (p ptr : ℕ) : Heap := { h with header := Function.update h.header p { h.header p with ptr } }

/-- A store to a `uint`. -/
def setSize (h : Heap) (p size : ℕ) : Heap :=
  { h with header := Function.update h.header p { h.header p with size := size % 2 ^ 32 } }

/-- The loop of `free`. -/
def place (h : Heap) (bp : ℕ) : (fuel : ℕ) → (p : ℕ) → Except Stop ℕ
  | 0, _ => .error .outOfFuel
  | fuel + 1, p =>
    if p < bp ∧ bp < h.next p then .ok p
    else if h.next p ≤ p ∧ (p < bp ∨ bp < h.next p) then .ok p
    else h.place bp fuel (h.next p)

/-- The block points to the next one, or takes it in. -/
def linkNext (h : Heap) (bp p : ℕ) : Heap :=
  if bp + h.size bp * unit = h.next p then
    let h := h.setSize bp (h.size bp + h.size (h.next p))
    h.setPtr bp (h.next (h.next p))
  else h.setPtr bp (h.next p)

/-- The block before points to the block, or takes it in. -/
def linkPrev (h : Heap) (bp p : ℕ) : Heap :=
  if p + h.size p * unit = bp then
    let h := h.setSize p (h.size p + h.size bp)
    h.setPtr p (h.next bp)
  else h.setPtr p bp

def free (h : Heap) (fuel ap : ℕ) : Except Stop Heap := do
  let bp := ap - unit
  let p ← h.place bp fuel h.freep
  return { (h.linkNext bp p).linkPrev bp p with freep := p }

/-- A `size_t` that is passed as an `int`. -/
def toInt (n : ℕ) : ℤ := Int.bmod n (2 ^ 32)

def moveBrk (brk : ℕ) (n : ℤ) : ℕ := if 0 ≤ brk + n then (brk + n).toNat else brk

/-- What `morecore` asks for in place of a few units. -/
def atLeast (nu : ℕ) : ℕ := if nu < 4096 then 4096 else nu

/-- The break is moved, and the size of the new block is written behind the old break. -/
def extend (h : Heap) (n : ℤ) (nu : ℕ) : Heap := ({ h with brk := moveBrk h.brk n } : Heap).setSize h.brk nu

/-- `grant` says whether the process can grow. -/
def morecore (h : Heap) (grant : Bool) (fuel nu : ℕ) : Except Stop (Option ℕ × Heap) :=
  let nu := atLeast nu
  let n := toInt (nu * unit)
  if 0 < n ∧ grant = false then .ok (none, h)
  else if pgroundup (moveBrk h.brk n) < h.brk + 12 then .error .fault -- `hp->s.size` is bytes 8 to 11
  else do
    let h ← (h.extend n nu).free fuel (h.brk + unit)
    return (some h.freep, h)

/-- A block is found that is large enough. -/
def take (h : Heap) (nunits prevp p : ℕ) : Option ℕ × Heap :=
  if h.size p = nunits then (some (p + unit), { h.setPtr prevp (h.next p) with freep := prevp })
  else
    let h := h.setSize p (h.size p - nunits)
    let p := p + h.size p * unit
    (some (p + unit), { h.setSize p nunits with freep := prevp })

/-- The loop of `malloc`. -/
def mallocLoop (grant : Bool) (nunits : ℕ) : (fuel : ℕ) → (prevp p : ℕ) → Heap → Except Stop (Option ℕ × Heap)
  | 0, _, _, _ => .error .outOfFuel
  | fuel + 1, prevp, p, h =>
    if nunits ≤ h.size p then .ok (h.take nunits prevp p)
    else if p = h.freep then do
      let (p, h) ← h.morecore grant fuel nunits
      match p with
      | none => return (none, h)
      | some p => mallocLoop grant nunits fuel p (h.next p) h
    else mallocLoop grant nunits fuel p (h.next p) h

/-- The header and the bytes, in units. -/
def nunits (nbytes : UInt32) : ℕ := (nbytes.toNat + unit - 1) / unit + 1

/-- The first call makes a list of `base` alone. -/
def ready (h : Heap) (base : ℕ) : Heap :=
  if h.freep = 0 then { h with header := Function.update h.header base ⟨base, 0⟩, freep := base } else h

def malloc (h : Heap) (base : ℕ) (grant : Bool) (fuel : ℕ) (nbytes : UInt32) : Except Stop (Option ℕ × Heap) :=
  let h := h.ready base
  mallocLoop grant (nunits nbytes) fuel h.freep (h.next h.freep) h

end Heap

end Xv6.Umalloc
