import Mathlib.Logic.Function.Basic
import Xv6.Model.Vm.Address
import Xv6.ToMathlib.VectorWord

/-! # Page tables in physical memory

The functions of `vm.c` on the words of page-table pages and the bytes of user pages. Memory is the contents
of its pages, by the address at which a page starts. Virtual addresses, physical addresses and sizes are
numbers below `2 ^ 64`; page-table entries are words. The free list is the list of its pages, and an
allocation may also fail because other processes have taken what is left.
-/

namespace Xv6.Sv39

open Vm (pgsize maxva px pgrounddown)

abbrev Page := Vector UInt8 4096

namespace Page

def filled (c : UInt8) : Page := Vector.replicate 4096 c

/-- The bytes from an offset on. -/
def slice (page : Page) (off len : ℕ) : List UInt8 := (page.toList.drop off).take len

def write (page : Page) (off : ℕ) (bytes : List UInt8) : Page :=
  Vector.ofFn fun k => if off ≤ k.val ∧ k.val < off + bytes.length then bytes.getD (k.val - off) 0 else page.get k

end Page

def phystop : ℕ := 0x80000000 + 128 * 1024 * 1024

inductive Panic where
  | kfree
  | walk
  | mappagesNotAligned
  | mappagesSizeNotAligned
  | mappagesSize
  | mappagesRemap
  | uvmunmapNotAligned
  | freewalkLeaf
  | uvmclear
  | loadsegAddress
  /-- the kernel uses a null pointer -/
  | kerneltrap
  /-- the kernel is in a loop that does not end -/
  | hang
deriving DecidableEq, Repr

/-- The next allocations are answered as `refusals` tells: `true` is a refusal. `kernelEnd` is the symbol
`end`. -/
structure Phys where
  ram : ℕ → Page
  freelist : List ℕ
  refusals : List Bool
  kernelEnd : ℕ

abbrev Mem := StateT Phys (Except Panic)

namespace Phys

def setPage (s : Phys) (pa : ℕ) (page : Page) : Phys := { s with ram := Function.update s.ram pa page }

def kalloc (s : Phys) : Option ℕ × Phys :=
  match s.refusals.head?, s.freelist with
  | some true, _ => (none, { s with refusals := s.refusals.tail })
  | _, [] => (none, { s with refusals := s.refusals.tail })
  | _, r :: next => (some r, { s with refusals := s.refusals.tail, freelist := next }.setPage r (.filled 5))

/-- The page is filled with junk and put in front of the list. -/
def kfree (s : Phys) (pa : ℕ) : Phys :=
  { s with freelist := pa :: s.freelist }.setPage pa ((Page.filled 1).setWord64 0 (UInt64.ofNat (s.freelist.headD 0)))

end Phys

def kalloc : Mem (Option ℕ) := modifyGet Phys.kalloc

def kfree (pa : ℕ) : Mem Unit := do
  let s ← get
  if pa % pgsize ≠ 0 ∨ pa < s.kernelEnd ∨ phystop ≤ pa then throw .kfree
  modify (·.kfree pa)

/-- `memset(pa, c, PGSIZE)`. -/
def memset (pa : ℕ) (c : UInt8) : Mem Unit := modify (·.setPage pa (.filled c))

/-! ## Page-table entries -/

def pteV : UInt64 := 1
def pteR : UInt64 := 2
def pteW : UInt64 := 4
def pteX : UInt64 := 8
def pteU : UInt64 := 16

def pa2pte (pa : ℕ) : UInt64 := (UInt64.ofNat pa >>> 12) <<< 10

def pte2pa (pte : UInt64) : ℕ := ((pte >>> 10) <<< 12).toNat

def pteFlags (pte : UInt64) : UInt64 := pte &&& 0x3FF

/-- A pointer to an entry of a page-table page. -/
structure PtePtr where
  table : ℕ
  index : Fin 512
deriving DecidableEq, Repr

def PtePtr.addr (pte : PtePtr) : ℕ := pte.table + 8 * pte.index.val

def Phys.load (s : Phys) (pte : PtePtr) : UInt64 := (s.ram pte.table).word64 pte.index

def Phys.store (s : Phys) (pte : PtePtr) (value : UInt64) : Phys :=
  s.setPage pte.table ((s.ram pte.table).setWord64 pte.index value)

def load (pte : PtePtr) : Mem UInt64 := do return (← get).load pte

def store (pte : PtePtr) (value : UInt64) : Mem Unit := modify (·.store pte value)

/-! ## Page tables -/

/-- One round of the loop of `walk`. -/
def descend (pagetable : ℕ) (i : Fin 512) (alloc : Bool) : Mem (Option ℕ) := do
  let pte ← load ⟨pagetable, i⟩
  if pte &&& pteV ≠ 0 then return some (pte2pa pte)
  if !alloc then return none
  match ← kalloc with
  | none => return none
  | some next => do
      memset next 0
      store ⟨pagetable, i⟩ (pa2pte next ||| pteV)
      return some next

def walk (pagetable va : ℕ) (alloc : Bool) : Mem (Option PtePtr) := do
  if maxva ≤ va then throw .walk
  match ← descend pagetable (px 2 va) alloc with
  | none => return none
  | some middle => do
      match ← descend middle (px 1 va) alloc with
      | none => return none
      | some low => return some ⟨low, px 0 va⟩

/-- The null pointer stands for failure. -/
def nonnull (pa : ℕ) : Option ℕ := if pa = 0 then none else some pa

def walkaddr (pagetable va : ℕ) : Mem (Option ℕ) := do
  if maxva ≤ va then return none
  match ← walk pagetable va false with
  | none => return none
  | some p => do
      let pte ← load p
      if pte &&& pteV = 0 then return none
      if pte &&& pteU = 0 then return none
      return nonnull (pte2pa pte)

/-- The loop of `mappages`. It goes on to `va + size - PGSIZE`; when that is not a virtual address, or has
wrapped around, the loop ends in the panic of `walk`. -/
def mappagesLoop (pagetable : ℕ) (perm : UInt64) (a pa : ℕ) : ℕ → Mem Bool
  | 0 => return true
  | rounds + 1 => do
      match ← walk pagetable a true with
      | none => return false
      | some p => do
          if (← load p) &&& pteV ≠ 0 then throw .mappagesRemap
          store p (pa2pte pa ||| perm ||| pteV)
          mappagesLoop pagetable perm (a + pgsize) (pa + pgsize) rounds

/-- False when a page-table page could not be allocated. -/
def mappages (pagetable va size pa : ℕ) (perm : UInt64) : Mem Bool := do
  if va % pgsize ≠ 0 then throw .mappagesNotAligned
  if size % pgsize ≠ 0 then throw .mappagesSizeNotAligned
  if size = 0 then throw .mappagesSize
  mappagesLoop pagetable perm va pa (size / pgsize)

def uvmunmapLoop (pagetable : ℕ) (doFree : Bool) (a : ℕ) : ℕ → Mem Unit
  | 0 => return
  | rounds + 1 => do
      match ← walk pagetable a false with
      | none => uvmunmapLoop pagetable doFree (a + pgsize) rounds
      | some p => do
          let pte ← load p
          if pte &&& pteV = 0 then return ← uvmunmapLoop pagetable doFree (a + pgsize) rounds
          if doFree then kfree (pte2pa pte)
          store p 0
          uvmunmapLoop pagetable doFree (a + pgsize) rounds

/-- The end of the range, `va + npages*PGSIZE`, may wrap around. -/
def uvmunmap (pagetable va npages : ℕ) (doFree : Bool) : Mem Unit := do
  if va % pgsize ≠ 0 then throw .uvmunmapNotAligned
  uvmunmapLoop pagetable doFree va (((va + npages * pgsize) % UInt64.size - va) / pgsize)

/-- The loop of `uvmcopy`; on failure it returns the address it has come to. -/
def uvmcopyLoop (old new : ℕ) (i : ℕ) : ℕ → Mem (Option ℕ)
  | 0 => return none
  | rounds + 1 => do
      match ← walk old i false with
      | none => uvmcopyLoop old new (i + pgsize) rounds
      | some p => do
          let pte ← load p
          if pte &&& pteV = 0 then return ← uvmcopyLoop old new (i + pgsize) rounds
          match ← kalloc with
          | none => return some i
          | some mem => do
              modify fun s => s.setPage mem (s.ram (pte2pa pte))
              if ← mappages new i pgsize mem (pteFlags pte) then uvmcopyLoop old new (i + pgsize) rounds
              else do
                kfree mem
                return some i

def uvmcopy (old new sz : ℕ) : Mem Bool := do
  match ← uvmcopyLoop old new 0 ((sz + pgsize - 1) / pgsize) with
  | none => return true
  | some i => do
      uvmunmap new 0 (i / pgsize) true
      return false

/-! ## Copies to and from user space -/

/-- The fields of `myproc()`. -/
structure Process where
  pagetable : ℕ
  sz : ℕ
deriving DecidableEq, Repr

def ismapped (pagetable va : ℕ) : Mem Bool := do
  match ← walk pagetable va false with
  | none => return false
  | some p => return (← load p) &&& pteV ≠ 0

/-- `vmfault` looks at the table it is given, and maps the page in that of the process. -/
def vmfault (proc : Process) (pagetable va : ℕ) : Mem (Option ℕ) := do
  if proc.sz ≤ va then return none
  let va := pgrounddown va
  if ← ismapped pagetable va then return none
  match ← kalloc with
  | none => return none
  | some mem => do
      memset mem 0
      if ← mappages proc.pagetable va pgsize mem (pteW ||| pteU ||| pteR) then return some mem
      else do
        kfree mem
        return none

/-- The page at `va0`, which may have to be allocated first. -/
def touch (proc : Process) (pagetable va0 : ℕ) : Mem (Option ℕ) := do
  match ← walkaddr pagetable va0 with
  | some pa0 => return some pa0
  | none => vmfault proc pagetable va0

/-- The loop of `copyout`. Every round copies a byte at least, so as many rounds as bytes are enough. -/
def copyoutLoop (proc : Process) (pagetable dstva : ℕ) (src : List UInt8) : ℕ → Mem Bool
  | 0 => return true
  | rounds + 1 => do
      if src.length = 0 then return true
      let va0 := pgrounddown dstva
      if maxva ≤ va0 then return false
      match ← touch proc pagetable va0 with
      | none => return false
      | some pa0 => do
          match ← walk pagetable va0 false with
          | none => throw .kerneltrap
          | some p => do
              if (← load p) &&& pteW = 0 then return false
              let n := min (pgsize - (dstva - va0)) src.length
              modify fun s => s.setPage pa0 ((s.ram pa0).write (dstva - va0) (src.take n))
              copyoutLoop proc pagetable (va0 + pgsize) (src.drop n) rounds

def copyout (proc : Process) (pagetable dstva : ℕ) (src : List UInt8) : Mem Bool :=
  copyoutLoop proc pagetable dstva src src.length

/-- The loop of `copyin`: the bytes that it has stored at `dst`, and whether it returns 0. -/
def copyinLoop (proc : Process) (pagetable srcva len : ℕ) : ℕ → Mem (List UInt8 × Bool)
  | 0 => return ([], true)
  | rounds + 1 => do
      if len = 0 then return ([], true)
      let va0 := pgrounddown srcva
      match ← touch proc pagetable va0 with
      | none => return ([], false)
      | some pa0 => do
          let n := min (pgsize - (srcva - va0)) len
          let bytes := ((← get).ram pa0).slice (srcva - va0) n
          let (rest, done) ← copyinLoop proc pagetable (va0 + pgsize) (len - n) rounds
          return (bytes ++ rest, done)

def copyin (proc : Process) (pagetable srcva len : ℕ) : Mem (List UInt8 × Bool) :=
  copyinLoop proc pagetable srcva len len

/-- The inner loop of `copyinstr`: the bytes up to the terminator, and whether there is one. -/
def copyString : List UInt8 → List UInt8 × Bool
  | [] => ([], false)
  | c :: rest => if c = 0 then ([0], true) else (c :: (copyString rest).1, (copyString rest).2)

/-- The loop of `copyinstr`: the bytes that it has stored at `dst`, and whether it returns 0. -/
def copyinstrLoop (pagetable srcva max : ℕ) : ℕ → Mem (List UInt8 × Bool)
  | 0 => return ([], false)
  | rounds + 1 => do
      if max = 0 then return ([], false)
      let va0 := pgrounddown srcva
      match ← walkaddr pagetable va0 with
      | none => return ([], false)
      | some pa0 => do
          let n := min (pgsize - (srcva - va0)) max
          let (bytes, gotNull) := copyString (((← get).ram pa0).slice (srcva - va0) n)
          if gotNull then return (bytes, true)
          let (rest, done) ← copyinstrLoop pagetable (va0 + pgsize) (max - n) rounds
          return (bytes ++ rest, done)

def copyinstr (pagetable srcva max : ℕ) : Mem (List UInt8 × Bool) := copyinstrLoop pagetable srcva max max

end Xv6.Sv39
