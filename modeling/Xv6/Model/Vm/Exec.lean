import Xv6.Model.Vm.Sv39

/-! # Replacing the image of a process

`kexec` with what it calls, on the bytes of an executable file, the words of page-table pages and the bytes
of user pages. The file is what `readi` finds in it; the path is looked up by the caller. The strings of
`argv` are given without their terminators. The registers that `kexec` sets are words of the page of the
trapframe.
-/

namespace Xv6.Sv39

open Vm (pgsize maxva pgroundup userstack maxarg)

/-! ## Page tables -/

def uvmcreate : Mem (Option ℕ) := do
  match ← kalloc with
  | none => return none
  | some pagetable => do
      memset pagetable 0
      return some pagetable

def uvmdealloc (pagetable oldsz newsz : ℕ) : Mem ℕ := do
  if oldsz ≤ newsz then return oldsz
  if pgroundup newsz < pgroundup oldsz then
    uvmunmap pagetable (pgroundup newsz) ((pgroundup oldsz - pgroundup newsz) / pgsize) true
  return newsz

/-- The loop of `uvmalloc` from address `a` on; false when it has run out of memory, and has undone what it did
since `oldsz`. -/
def uvmallocLoop (pagetable oldsz a : ℕ) (xperm : UInt64) : ℕ → Mem Bool
  | 0 => return true
  | rounds + 1 => do
      match ← kalloc with
      | none => do
          let _ ← uvmdealloc pagetable a oldsz
          return false
      | some mem => do
          memset mem 0
          if ← mappages pagetable a pgsize mem (pteR ||| pteU ||| xperm) then
            uvmallocLoop pagetable oldsz (a + pgsize) xperm rounds
          else do
            kfree mem
            let _ ← uvmdealloc pagetable a oldsz
            return false

/-- The new size, or 0 on error. -/
def uvmalloc (pagetable oldsz newsz : ℕ) (xperm : UInt64) : Mem ℕ := do
  if newsz < oldsz then return oldsz
  let oldsz := pgroundup oldsz
  if ← uvmallocLoop pagetable oldsz oldsz xperm ((newsz - oldsz + pgsize - 1) / pgsize) then return newsz
  else return 0

/-- The indices of an array, in order. -/
@[irreducible] def indices (n : ℕ) : List (Fin n) := List.finRange n

/-- `freewalk` of a table with this many levels. Below the last level, the code would take a user page for a
table. -/
def freewalk : ℕ → ℕ → Mem Unit
  | 0, _ => throw .kerneltrap
  | levels + 1, pagetable => do
      (indices 512).forM fun i => do
        let pte ← load ⟨pagetable, i⟩
        if pte &&& pteV ≠ 0 ∧ pte &&& (pteR ||| pteW ||| pteX) = 0 then
          freewalk levels (pte2pa pte)
          store ⟨pagetable, i⟩ 0
        else if pte &&& pteV ≠ 0 then throw .freewalkLeaf
      kfree pagetable

def uvmfree (pagetable sz : ℕ) : Mem Unit := do
  if 0 < sz then uvmunmap pagetable 0 (pgroundup sz / pgsize) true
  freewalk 3 pagetable

def uvmclear (pagetable va : ℕ) : Mem Unit := do
  match ← walk pagetable va false with
  | none => throw .uvmclear
  | some p => do
      let pte ← load p
      store p (pte &&& ~~~pteU)

/-- The page table has the pages of the trampoline and of the trapframe. -/
def procPagetable (trampoline frame : ℕ) : Mem (Option ℕ) := do
  match ← uvmcreate with
  | none => return none
  | some pagetable => do
      if ← mappages pagetable Vm.trampoline pgsize trampoline (pteR ||| pteX) then
        if ← mappages pagetable Vm.trapframe pgsize frame (pteR ||| pteW) then return some pagetable
        else do
          uvmunmap pagetable Vm.trampoline 1 false
          uvmfree pagetable 0
          return none
      else do
        uvmfree pagetable 0
        return none

def procFreepagetable (pagetable sz : ℕ) : Mem Unit := do
  uvmunmap pagetable Vm.trampoline 1 false
  uvmunmap pagetable Vm.trapframe 1 false
  uvmfree pagetable sz

/-! ## Executable files -/

/-- `readi` into kernel memory: the bytes read. -/
def readi (file : List UInt8) (off n : UInt32) : List UInt8 :=
  if file.length < off.toNat ∨ off + n < off then [] else (file.drop off.toNat).take n.toNat

/-- The bytes of a little-endian number. -/
def le (bytes : List UInt8) : ℕ := bytes.foldr (fun b rest => b.toNat + 256 * rest) 0

/-- A field of a structure in memory. -/
def field (bytes : List UInt8) (off size : ℕ) : ℕ := le ((bytes.drop off).take size)

/-- `struct elfhdr`, of 64 bytes. -/
structure Elfhdr where
  magic : ℕ
  entry : ℕ
  phoff : ℕ
  phnum : ℕ
deriving DecidableEq, Repr

def Elfhdr.decode (bytes : List UInt8) : Elfhdr :=
  ⟨field bytes 0 4, field bytes 24 8, field bytes 32 8, field bytes 56 2⟩

def elfMagic : ℕ := 0x464C457F

/-- `struct proghdr`, of 56 bytes. -/
structure Proghdr where
  type : ℕ
  flags : ℕ
  off : ℕ
  vaddr : ℕ
  filesz : ℕ
  memsz : ℕ
deriving DecidableEq, Repr

def Proghdr.decode (bytes : List UInt8) : Proghdr :=
  ⟨field bytes 0 4, field bytes 4 4, field bytes 8 8, field bytes 16 8, field bytes 32 8, field bytes 40 8⟩

def elfProgLoad : ℕ := 1

def flags2perm (flags : ℕ) : UInt64 :=
  (if flags &&& 1 ≠ 0 then pteX else 0) ||| (if flags &&& 2 ≠ 0 then pteW else 0)

/-- The loop of `loadseg`. There are fewer than `rounds` values of `i`, so that a loop which has not ended by then
never ends. -/
def loadsegLoop (pagetable va : ℕ) (file : List UInt8) (offset sz i : UInt32) : (rounds : ℕ) → Mem Bool
  | 0 => throw .hang
  | rounds + 1 => do
      if sz ≤ i then return true
      match ← walkaddr pagetable ((va + i.toNat) % UInt64.size) with
      | none => throw .loadsegAddress
      | some pa => do
          let n := if sz - i < 4096 then sz - i else 4096
          let bytes := readi file (offset + i) n
          modify fun s => s.setPage pa ((s.ram pa).write 0 bytes)
          if bytes.length ≠ n.toNat then return false
          loadsegLoop pagetable va file offset sz (i + 4096) rounds

def loadseg (pagetable va : ℕ) (file : List UInt8) (offset sz : UInt32) : Mem Bool :=
  loadsegLoop pagetable va file offset sz 0 (2 ^ 20 + 1)

/-- The loop over the program headers, with the size so far; false is `goto bad`. -/
def loadSegments (pagetable : ℕ) (file : List UInt8) (off : UInt32) (sz : ℕ) : (headers : ℕ) → Mem (ℕ × Bool)
  | 0 => return (sz, true)
  | headers + 1 => do
      let bytes := readi file off 56
      if bytes.length ≠ 56 then return (sz, false)
      let ph := Proghdr.decode bytes
      if ph.type ≠ elfProgLoad then return ← loadSegments pagetable file (off + 56) sz headers
      if ph.memsz < ph.filesz then return (sz, false)
      if (ph.vaddr + ph.memsz) % UInt64.size < ph.vaddr then return (sz, false)
      if ph.vaddr % pgsize ≠ 0 then return (sz, false)
      let sz1 ← uvmalloc pagetable sz ((ph.vaddr + ph.memsz) % UInt64.size) (flags2perm ph.flags)
      if sz1 = 0 then return (sz, false)
      if ← loadseg pagetable ph.vaddr file (UInt32.ofNat ph.off) (UInt32.ofNat ph.filesz) then
        loadSegments pagetable file (off + 56) sz1 headers
      else return (sz1, false)

/-! ## The new stack -/

/-- The bytes of a word. -/
def wordBytes (value : ℕ) : List UInt8 := (List.range 8).map fun k => UInt8.ofNat (value / 256 ^ k)

/-- The loop that copies the argument strings, with the addresses in `ustack`; it returns them and the stack pointer,
unless it fails. -/
def pushArgs (proc : Process) (pagetable stackbase sp : ℕ) (ustack : List ℕ) :
    List (List UInt8) → Mem (Option (ℕ × List ℕ))
  | [] => return some (sp, ustack)
  | arg :: rest => do
      if maxarg ≤ ustack.length then return none
      let sp := Vm.push sp (arg.length + 1)
      if sp < stackbase then return none
      if ← copyout proc pagetable sp (arg ++ [0]) then pushArgs proc pagetable stackbase sp (ustack ++ [sp]) rest
      else return none

/-- The array of the arguments' addresses goes below the strings. -/
def pushUstack (proc : Process) (pagetable stackbase sp : ℕ) (ustack : List ℕ) : Mem (Option ℕ) := do
  let sp := Vm.push sp ((ustack.length + 1) * 8)
  if sp < stackbase then return none
  if ← copyout proc pagetable sp ((ustack ++ [0]).flatMap wordBytes) then return some sp else return none

/-- The stack with the arguments. It returns the size of the image, and the stack pointer unless it fails. -/
def buildStack (proc : Process) (pagetable sz : ℕ) (argv : List (List UInt8)) : Mem (ℕ × Option ℕ) := do
  let sz := pgroundup sz
  let sz1 ← uvmalloc pagetable sz (sz + (userstack + 1) * pgsize) pteW
  if sz1 = 0 then return (sz, none)
  uvmclear pagetable (sz1 - (userstack + 1) * pgsize)
  let stackbase := sz1 - userstack * pgsize
  match ← pushArgs proc pagetable stackbase sz1 [] argv with
  | none => return (sz1, none)
  | some (sp, ustack) => return (sz1, ← pushUstack proc pagetable stackbase sp ustack)

/-- The fields of `struct proc` that `kexec` sets, and the address of the page of the trapframe. -/
structure Proc extends Process where
  trapframe : ℕ
  name : List UInt8
deriving DecidableEq, Repr

/-- A store to a register of the trapframe. -/
def setRegister (frame : ℕ) (i : Fin 512) (value : ℕ) : Mem Unit := store ⟨frame, i⟩ (UInt64.ofNat value)

def epc : Fin 512 := 3
def sp : Fin 512 := 6
def a1 : Fin 512 := 15

/-- The part of the path after the last slash, as far as it fits into `p->name`. -/
def programName (path : List UInt8) : List UInt8 := (path.reverse.takeWhile (· ≠ 47)).reverse.take 15

/-- The process with its new image. -/
def commit (p : Proc) (path : List UInt8) (pagetable sz entry stack : ℕ) : Mem Proc := do
  setRegister p.trapframe a1 stack
  setRegister p.trapframe epc entry
  setRegister p.trapframe sp stack
  procFreepagetable p.pagetable p.sz
  return { p with pagetable, sz, name := programName path }

/-- The file is `none` when the path leads to no inode; `trampoline` is the address of the code of that name. -/
def kexec (trampoline : ℕ) (p : Proc) (path : List UInt8) (file : Option (List UInt8)) (argv : List (List UInt8)) :
    Mem (Proc × ℤ) := do
  match file with
  | none => return (p, -1)
  | some file => do
      let header := readi file 0 64
      if header.length ≠ 64 then return (p, -1)
      let elf := Elfhdr.decode header
      if elf.magic ≠ elfMagic then return (p, -1)
      match ← procPagetable trampoline p.trapframe with
      | none => return (p, -1)
      | some pagetable => do
          let (sz, loaded) ← loadSegments pagetable file (UInt32.ofNat elf.phoff) 0 elf.phnum
          if !loaded then
            procFreepagetable pagetable sz
            return (p, -1)
          let (sz, stack) ← buildStack p.toProcess pagetable sz argv
          match stack with
          | none => do
              procFreepagetable pagetable sz
              return (p, -1)
          | some stack => return (← commit p path pagetable sz elf.entry stack, argv.length)

end Xv6.Sv39
