import Xv6.Model.Fs.Inode

/-! # Reads and writes of open files

`fileread` and `filewrite` by the kind of the file. The in-memory inode of a file that is open stays valid
between the calls, so it is part of the file here. What a call finds in a pipe or in the console buffer is
an input: `none` stands for a process that is killed while it waits. The bytes that a read stores are
returned beside its result; of a write to a pipe or to the console only the result matters.
-/

namespace Xv6.Fs

inductive FdType where
  | none
  | pipe
  | inode
  | device
deriving DecidableEq, Repr

structure File where
  type : FdType
  readable : Bool
  writable : Bool
  ip : Inode
  off : UInt32
  major : Int16
deriving DecidableEq, Repr

def ndev : ℕ := 10
def console : Int16 := 1

inductive FilePanic where
  | fileread
  | filewrite
  | inode (e : Fault)
deriving DecidableEq, Repr

abbrev FileOp := StateT Store (Except FilePanic)

namespace File

/-- A call of an inode function. -/
def onInode {α : Type} (m : Op α) : FileOp α := fun s => (m.run s).mapError .inode

/-- The copy loop of `piperead` from byte `i` on, over what is in the pipe. -/
def pipereadLoop (dst : ℕ → Bool) (n : ℤ) : List UInt8 → (i : ℕ) → List UInt8 × ℤ
  | [], i => ([], i)
  | ch :: rest, i =>
    if i < n then
      if dst i then
        let (stored, r) := pipereadLoop dst n rest (i + 1)
        (ch :: stored, r)
      else ([], if i = 0 then -1 else i)
    else ([], i)

def piperead (pipe : Option (List UInt8)) (dst : ℕ → Bool) (n : ℤ) : List UInt8 × ℤ :=
  match pipe with
  | none => ([], -1)
  | some data => pipereadLoop dst n data 0

/-- `C('D')`. -/
def controlD : UInt8 := 4
def newline : UInt8 := 10

/-- The loop of `consoleread` with `n` bytes left, over the bytes that its rounds find in the buffer. -/
def consolereadLoop (input : ℕ → Option UInt8) (dst : ℕ → Bool) : (n : ℕ) → (done : ℕ) → List UInt8 × ℤ
  | 0, done => ([], done)
  | n + 1, done =>
    match input done with
    | none => ([], -1)
    | some c =>
      if c = controlD then ([], done)
      else if dst done then
        if c = newline then ([c], done + 1)
        else
          let (stored, r) := consolereadLoop input dst n (done + 1)
          (c :: stored, r)
      else ([], done)

/-- With `n` not positive there is no round, and `target - n` is zero. -/
def consoleread (input : ℕ → Option UInt8) (dst : ℕ → Bool) (n : ℤ) : List UInt8 × ℤ :=
  consolereadLoop input dst n.toNat 0

/-- The majors outside of `devsw`, or without a function there: only the console has any. -/
def noDevice (major : Int16) : Bool := major < 0 || major ≥ Int16.ofNat ndev || major ≠ console

/-- `readi` takes its count as a `uint`. -/
def fileread (sb : Superblock) (f : File) (pipe : Option (List UInt8)) (input : ℕ → Option UInt8) (dst : ℕ → Bool)
    (n : Int32) : FileOp (File × List UInt8 × ℤ) :=
  if f.readable = false then return (f, [], -1)
  else match f.type with
    | .pipe => return (f, piperead pipe dst n.toInt)
    | .device => return (f, if noDevice f.major then ([], -1) else consoleread input dst n.toInt)
    | .inode => do
      let (ip, stored, r) ← onInode (Op.readi sb f.ip dst f.off n.toUInt32)
      return ({ f with ip, off := if r > 0 then f.off + UInt32.ofNat r.toNat else f.off }, stored, r)
    | .none => throw .fileread

/-- The bytes that one transaction has room for. -/
def maxChunk : ℕ := (maxOpBlocks - 1 - 1 - 2) / 2 * bsize

/-- One round of the loop of `filewrite`, for `n1` bytes. -/
def chunk (sb : Superblock) (src : ℕ → Option UInt8) (ip : Inode) (off : UInt32) (n1 : ℕ) :
    Op (Inode × UInt32 × ℤ) := do
  let (ip, r) ← Op.writei sb ip src off (UInt32.ofNat n1)
  return (ip, if r > 0 then off + UInt32.ofNat r.toNat else off, r)

/-- The loop of `filewrite` from byte `i` on, with the value of `i` at the end. A round writes a byte at least. -/
def filewriteLoop (sb : Superblock) (src : ℕ → Option UInt8) (n : ℤ) : (fuel : ℕ) → Inode → (off : UInt32) → (i : ℕ) →
    Op (Inode × UInt32 × ℕ)
  | 0, ip, off, i => return (ip, off, i)
  | fuel + 1, ip, off, i =>
    if i < n then do
      let n1 := min (n - i).toNat maxChunk
      let (ip, off, r) ← chunk sb (fun k => src (i + k)) ip off n1
      if r ≠ n1 then return (ip, off, i)
      else filewriteLoop sb src n fuel ip off (i + n1)
    else return (ip, off, i)

/-- `other` is what `pipewrite` or `consolewrite` returns. -/
def filewrite (sb : Superblock) (f : File) (other : ℤ) (src : ℕ → Option UInt8) (n : Int32) : FileOp (File × ℤ) :=
  if f.writable = false then return (f, -1)
  else match f.type with
    | .pipe => return (f, other)
    | .device => return (f, if noDevice f.major then -1 else other)
    | .inode => do
      let (ip, off, i) ← onInode (filewriteLoop sb src n.toInt n.toInt.toNat f.ip f.off 0)
      return ({ f with ip, off }, if (i : ℤ) = n.toInt then n.toInt else -1)
    | .none => throw .filewrite

end File

namespace Shared

/-! One `struct file` that any number of processes write to. A chunk is one step: the lock of the inode is
held from the read of the offset to its update. -/

/-- A call of `filewrite`: its source, its count and the bytes of it that are written. -/
structure Call where
  src : ℕ → Option UInt8
  n : Int32
  i : ℕ

/-- The file, and the call that each process is in. -/
structure State where
  store : Store
  ip : Inode
  off : UInt32
  call : ℕ → Option Call

/-- A chunk of a call, from its byte `i` on. -/
structure Piece where
  pid : ℕ
  call : Call
  size : ℕ

def Piece.bytes (piece : Piece) : List UInt8 :=
  (List.range piece.size).map fun k => (piece.call.src (piece.call.i + k)).getD 0

/-- The steps, with the chunk that a step writes. Here no chunk fails. -/
inductive Step (sb : Superblock) : State → List Piece → State → Prop where
  | enter (st : State) (pid : ℕ) (src : ℕ → Option UInt8) (n : Int32) : st.call pid = none →
      Step sb st [] { st with call := Function.update st.call pid (some ⟨src, n, 0⟩) }
  | chunk (st : State) (pid : ℕ) (c : Call) (n1 : ℕ) (ip : Inode) (off : UInt32) (store : Store) :
    st.call pid = some c →
      c.i < c.n.toInt → n1 = min (c.n.toInt - c.i).toNat File.maxChunk →
      (File.chunk sb (fun k => c.src (c.i + k)) st.ip st.off n1).run st.store = .ok ((ip, off, (n1 : ℤ)), store) →
      Step sb st [⟨pid, c, n1⟩] ⟨store, ip, off, Function.update st.call pid (some { c with i := c.i + n1 })⟩
  | leave (st : State) (pid : ℕ) (c : Call) : st.call pid = some c → ¬ c.i < c.n.toInt →
      Step sb st [] { st with call := Function.update st.call pid none }

/-- Runs, with the chunks in the order in which the lock is taken. -/
inductive Run (sb : Superblock) : State → List Piece → State → Prop where
  | nil (st : State) : Run sb st [] st
  | snoc {st st' st'' : State} {l l' : List Piece} : Run sb st l st' → Step sb st' l' st'' → Run sb st (l ++ l') st''

end Shared

end Xv6.Fs
