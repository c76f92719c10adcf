import Xv6.Machine.Links
import Xv6.Model.Fs.Bcache

/-! # The buffer cache with its pointers

The critical sections under `bcache.lock` with the list of the buffers as it is kept, by `next` and `prev` pointers
through `bcache.head`. A loop over the list could fail to come back to the head; it is given fuel for all buffers. What
is recorded next to the cache is when a buffer last lost its last reference.
-/

namespace Xv6.Fs.Bio

open Machine

/-- `&bcache.head`, or a buffer. -/
abbrev Node := Option (Fin nbuf)

structure Linked where
  buf : Fin nbuf → Buf
  links : Links Node

namespace Linked

inductive Stop where
  | noBuffers
  | endless
deriving DecidableEq, Repr

/-- The pointers may be anything before. -/
def binit (links : Links Node) : Linked where
  buf _ := ⟨0, 0, false, false, 0, Vector.replicate bsize 0⟩
  links := (List.finRange nbuf).foldl (fun links i => links.insert none (some i))
    ⟨Function.update links.next none none, Function.update links.prev none none⟩

def set (c : Linked) (i : Fin nbuf) (b : Buf) : Linked := { c with buf := Function.update c.buf i b }

/-- A loop over the list in the direction of one of the pointers. -/
def search (step : Node → Node) (test : Fin nbuf → Bool) : Except Stop (Option (Fin nbuf)) :=
  match Links.walk step none (Option.filter test) (nbuf + 1) (step none) with
  | some found => .ok found
  | none => .error .endless

def bget (c : Linked) (addr : Address) : Except Stop (Linked × Fin nbuf) := do
  match ← search c.links.next fun i => (c.buf i).dev = addr.dev ∧ (c.buf i).blockno = addr.blockno with
  | some i => return (c.set i { c.buf i with refcnt := (c.buf i).refcnt + 1 }, i)
  | none =>
    match ← search c.links.prev fun i => (c.buf i).refcnt = 0 with
    | some i =>
      return (c.set i { c.buf i with dev := addr.dev, blockno := addr.blockno, valid := false, refcnt := 1 }, i)
    | none => throw .noBuffers

def brelse (c : Linked) (i : Fin nbuf) : Linked :=
  let released := c.set i { c.buf i with refcnt := (c.buf i).refcnt - 1 }
  if (c.buf i).refcnt - 1 = 0 then
    { released with links := (released.links.unlink (some i)).insert none (some i) } else released

def bpin (c : Linked) (i : Fin nbuf) : Linked := c.set i { c.buf i with refcnt := (c.buf i).refcnt + 1 }

def bunpin (c : Linked) (i : Fin nbuf) : Linked := c.set i { c.buf i with refcnt := (c.buf i).refcnt - 1 }

end Linked

inductive ListOp where
  | bget (addr : Address)
  | brelse (i : Fin nbuf)
  | bpin (i : Fin nbuf)
  | bunpin (i : Fin nbuf)
deriving DecidableEq, Repr

/-- The cache, the number of calls so far, and the number of the call that last brought the count of a buffer to zero;
zero stands for none. -/
structure Released where
  cache : Linked
  clock : ℕ
  released : Fin nbuf → ℕ

namespace Released

def boot (links : Links Node) : Released := ⟨.binit links, 0, fun _ => 0⟩

/-- A call that takes a reference. -/
def take (s : Released) (cache : Linked) : Released := { s with cache, clock := s.clock + 1 }

/-- A call that gives one back. -/
def drop (s : Released) (i : Fin nbuf) (cache : Linked) : Released where
  cache := cache
  clock := s.clock + 1
  released := if (s.cache.buf i).refcnt - 1 = 0 then Function.update s.released i (s.clock + 1) else s.released

def step? (s : Released) : ListOp → Option Released
  | .bget addr =>
    match s.cache.bget addr with
    | .ok (cache, _) => some (s.take cache)
    | .error _ => none
  | .brelse i => some (s.drop i (s.cache.brelse i))
  | .bpin i => some (s.take (s.cache.bpin i))
  | .bunpin i => some (s.drop i (s.cache.bunpin i))

/-- `bunpin` does not drop the last reference. -/
def KeepsLast (s : Released) : ListOp → Prop
  | .bunpin i => (s.cache.buf i).refcnt - 1 ≠ 0
  | _ => True

/-- The last release of one buffer is later than that of another. Buffers never released come last, in the order in
which `binit` leaves them. -/
def Fresher (released : Fin nbuf → ℕ) (i j : Fin nbuf) : Prop :=
  released j < released i ∨ released i = 0 ∧ released j = 0 ∧ j < i

end Released

end Xv6.Fs.Bio
