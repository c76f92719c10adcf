import Mathlib.Dynamics.PeriodicPts.Defs
import Xv6.Model.User.Umalloc

/-! # What `malloc` hands out was obtained from `sbrk`

A program asks for memory and frees what it was given. The blocks on the free list and the ones that the program holds
stay inside the memory from the first break to the current one, until a request of 2 GiB and more has to be met by
`sbrk`. It is asked for as another number of bytes: `sbrk` then moves the break by 16 bytes at most, and `malloc` hands
out what is behind the break, unless the header of the new block is on a page that is not mapped.
-/

namespace Xv6.Umalloc

open Function Set
open Vm (pgroundup)

namespace Heap

variable {h h' : Heap} {base start p q prevp a b n fuel : ℕ} {grant : Bool} {S live live' : Set ℕ} {nbytes : UInt32}
  {r : Option ℕ} {m : ℤ}

-- arithmetic on large numbers, which no check should ever run
attribute [local irreducible] toInt moveBrk atLeast pgroundup

/-- No free block is large enough. -/
def Lacks (h : Heap) (n : ℕ) : Prop := ∀ k, h.size (h.next^[k] h.freep) < n

/-- The request has to be met by `sbrk`, but is not what `sbrk` is asked for. -/
def Misasked (h : Heap) (nbytes : UInt32) : Prop :=
  (h.freep = 0 ∨ h.Lacks (nunits nbytes)) ∧ 2 ^ 31 ≤ nunits nbytes * unit

/-- The bytes are memory from `sbrk`. -/
def Inside (h : Heap) (start p n : ℕ) : Prop := start ≤ p ∧ p + n ≤ h.brk

/-- The heaps of a program with the static header `base` and the first break `start`, and the blocks that it was given
and has not freed. It frees these only, writes to no header of a block and never lowers the break, and no misasked
request was met. -/
inductive Uses (base start : ℕ) : Heap → Set ℕ → Prop
  | fresh (header : ℕ → Header) (static : 0 < base ∧ base < start) : Uses base start ⟨header, 0, start⟩ ∅
  | malloc {h h' : Heap} {live : Set ℕ} {grant : Bool} {fuel : ℕ} {nbytes : UInt32} {r : Option ℕ}
    (uses : Uses base start h live) (proper : r = none ∨ ¬ h.Misasked nbytes)
    (ran : h.malloc base grant fuel nbytes = .ok (r, h')) :
    Uses base start h' (r.elim live fun a => insert (a - unit) live)
  | free {h h' : Heap} {live : Set ℕ} {b fuel : ℕ} (uses : Uses base start h live) (held : b ∈ live)
    (ran : h.free fuel (b + unit) = .ok h') : Uses base start h' (live \ {b})
  | work {h : Heap} {live : Set ℕ} (uses : Uses base start h live) (header : ℕ → Header) (brk : ℕ)
    (grown : h.brk ≤ brk) (own : ∀ b ∈ live, header b = h.header b)
    (list : h.freep ≠ 0 → ∀ k, header (h.next^[k] h.freep) = h.header (h.next^[k] h.freep)) :
    Uses base start ⟨header, h.freep, brk⟩ live

theorem ok_of_bind {α β : Type} {x : Except Stop α} {f : α → Except Stop β} {y : β} (ran : x >>= f = .ok y) :
    ∃ a, x = .ok a ∧ f a = .ok y := by
  cases x with
  | error stop => cases ran
  | ok a => exact ⟨a, rfl, ran⟩

section Fields

theorem setPtr_next : (h.setPtr p a).next = update h.next p a := comp_update Header.ptr h.header p _

theorem setPtr_size : (h.setPtr p a).size = h.size :=
  (comp_update Header.size h.header p _).trans (update_eq_self p _)

theorem setSize_next : (h.setSize p a).next = h.next :=
  (comp_update Header.ptr h.header p _).trans (update_eq_self p _)

theorem setSize_size : (h.setSize p a).size = update h.size p (a % 2 ^ 32) := comp_update Header.size h.header p _

theorem extend_next : (h.extend m n).next = h.next := setSize_next

theorem extend_size : (h.extend m n).size = update h.size h.brk (n % 2 ^ 32) := setSize_size

theorem linkNext_brk : (h.linkNext b p).brk = h.brk := by
  unfold linkNext
  split <;> rfl

theorem linkPrev_brk : (h.linkPrev b p).brk = h.brk := by
  unfold linkPrev
  split <;> rfl

theorem linkPrev_next : (h.linkPrev b p).next = update h.next p (if p + h.size p * unit = b then h.next b else b) := by
  unfold linkPrev
  split <;> simp only [setPtr_next, setSize_next]

theorem linkPrev_size : (h.linkPrev b p).size =
    if p + h.size p * unit = b then update h.size p ((h.size p + h.size b) % 2 ^ 32) else h.size := by
  unfold linkPrev
  split <;> simp only [setPtr_size, setSize_size]

theorem take_snd_brk : (h.take n prevp p).2.brk = h.brk := by
  unfold take
  split <;> rfl

theorem nunits_bounds (nbytes : UInt32) :
    nbytes.toNat + unit ≤ nunits nbytes * unit ∧ 0 < nunits nbytes ∧ nunits nbytes ≤ 2 ^ 28 + 1 := by
  have := nbytes.toNat_lt
  unfold nunits unit
  omega

end Fields

section Freeing

variable (closed : MapsTo h.next S S)
include closed

theorem place_mem (member : p ∈ S) (placed : h.place b fuel p = .ok q) : q ∈ S := by
  induction fuel generalizing p with
  | zero => cases placed
  | succ fuel ih =>
    rw [place] at placed
    split_ifs at placed
    · cases placed
      exact member
    · cases placed
      exact member
    · exact ih (closed member) placed

/-- The block is put behind a block of the list. -/
theorem free_ok (member : h.freep ∈ S) (ran : h.free fuel (b + unit) = .ok h') :
    ∃ q ∈ S, { (h.linkNext b q).linkPrev b q with freep := q } = h' := by
  unfold free at ran
  simp only [Nat.add_sub_cancel] at ran
  obtain ⟨q, placed, made⟩ := ok_of_bind ran
  exact ⟨q, place_mem closed member placed, Except.ok.inj made⟩

end Freeing

/-- A block of the memory from `sbrk`, or the first header of the list, which is not. -/
def Node (h : Heap) (base start p : ℕ) : Prop :=
  p = base ∧ h.size p = 0 ∨ start ≤ p ∧ p < h.brk ∧ p + h.size p * unit ≤ h.brk

/-- The free list stays in `S`, and its blocks and those that the program holds are in the memory from `sbrk`. -/
structure Formed (h : Heap) (base start : ℕ) (S live : Set ℕ) : Prop where
  header : 0 < base ∧ base < start
  first : start ≤ h.brk
  freep : h.freep ∈ S
  next : MapsTo h.next S S
  given : ∀ p ∈ live, start ≤ p
  node : ∀ p ∈ S ∪ live, h.Node base start p

/-- What `malloc` leaves, and the block that it returns. -/
def Served (h : Heap) (base start : ℕ) (live : Set ℕ) (n : ℕ) : Option ℕ → Prop
  | none => ∃ S, h.Formed base start S live
  | some a => ∃ b S, a = b + unit ∧ b + n * unit ≤ h.brk ∧ h.Formed base start S (insert b live)

namespace Formed

section

variable (formed : h.Formed base start S live)
include formed

theorem below_brk (member : p ∈ S ∪ live) : p < h.brk := by
  obtain ⟨rfl, -⟩ | ⟨-, high, -⟩ := formed.node p member
  · exact formed.header.2.trans_le formed.first
  · exact high

theorem block (member : p ∈ S ∪ live) (low : start ≤ p) : p + h.size p * unit ≤ h.brk := by
  obtain ⟨rfl, -⟩ | ⟨-, -, whole⟩ := formed.node p member
  · exact absurd formed.header.2 (Nat.not_lt.mpr low)
  · exact whole

/-- The part of the list that can be reached. -/
theorem orbit : h.Formed base start (range fun k => h.next^[k] h.freep) live where
  header := formed.header
  first := formed.first
  freep := ⟨0, rfl⟩
  next := by
    rintro _ ⟨k, rfl⟩
    exact ⟨k + 1, iterate_succ_apply' ..⟩
  given := formed.given
  node := by
    rintro _ (⟨k, rfl⟩ | held)
    · exact formed.node _ (.inl (formed.next.iterate k formed.freep))
    · exact formed.node _ (.inr held)

theorem congr (brk : h.brk ≤ h'.brk) (freep : h'.freep = h.freep) (next : ∀ p ∈ S, h'.next p = h.next p)
    (size : ∀ p ∈ S ∪ live, h'.size p = h.size p) : h'.Formed base start S live where
  header := formed.header
  first := formed.first.trans brk
  freep := freep ▸ formed.freep
  next p member := next p member ▸ formed.next member
  given := formed.given
  node p member := by
    rw [Node, size p member]
    obtain static | ⟨low, high, whole⟩ := formed.node p member
    · exact .inl static
    · exact .inr ⟨low, high.trans_le brk, whole.trans brk⟩

theorem setFreep (member : q ∈ S) : ({ h with freep := q } : Heap).Formed base start S live :=
  { formed with freep := member }

theorem setPtr (target : a ∈ S) : (h.setPtr p a).Formed base start S live :=
  { formed with
    next := fun q member => by
      rw [setPtr_next, update_apply]
      split_ifs
      · exact target
      · exact formed.next member
    node := fun q member => by
      rw [Node, setPtr_size]
      exact formed.node q member }

theorem setSize (low : start ≤ p) (high : p < h.brk) (fits : p + a * unit ≤ h.brk) :
    (h.setSize p a).Formed base start S live :=
  { formed with
    next := by
      rw [setSize_next]
      exact formed.next
    node := fun q member => by
      rw [Node, setSize_size, update_apply]
      split_ifs with here
      · subst here
        have less := Nat.mul_le_mul_right unit (Nat.mod_le a (2 ^ 32))
        exact .inr ⟨low, high, (Nat.add_le_add_left less _).trans fits⟩
      · exact formed.node q member }

theorem give (low : start ≤ b) (high : b < h.brk) (fits : b + h.size b * unit ≤ h.brk) :
    h.Formed base start S (insert b live) :=
  { formed with
    given := forall_mem_insert.mpr ⟨low, formed.given⟩
    node := by
      rintro p (member | rfl | member)
      · exact formed.node p (.inl member)
      · exact .inr ⟨low, high, fits⟩
      · exact formed.node p (.inr member) }

/-- A block is cut off, or made of new memory, and handed out. -/
theorem carve (low : start ≤ b) (high : b < h.brk) (fits : b + a * unit ≤ h.brk) :
    (h.setSize b a).Formed base start S (insert b live) := by
  refine (formed.setSize low high fits).give low high ?_
  rw [setSize_size, update_self]
  exact (Nat.add_le_add_left (Nat.mul_le_mul_right unit (Nat.mod_le ..)) _).trans fits

theorem drop (fewer : live' ⊆ live) : h.Formed base start S live' :=
  { formed with
    given := fun p member => formed.given p (fewer member)
    node := fun p member => formed.node p (member.imp_right (@fewer p)) }

theorem point (held : b ∈ live) (target : a ∈ S) : (h.setPtr b a).Formed base start (insert b S) live :=
  { formed.setPtr (p := b) target with
    freep := .inr formed.freep
    next := by
      rintro p (rfl | member)
      · rw [setPtr_next, update_self]
        exact .inr target
      · exact .inr ((formed.setPtr target).next member)
    node := by
      rintro p ((rfl | member) | member)
      · exact (formed.setPtr target).node p (.inr held)
      · exact (formed.setPtr target).node p (.inl member)
      · exact (formed.setPtr target).node p (.inr member) }

/-- A block takes in the one behind it. -/
theorem merge (first : p ∈ S ∪ live) (second : q ∈ S ∪ live) (low : start ≤ q) (adjacent : p + h.size p * unit = q) :
    (h.setSize p (h.size p + h.size q)).Formed base start S live := by
  have whole := formed.block second low
  obtain ⟨rfl, empty⟩ | ⟨low, high, -⟩ := formed.node p first
  · have := formed.header
    rw [empty] at adjacent
    omega
  · refine formed.setSize low high ?_
    unfold unit at *
    omega

theorem linkNext (held : b ∈ live) (member : q ∈ S) : (h.linkNext b q).Formed base start (insert b S) live := by
  have following := formed.next member
  have low := formed.given b held
  unfold Heap.linkNext
  split
  · next adjacent =>
    refine (formed.merge (.inr held) (.inl following) (by omega) adjacent).point held ?_
    rw [setSize_next]
    exact formed.next following
  · exact formed.point held following

theorem linkPrev (held : b ∈ live) (listed : b ∈ S) (member : q ∈ S) : (h.linkPrev b q).Formed base start S live := by
  unfold Heap.linkPrev
  split
  · next adjacent =>
    refine (formed.merge (.inl member) (.inr held) (formed.given b held) adjacent).setPtr ?_
    rw [setSize_next]
    exact formed.next listed
  · exact formed.setPtr listed

theorem free (held : b ∈ live) (ran : h.free fuel (b + unit) = .ok h') : h'.Formed base start (insert b S) live := by
  obtain ⟨q, member, rfl⟩ := free_ok formed.next formed.freep ran
  have linked := (formed.linkNext held member).linkPrev held (mem_insert b S) (mem_insert_of_mem b member)
  exact linked.setFreep (mem_insert_of_mem b member)

/-- The memory up to the new break becomes a block. -/
theorem extend (grown : h.brk < moveBrk h.brk m) (covers : h.brk + n * unit ≤ moveBrk h.brk m) :
    (h.extend m n).Formed base start S (insert h.brk live) := by
  have wider : ({ h with brk := moveBrk h.brk m } : Heap).Formed base start S live :=
    formed.congr grown.le rfl (fun _ _ => rfl) fun _ _ => rfl
  exact wider.carve formed.first grown covers

end

/-- The block that the search has found is taken off the list, or its end is. -/
theorem take (formed : h.Formed base start S live) (member : prevp ∈ S) (next : h.next prevp = p) (positive : 0 < n)
    (large : n ≤ h.size p) : (h.take n prevp p).2.Served base start live n (h.take n prevp p).1 := by
  have found : p ∈ S := next ▸ formed.next member
  obtain ⟨-, empty⟩ | ⟨low, high, whole⟩ := formed.node p (.inl found)
  · omega
  unfold Heap.take
  split
  · next exact =>
    refine ⟨p, S, rfl, exact ▸ whole, ((formed.setPtr (formed.next found)).give low high ?_).setFreep member⟩
    rw [setPtr_size]
    exact whole
  · set b := p + (h.setSize p (h.size p - n)).size p * unit with cut
    have rest : b + n * unit ≤ p + h.size p * unit := by
      have := Nat.mod_le (h.size p - n) (2 ^ 32)
      rw [cut, setSize_size, update_self]
      unfold unit
      omega
    have inside : b < h.brk := by
      unfold unit at *
      omega
    have above : start ≤ b := low.trans (Nat.le_add_right ..)
    have smaller := formed.setSize (a := h.size p - n) low high (by unfold unit at *; omega)
    exact ⟨b, S, rfl, rest.trans whole, (smaller.carve above inside (rest.trans whole)).setFreep member⟩

end Formed

structure WellFormed (h : Heap) (base start : ℕ) (live : Set ℕ) : Prop where
  header : 0 < base ∧ base < start
  first : start ≤ h.brk
  list : h.freep = 0 ∧ live = ∅ ∨ ∃ S, h.Formed base start S live

theorem Formed.wellFormed (formed : h.Formed base start S live) : h.WellFormed base start live :=
  ⟨formed.header, formed.first, .inr ⟨S, formed⟩⟩

theorem Formed.freep_ne_zero (formed : h.Formed base start S live) : h.freep ≠ 0 := by
  have := formed.header
  obtain ⟨same, -⟩ | ⟨low, -⟩ := formed.node h.freep (.inl formed.freep)
  · omega
  · omega

theorem ready_brk (h : Heap) (base : ℕ) : (h.ready base).brk = h.brk := by
  unfold ready
  split <;> rfl

/-- The first call makes a list of the static header alone, which has no units. -/
theorem WellFormed.ready (formed : h.WellFormed base start live) (positive : 0 < n) :
    (∃ S, (h.ready base).Formed base start S live) ∧ (h.freep = 0 ∨ h.Lacks n ↔ (h.ready base).Lacks n) := by
  obtain ⟨unused, rfl⟩ | ⟨S, listed⟩ := formed.list
  · have first : (h.ready base).freep = base := by rw [Heap.ready, if_pos unused]
    have loop : (h.ready base).next base = base := by simp [Heap.ready, unused, Heap.next]
    have empty : (h.ready base).size base = 0 := by simp [Heap.ready, unused, Heap.size]
    refine ⟨⟨{base}, formed.header, (ready_brk h base).symm ▸ formed.first, first, ?_, fun _ => False.elim, ?_⟩, ?_⟩
    · rintro _ rfl
      exact loop
    · rintro p (rfl | none)
      · exact .inl ⟨rfl, empty⟩
      · exact none.elim
    · refine iff_of_true (.inl unused) fun k => ?_
      rwa [first, iterate_fixed loop k, empty]
  · rw [Heap.ready, if_neg listed.freep_ne_zero, or_iff_right listed.freep_ne_zero]
    exact ⟨⟨S, listed⟩, Iff.rfl⟩

section Searching

/-- The loop of `malloc`: what holds where it looks at a block, and what that gives where it ends. -/
theorem mallocLoop_rule {P : Heap → ℕ → ℕ → Prop} {Q : Option ℕ → Heap → Prop}
    (found : ∀ h prevp p, P h prevp p → n ≤ h.size p → Q (h.take n prevp p).1 (h.take n prevp p).2)
    (core : ∀ h prevp fuel r h', P h prevp h.freep → h.size h.freep < n → h.morecore grant fuel n = .ok (r, h') →
      r.elim (Q none h') fun q => P h' q (h'.next q))
    (step : ∀ h prevp p, P h prevp p → h.size p < n → P h p (h.next p)) (holds : P h prevp p)
    (ran : mallocLoop grant n fuel prevp p h = .ok (r, h')) : Q r h' := by
  induction fuel generalizing prevp p h with
  | zero => cases ran
  | succ fuel ih =>
    rw [mallocLoop] at ran
    split_ifs at ran with large last
    · have taken := found h prevp p holds large
      rwa [Except.ok.inj ran] at taken
    · subst last
      obtain ⟨⟨q, h₁⟩, got, rest⟩ := ok_of_bind ran
      have after := core h prevp fuel q h₁ holds (Nat.not_le.mp large) got
      cases q with
      | none =>
        cases rest
        exact after
      | some q => exact ih after rest
    · exact ih (step h prevp p holds (Nat.not_le.mp large)) ran

/-- What `morecore` does, if it gets memory: the new block is put behind `q`. -/
theorem morecore_ok (got : h.morecore grant fuel n = .ok (r, h')) : (r = none ∧ h' = h) ∨
    ∃ q, r = some q ∧ (h.extend (toInt (atLeast n * unit)) (atLeast n)).free fuel (h.brk + unit) = .ok h' ∧
      h'.freep = q := by
  unfold morecore at got
  simp only at got
  split_ifs at got
  · cases got
    exact .inl ⟨rfl, rfl⟩
  · obtain ⟨h₁, freed, made⟩ := ok_of_bind got
    cases made
    exact .inr ⟨_, rfl, freed, rfl⟩

/-- `sbrk` grows the memory by what the block is for. -/
theorem Formed.grown (formed : h.Formed base start S live) (small : n * unit < 2 ^ 31)
    (freed : (h.extend (toInt (atLeast n * unit)) (atLeast n)).free fuel (h.brk + unit) = .ok h') :
    h'.Formed base start (insert h.brk S) live := by
  have bounds : 0 < atLeast n * unit ∧ atLeast n * unit < 2 ^ 31 := by
    unfold atLeast unit at *
    split <;> omega
  have asked : toInt (atLeast n * unit) = (atLeast n * unit : ℕ) := by
    unfold toInt
    exact Int.bmod_eq_of_le (by omega) (by omega)
  have moved : moveBrk h.brk (toInt (atLeast n * unit)) = h.brk + atLeast n * unit := by
    rw [asked, moveBrk, if_pos (by omega)]
    omega
  exact ((formed.extend (by omega) moved.ge).free (mem_insert ..) freed).drop (subset_insert ..)

/-- Memory that `sbrk` is asked for as it is. -/
theorem mallocLoop_grown (formed : h.Formed base start S live) (positive : 0 < n) (small : n * unit < 2 ^ 31)
    (ran : mallocLoop grant n fuel h.freep (h.next h.freep) h = .ok (r, h')) : h'.Served base start live n r := by
  refine mallocLoop_rule (P := fun h prevp p => ∃ S, h.Formed base start S live ∧ prevp ∈ S ∧ h.next prevp = p)
    (Q := fun r h' => h'.Served base start live n r) ?_ ?_ ?_ ⟨S, formed, formed.freep, rfl⟩ ran
  · rintro h prevp p ⟨S, formed, member, next⟩ large
    exact formed.take member next positive large
  · rintro h prevp fuel r h' ⟨S, formed, -, -⟩ - got
    obtain ⟨rfl, rfl⟩ | ⟨q, rfl, freed, rfl⟩ := morecore_ok got
    · exact ⟨S, formed⟩
    · exact ⟨_, formed.grown small freed, (formed.grown small freed).freep, rfl⟩
  · rintro h prevp p ⟨S, formed, member, rfl⟩ -
    exact ⟨S, formed, formed.next member, rfl⟩

/-- A block with the end `e` that is large enough. -/
def Ends (h : Heap) (n e p : ℕ) : Prop := n ≤ h.size p ∧ h.size p < 2 ^ 32 ∧ p + h.size p * unit = e

/-- What is handed out of a block is its end. -/
theorem Ends.take_fst (ends : h.Ends n (b + n * unit) p) : (h.take n prevp p).1 = some (b + unit) := by
  obtain ⟨large, word, whole⟩ := ends
  unfold take
  split_ifs with exact
  · rw [exact] at whole
    exact congrArg (fun x => some (x + unit)) (by omega)
  · refine congrArg (fun x => some (x + unit)) ?_
    simp only [setSize_size, update_self]
    rw [Nat.mod_eq_of_lt (by omega)]
    unfold unit at *
    omega

/-- The new block has the size of the request, however far the break was moved. The block before points to it or takes
it in, and no other is large enough. -/
theorem Formed.added (formed : h.Formed base start S live) (small : ∀ p ∈ S, h.size p < n) (bound : n < 2 ^ 31)
    (freed : (h.extend m n).free fuel (h.brk + unit) = .ok h') : h'.brk = moveBrk h.brk m ∧
      (h'.Ends n (h.brk + n * unit) (h'.next h'.freep) ∨ h'.Ends n (h.brk + n * unit) h'.freep ∧
        h'.next h'.freep ∈ S ∧ ∀ p ∈ S, h'.next p ∈ S ∧ (p = h'.freep ∨ h'.size p < n)) := by
  obtain ⟨q, member, rfl⟩ := free_ok (h := h.extend m n) (by rw [extend_next]; exact formed.next) formed.freep freed
  have apart (p : ℕ) (inside : p ∈ S) : p ≠ h.brk := (formed.below_brk (.inl inside)).ne
  have less := small q member
  have linked : (h.extend m n).linkNext h.brk q = (h.extend m n).setPtr h.brk (h.next q) := by
    have := formed.below_brk (.inl (formed.next member))
    rw [Heap.linkNext, extend_next, if_neg (by omega)]
  have size := linkPrev_size (h := (h.extend m n).linkNext h.brk q) (b := h.brk) (p := q)
  have next := linkPrev_next (h := (h.extend m n).linkNext h.brk q) (b := h.brk) (p := q)
  simp only [linked, setPtr_size, setPtr_next, extend_size, extend_next, update_self, update_of_ne (apart q member),
    Nat.mod_eq_of_lt (show n < 2 ^ 32 by omega), Nat.mod_eq_of_lt (show h.size q + n < 2 ^ 32 by omega)] at size next
  refine ⟨linkPrev_brk.trans linkNext_brk, ?_⟩
  rw [linked]
  generalize ((h.extend m n).setPtr h.brk (h.next q)).linkPrev h.brk q = h' at size next
  change h'.Ends _ _ (h'.next q) ∨ h'.Ends _ _ q ∧ h'.next q ∈ S ∧ ∀ p ∈ S, h'.next p ∈ S ∧ (p = q ∨ h'.size p < n)
  split_ifs at size next with adjacent
  · refine .inr ⟨?_, ?_, fun p inside => ⟨?_, ?_⟩⟩
    · rw [Ends, size, update_self, ← adjacent]
      exact ⟨by omega, by omega, by rw [Nat.add_mul, Nat.add_assoc]⟩
    · rw [next, update_self]
      exact formed.next member
    · rw [next, update_apply, update_of_ne (apart p inside)]
      split_ifs
      · exact formed.next member
      · exact formed.next inside
    · refine or_iff_not_imp_left.mpr fun other => ?_
      rw [size, update_of_ne other, update_of_ne (apart p inside)]
      exact small p inside
  · refine .inl ?_
    rw [next, update_self, Ends, size, update_self]
    exact ⟨le_rfl, by omega, rfl⟩

theorem toInt_le (large : 2 ^ 31 ≤ n) (bound : n ≤ 2 ^ 32 + 16) : toInt n ≤ 16 := by
  unfold toInt
  rw [Int.bmod_def]
  split <;> omega

theorem moveBrk_le (small : m ≤ 16) : moveBrk b m ≤ b + 16 := by
  unfold moveBrk
  split <;> omega

/-- How a request of 2 GiB and more is met: by a block of the list, or else by one behind the break. -/
def Met (h : Heap) (base start : ℕ) (live : Set ℕ) (n : ℕ) (r : Option ℕ) (h' : Heap) : Prop :=
  (h.Lacks n → r.elim (h' = h) fun a => a = h.brk + unit ∧ h'.brk ≤ h.brk + 16) ∧
    (¬ h.Lacks n → h'.Served base start live n r)

theorem mallocLoop_met (formed : h.Formed base start S live) (listed : ∀ p ∈ S, ∃ k, h.next^[k] h.freep = p)
    (positive : 0 < n) (large : 2 ^ 31 ≤ n * unit) (bound : n ≤ 2 ^ 28 + 1)
    (ran : mallocLoop grant n fuel h.freep (h.next h.freep) h = .ok (r, h')) : h.Met base start live n r h' := by
  have wide : 2 ^ 27 ≤ n := by
    unfold unit at large
    omega
  have same : atLeast n = n := by rw [atLeast, if_neg (by omega)]
  -- the blocks of the old list were too small so far, or all are and the search goes on to the new block
  refine mallocLoop_rule (Q := h.Met base start live n)
    (P := fun h₁ prevp p => h₁ = h ∧ prevp ∈ S ∧ h.next prevp = p ∧ (∃ j, h.next^[j + 1] h.freep = p ∧
        ∀ i < j, h.size (h.next^[i + 1] h.freep) < n) ∨
      h.Lacks n ∧ h₁.brk ≤ h.brk + 16 ∧ (h₁.Ends n (h.brk + n * unit) p ∨ h₁.Ends n (h.brk + n * unit) h₁.freep ∧
        p ∈ S ∧ ∀ p ∈ S, h₁.next p ∈ S ∧ (p = h₁.freep ∨ h₁.size p < n)))
    ?_ ?_ ?_ (.inl ⟨rfl, formed.freep, rfl, 0, rfl, by omega⟩) ran
  · rintro h₁ prevp p (⟨rfl, member, next, j, here, -⟩ | ⟨lacks, brk, found⟩) enough
    · refine ⟨fun lacks => absurd (here ▸ lacks (j + 1)) (Nat.not_lt.mpr enough), fun _ => ?_⟩
      exact formed.take member next positive enough
    · have ends : h₁.Ends n (h.brk + n * unit) p := by
        obtain ends | ⟨ends, member, list⟩ := found
        · exact ends
        · exact (list p member).2.resolve_right (Nat.not_lt.mpr enough) ▸ ends
      refine ⟨fun _ => ?_, absurd lacks⟩
      rw [ends.take_fst]
      exact ⟨rfl, take_snd_brk.trans_le brk⟩
  · rintro h₁ prevp fuel r h₂ (⟨rfl, -, -, j, here, before⟩ | ⟨-, -, ends | ⟨ends, -⟩⟩) small got
    · have lacks : h₁.Lacks n := by
        intro k
        rw [← IsPeriodicPt.iterate_mod_apply here k]
        cases found : k % (j + 1) with
        | zero => exact small
        | succ i =>
          have low : k % (j + 1) < j + 1 := Nat.mod_lt _ (Nat.succ_pos j)
          exact before i (by omega)
      obtain ⟨rfl, rfl⟩ | ⟨q, rfl, freed, rfl⟩ := morecore_ok got
      · exact ⟨fun _ => rfl, absurd lacks⟩
      · rw [same] at freed
        have few (p : ℕ) (member : p ∈ S) : h₁.size p < n := by
          obtain ⟨k, rfl⟩ := listed p member
          exact lacks k
        obtain ⟨brk, ends⟩ := formed.added few (by omega) freed
        exact .inr ⟨lacks, brk.trans_le (moveBrk_le (toInt_le large (by unfold unit; omega))), ends⟩
    · exact absurd small (Nat.not_lt.mpr ends.1)
    · exact absurd small (Nat.not_lt.mpr ends.1)
  · rintro h₁ prevp p (⟨rfl, member, rfl, j, here, before⟩ | ⟨lacks, brk, ends | ⟨ends, member, list⟩⟩) small
    · refine .inl ⟨rfl, formed.next member, rfl, j + 1, by rw [iterate_succ_apply', here], fun i low => ?_⟩
      rcases Nat.lt_succ_iff_lt_or_eq.mp low with early | rfl
      · exact before i early
      · exact here ▸ small
    · exact absurd small (Nat.not_lt.mpr ends.1)
    · exact .inr ⟨lacks, brk, .inr ⟨ends, (list p member).1, list⟩⟩

end Searching

theorem WellFormed.malloc (formed : h.WellFormed base start live)
    (ran : h.malloc base grant fuel nbytes = .ok (r, h')) :
    (h.Misasked nbytes → r.elim (h'.WellFormed base start live) fun a => a = h.brk + unit ∧ h'.brk ≤ h.brk + 16) ∧
      (¬ h.Misasked nbytes → h'.Served base start live (nunits nbytes) r) := by
  obtain ⟨-, positive, bound⟩ := nunits_bounds nbytes
  obtain ⟨⟨S, ready⟩, lacks⟩ := formed.ready positive
  rw [Misasked, lacks]
  by_cases large : 2 ^ 31 ≤ nunits nbytes * unit
  · obtain ⟨outside, inside⟩ := mallocLoop_met ready.orbit (fun _ => id) positive large bound ran
    rw [and_iff_left large]
    refine ⟨fun lacks => ?_, inside⟩
    have ends := outside lacks
    cases r with
    | none =>
      obtain rfl : h' = _ := ends
      exact ready.wellFormed
    | some a => rwa [Option.elim_some, ready_brk] at ends
  · exact ⟨fun misasked => absurd misasked.2 large, fun _ => mallocLoop_grown ready positive (Nat.not_le.mp large) ran⟩

theorem Uses.wellFormed (uses : Uses base start h live) : h.WellFormed base start live := by
  induction uses with
  | fresh header static => exact ⟨static, le_rfl, .inl ⟨rfl, rfl⟩⟩
  | @malloc h h' live grant fuel nbytes r _ proper ran ih =>
    obtain ⟨misasked, served⟩ := ih.malloc ran
    cases r with
    | none =>
      by_cases large : h.Misasked nbytes
      · exact misasked large
      · exact (served large).elim fun S formed => formed.wellFormed
    | some a =>
      obtain ⟨b, S, rfl, -, formed⟩ := served (proper.resolve_left (Option.some_ne_none a))
      rw [Option.elim_some, Nat.add_sub_cancel]
      exact formed.wellFormed
  | @free h h' live b fuel _ held ran ih =>
    obtain ⟨-, rfl⟩ | ⟨S, formed⟩ := ih.list
    · exact held.elim
    · exact ((formed.free held ran).drop sdiff_subset).wellFormed
  | @work h live _ header brk grown own list ih =>
    obtain unused | ⟨S, formed⟩ := ih.list
    · exact ⟨ih.header, ih.first.trans grown, .inl unused⟩
    refine Formed.wellFormed (formed.orbit.congr grown rfl ?_ ?_)
    · rintro _ ⟨k, rfl⟩
      exact congrArg Header.ptr (list formed.freep_ne_zero k)
    · rintro _ (⟨k, rfl⟩ | held)
      · exact congrArg Header.size (list formed.freep_ne_zero k)
      · exact congrArg Header.size (own _ held)

/-- Over all runs of a program: what `malloc` hands out was obtained from `sbrk`, unless the request is misasked. -/
theorem malloc_inside_iff (h h' : Heap) (base start p fuel : ℕ) (live : Set ℕ) (grant : Bool) (nbytes : UInt32)
    (uses : Uses base start h live) (ran : h.malloc base grant fuel nbytes = .ok (some p, h')) :
    h'.Inside start p nbytes.toNat ↔ ¬ h.Misasked nbytes := by
  obtain ⟨outside, inside⟩ := uses.wellFormed.malloc ran
  have fits := (nunits_bounds nbytes).1
  refine ⟨fun within misasked => ?_, fun proper => ?_⟩
  · obtain ⟨rfl, moved⟩ := outside misasked
    have large := misasked.2
    have high := within.2
    unfold nunits unit at *
    omega
  · obtain ⟨b, S, rfl, whole, formed⟩ := inside proper
    have low := formed.given b (mem_insert b live)
    exact ⟨by omega, by omega⟩

/-- A program that has not allocated yet. -/
def fresh : Heap := ⟨fun _ => ⟨0, 0⟩, 0, 0x4000⟩

/-- A block of 100 bytes is allocated and freed, and then 200 bytes are allocated. -/
theorem malloc_inside_iff_freed : ∃ h live h', Uses 0x2000 0x4000 h live ∧
    h.malloc 0x2000 true 5 200 = .ok (some 0x13F30, h') ∧ h'.brk = 0x14000 ∧
    (h'.Inside 0x4000 0x13F30 200 ↔ ¬ h.Misasked 200) := by
  have ran : (do
      let first ← fresh.malloc 0x2000 true 5 100
      let h ← first.2.free 5 0x13F90
      let second ← h.malloc 0x2000 true 5 200
      return (first.1, second.1, second.2.brk)) = .ok (some 0x13F90, some 0x13F30, 0x14000) := by decide +kernel
  obtain ⟨⟨p, h₁⟩, first, ran⟩ := ok_of_bind ran
  obtain ⟨h₂, second, ran⟩ := ok_of_bind ran
  obtain ⟨⟨q, h₃⟩, third, ran⟩ := ok_of_bind ran
  obtain ⟨rfl, ends⟩ := Prod.mk.inj (Except.ok.inj ran)
  obtain ⟨rfl, brk⟩ := Prod.mk.inj ends
  have small : ¬ fresh.Misasked 100 := fun misasked => absurd misasked.2 (by decide)
  have given := (Uses.fresh (fun _ => ⟨0, 0⟩) (by decide)).malloc (.inr small) first
  have freed := given.free (b := 0x13F80) (mem_insert ..) second
  exact ⟨h₂, _, h₃, freed, third, brk, malloc_inside_iff h₂ h₃ 0x2000 0x4000 _ 5 _ true 200 freed third⟩

/-- A request of 4 GiB less a byte is asked for as 16 bytes. -/
theorem malloc_outside : ∃ h', fresh.malloc 0x2000 true 3 0xFFFFFFFF = .ok (some 0x4010, h') ∧ h'.brk = 0x4010 ∧
    ¬ h'.Inside 0x4000 0x4010 0xFFFFFFFF := by
  have ran : (do
      let served ← fresh.malloc 0x2000 true 3 0xFFFFFFFF
      return (served.1, served.2.brk)) = .ok (some 0x4010, 0x4010) := by decide +kernel
  obtain ⟨⟨p, h'⟩, done, ran⟩ := ok_of_bind ran
  obtain ⟨rfl, brk : h'.brk = 0x4010⟩ := Prod.mk.inj (Except.ok.inj ran)
  refine ⟨h', done, brk, fun inside => ?_⟩
  have wrong := inside.2
  omega

end Heap

end Xv6.Umalloc
