import Mathlib.Data.List.Basic

/-! # Circular lists in two directions

The nodes of a list point to the next node and to the one before. The list is a circle through a head that is in no
list. A `Segment` is a part of it, in both directions; it depends on the pointers of its own nodes only.
-/

namespace Machine

open Function List

variable {α β : Type*}

structure Links (α : Type*) where
  next : α → α
  prev : α → α

variable {f : α → Option β} {fuel : ℕ} {c : α}

namespace Links

section Operations
variable [DecidableEq α]

/-- `b->next->prev = b->prev; b->prev->next = b->next` -/
def unlink (l : Links α) (b : α) : Links α :=
  let l := { l with prev := Function.update l.prev (l.next b) (l.prev b) }
  { l with next := Function.update l.next (l.prev b) (l.next b) }

/-- `b->next = head.next; b->prev = &head; head.next->prev = b; head.next = b` -/
def insert (l : Links α) (head b : α) : Links α :=
  let l := { l with next := Function.update l.next b (l.next head) }
  let l := { l with prev := Function.update l.prev b head }
  let l := { l with prev := Function.update l.prev (l.next head) b }
  { l with next := Function.update l.next head b }

/-- `for(a = ..; a != &head; a = step(a))` up to the first node that has a value; `none` without enough fuel. -/
def walk (step : α → α) (head : α) (f : α → Option β) : (fuel : ℕ) → α → Option (Option β)
  | 0, _ => none
  | fuel + 1, a =>
    if a = head then some none
    else match f a with
      | some b => some (some b)
      | none => walk step head f fuel (step a)

end Operations

/-- From one node through some others to a last one, and back. -/
def Segment (l : Links α) : α → List α → α → Prop
  | a, [], b => l.next a = b ∧ l.prev b = a
  | a, x :: xs, b => (l.next a = x ∧ l.prev x = a) ∧ Segment l x xs b

/-- The list of a head. -/
structure Circle (l : Links α) (head : α) (xs : List α) : Prop where
  nodup : (head :: xs).Nodup
  segment : l.Segment head xs head

variable {l l' : Links α} {a b x head : α} {xs ys : List α}

namespace Segment

theorem append : l.Segment a (xs ++ x :: ys) b ↔ l.Segment a xs x ∧ l.Segment x ys b := by
  induction xs generalizing a with
  | nil => exact Iff.rfl
  | cons y xs ih => rw [cons_append, Segment, Segment, ih, ← and_assoc]

section

variable (segment : l.Segment a xs b)
include segment

theorem congr (next : ∀ c ∈ a :: xs, l'.next c = l.next c) (prev : ∀ c ∈ xs ++ [b], l'.prev c = l.prev c) :
    l'.Segment a xs b := by
  induction xs generalizing a with
  | nil => exact ⟨(next a mem_cons_self).trans segment.1, (prev b mem_cons_self).trans segment.2⟩
  | cons x xs ih =>
    obtain ⟨⟨forth, back⟩, rest⟩ := segment
    refine ⟨⟨(next a mem_cons_self).trans forth, (prev x mem_cons_self).trans back⟩, ih rest ?_ ?_⟩
    · exact fun c member => next c (mem_cons_of_mem _ member)
    · exact fun c member => prev c (mem_cons_of_mem _ member)

theorem prev_mem : l.prev b ∈ a :: xs := by
  induction xs generalizing a with
  | nil => exact segment.2 ▸ mem_cons_self
  | cons x xs ih => exact mem_cons_of_mem _ (ih segment.2)

theorem prev_next (member : c ∈ a :: xs) : l.prev (l.next c) = c := by
  induction xs generalizing a with
  | nil =>
    obtain rfl := mem_singleton.mp member
    rw [segment.1, segment.2]
  | cons x xs ih =>
    rcases mem_cons.mp member with rfl | later
    · rw [segment.1.1, segment.1.2]
    · exact ih segment.2 later

theorem swap : Segment ⟨l.prev, l.next⟩ b xs.reverse a := by
  induction xs generalizing a with
  | nil => exact ⟨segment.2, segment.1⟩
  | cons x xs ih =>
    rw [reverse_cons, append]
    exact ⟨ih segment.2, segment.1.2, segment.1.1⟩

end

variable [DecidableEq α]

/-- The last node gets another node to follow it. -/
theorem redirect (segment : l.Segment a xs b) (nodup : (a :: xs).Nodup) {n : α} (fresh : n ∉ xs) :
    Segment ⟨update l.next (l.prev b) n, update l.prev n (l.prev b)⟩ a xs n := by
  induction xs generalizing a with
  | nil =>
    obtain ⟨-, back⟩ := segment
    rw [back]
    exact ⟨update_self .., update_self ..⟩
  | cons x xs ih =>
    obtain ⟨⟨forth, back⟩, rest⟩ := segment
    obtain ⟨first, nodup⟩ := nodup_cons.mp nodup
    have last : a ≠ l.prev b := fun same => first (same ▸ rest.prev_mem)
    have other : x ≠ n := fun same => fresh (same ▸ mem_cons_self)
    refine ⟨⟨?_, ?_⟩, ih rest nodup fun member => fresh (mem_cons_of_mem _ member)⟩
    · exact (update_of_ne last ..).trans forth
    · exact (update_of_ne other ..).trans back

theorem walk_eq (segment : l.Segment a xs head) (apart : head ∉ xs)
    (enough : xs.length < fuel) :
    walk l.next head f fuel (l.next a) = some (xs.findSome? f) := by
  induction xs generalizing a fuel with
  | nil =>
    obtain ⟨fuel, rfl⟩ := Nat.exists_eq_succ_of_ne_zero (Nat.ne_of_gt enough)
    rw [walk, if_pos segment.1, findSome?_nil]
  | cons x xs ih =>
    obtain ⟨fuel, rfl⟩ := Nat.exists_eq_succ_of_ne_zero (Nat.ne_of_gt (Nat.zero_lt_of_lt enough))
    have other : x ≠ head := fun same => apart (same ▸ mem_cons_self)
    rw [walk, segment.1.1, if_neg other, findSome?_cons]
    cases f x with
    | some value => rfl
    | none => exact ih segment.2 (fun member => apart (mem_cons_of_mem _ member)) (Nat.lt_of_succ_lt_succ enough)

end Segment

namespace Circle

theorem head_notMem (circle : l.Circle head xs) : head ∉ xs := (nodup_cons.mp circle.nodup).1

theorem inverse (circle : l.Circle head xs) (member : c ∈ head :: xs) :
    l.next (l.prev c) = c ∧ l.prev (l.next c) = c := by
  refine ⟨circle.segment.swap.prev_next ?_, circle.segment.prev_next member⟩
  rw [mem_cons, mem_reverse]
  exact mem_cons.mp member

variable [DecidableEq α]

theorem empty (l : Links α) (head : α) : Circle ⟨update l.next head head, update l.prev head head⟩ head [] :=
  ⟨by simp, update_self .., update_self ..⟩

theorem walk_next (circle : l.Circle head xs) (enough : xs.length < fuel) :
    walk l.next head f fuel (l.next head) = some (xs.findSome? f) :=
  circle.segment.walk_eq circle.head_notMem enough

theorem walk_prev (circle : l.Circle head xs) (enough : xs.length < fuel) :
    walk l.prev head f fuel (l.prev head) = some (xs.reverse.findSome? f) :=
  circle.segment.swap.walk_eq (fun member => circle.head_notMem (mem_reverse.mp member)) (by rwa [length_reverse])

end Circle

section Relinking
variable [DecidableEq α]

/-- The write to `b->next->prev` does not change `b->prev`. -/
theorem unlink_eq (l : Links α) (b : α) :
    l.unlink b = ⟨update l.next (l.prev b) (l.next b), update l.prev (l.next b) (l.prev b)⟩ := by
  have same : update l.prev (l.next b) (l.prev b) b = l.prev b := by
    by_cases self : b = l.next b
    · rw [← self, update_self]
    · exact update_of_ne self ..
  simp only [unlink, same]

theorem Circle.unlink (circle : l.Circle head (xs ++ b :: ys)) : (l.unlink b).Circle head (xs ++ ys) := by
  obtain ⟨nodup, segment⟩ := circle
  obtain ⟨front, back⟩ := Segment.append.mp segment
  refine ⟨nodup.sublist (by simp), ?_⟩
  simp only [nodup_cons, nodup_append, mem_append, mem_cons, not_or] at nodup
  obtain ⟨⟨outer, -, outside⟩, nodup, ⟨-, later⟩, disjoint⟩ := nodup
  have first : (head :: xs).Nodup := nodup_cons.mpr ⟨outer, nodup⟩
  rw [unlink_eq]
  cases ys with
  | nil =>
    rw [back.1, append_nil]
    exact front.redirect first outer
  | cons y ys =>
    obtain ⟨⟨forth, -⟩, rest⟩ := back
    rw [forth, Segment.append]
    have fresh : y ∉ xs := fun member => disjoint y member y (.inr mem_cons_self) rfl
    refine ⟨front.redirect first fresh, rest.congr (fun c member => ?_) fun c member => ?_⟩
    · refine update_of_ne (fun same => ?_) ..
      rcases mem_cons.mp (same ▸ front.prev_mem) with rfl | earlier
      · exact outside member
      · exact disjoint c earlier c (.inr member) rfl
    · refine update_of_ne ?_ ..
      rintro rfl
      rcases mem_append.mp member with again | last
      · exact (nodup_cons.mp later).1 again
      · exact outside (mem_singleton.mp last ▸ mem_cons_self)

theorem insert_eq (l : Links α) (apart : head ≠ b) :
    l.insert head b = ⟨update (update l.next b (l.next head)) head b,
      update (update l.prev b head) (l.next head) b⟩ := by
  simp only [insert, update_of_ne apart]

theorem Circle.insert (circle : l.Circle head xs) (fresh : b ∉ head :: xs) :
    (l.insert head b).Circle head (b :: xs) := by
  obtain ⟨nodup, segment⟩ := circle
  rw [mem_cons, not_or] at fresh
  obtain ⟨apart, absent⟩ := fresh
  obtain ⟨outer, inner⟩ := nodup_cons.mp nodup
  refine ⟨?_, ?_⟩
  · refine nodup_cons.mpr ⟨?_, nodup_cons.mpr ⟨absent, inner⟩⟩
    rw [mem_cons, not_or]
    exact ⟨Ne.symm apart, outer⟩
  rw [insert_eq l (Ne.symm apart)]
  cases xs with
  | nil =>
    rw [segment.1]
    refine ⟨⟨update_self .., ?_⟩, ?_, update_self ..⟩
    · exact (update_of_ne apart ..).trans (update_self ..)
    · exact (update_of_ne apart ..).trans (update_self ..)
  | cons x xs =>
    obtain ⟨⟨forth, -⟩, rest⟩ := segment
    rw [mem_cons, not_or] at absent
    obtain ⟨other, absent⟩ := absent
    rw [forth]
    refine ⟨⟨update_self .., ?_⟩, ⟨?_, update_self ..⟩, rest.congr (fun c member => ?_) fun c member => ?_⟩
    · exact (update_of_ne other ..).trans (update_self ..)
    · exact (update_of_ne apart ..).trans (update_self ..)
    · have notHead : c ≠ head := fun same => outer (same ▸ member)
      have notNew : c ≠ b := by
        rintro rfl
        exact (mem_cons.mp member).elim other absent
      exact (update_of_ne notHead ..).trans (update_of_ne notNew ..)
    · have notFirst : c ≠ x := by
        rintro rfl
        rcases mem_append.mp member with again | last
        · exact (nodup_cons.mp inner).1 again
        · exact outer (mem_singleton.mp last ▸ mem_cons_self)
      have notNew : c ≠ b := by
        rintro rfl
        exact (mem_append.mp member).elim absent fun last => apart (mem_singleton.mp last)
      exact (update_of_ne notFirst ..).trans (update_of_ne notNew ..)

end Relinking

end Links

end Machine
