import Xv6.Model.Fs.BcacheList
import Xv6.Proofs.Fs.Bcache

/-! # The list of the buffer cache

The cache with its pointers refines the cache with a list in place of them. The list is in the order of the releases,
and so the last buffer in it without a reference is the one whose release is the least recent.
-/

namespace Xv6.Fs.Bio

open Machine List

variable {c : Linked} {a : Bcache} {addr : Address} {i : Fin nbuf}

/-- The pointers make the list, and every buffer is in it. -/
structure Linked.Refines (c : Linked) (a : Bcache) : Prop where
  buf : c.buf = a.buf
  circle : c.links.Circle none (a.order.map some)
  complete : ∀ i, i ∈ a.order

namespace Linked.Refines

theorem nodup (refines : c.Refines a) : a.order.Nodup := (nodup_cons.mp refines.circle.nodup).2.of_map _

theorem perm (refines : c.Refines a) : a.order.Perm (finRange nbuf) :=
  (perm_ext_iff_of_nodup refines.nodup (nodup_finRange nbuf)).mpr fun i => by simp [refines.complete i]

theorem length_lt (refines : c.Refines a) : (a.order.map some).length < nbuf + 1 := by
  rw [length_map, refines.perm.length_eq, length_finRange]
  exact Nat.lt_succ_self _

theorem findSome?_filter (order : List (Fin nbuf)) (test : Fin nbuf → Bool) :
    (order.map some).findSome? (Option.filter test) = order.find? test := by
  induction order with
  | nil => rfl
  | cons i order ih =>
    rw [map_cons, findSome?_cons, find?_cons, Option.filter_some]
    cases test i with
    | true => rfl
    | false => exact ih

theorem search_next (refines : c.Refines a) (test : Fin nbuf → Bool) :
    search c.links.next test = .ok (a.order.find? test) := by
  rw [search, refines.circle.walk_next refines.length_lt, findSome?_filter]

theorem search_prev (refines : c.Refines a) (test : Fin nbuf → Bool) :
    search c.links.prev test = .ok (a.order.reverse.find? test) := by
  rw [search, refines.circle.walk_prev refines.length_lt, ← map_reverse, findSome?_filter]

theorem binit (links : Links Node) : (Linked.binit links).Refines .binit where
  buf := rfl
  circle := by
    -- Each buffer goes in front of the earlier ones.
    have front (before after : List (Fin nbuf)) (split : finRange nbuf = before ++ after) {l : Links Node}
        (circle : l.Circle none (before.reverse.map some)) :
        (after.foldl (fun links i => links.insert none (some i)) l).Circle none ((finRange nbuf).reverse.map some) := by
      induction after generalizing before l with
      | nil => rwa [split, append_nil]
      | cons i after ih =>
        refine ih (before ++ [i]) (by rw [split, append_assoc]; rfl) ?_
        rw [reverse_append, reverse_singleton, singleton_append, map_cons]
        refine circle.insert ?_
        have nodup := nodup_finRange nbuf
        rw [split, nodup_append] at nodup
        rw [mem_cons, not_or]
        refine ⟨nofun, fun member => ?_⟩
        obtain ⟨j, earlier, same⟩ := mem_map.mp member
        cases same
        exact nodup.2.2 i (mem_reverse.mp earlier) i mem_cons_self rfl
    exact front [] _ rfl (.empty links none)
  complete i := mem_reverse.mpr (mem_finRange i)

theorem set (refines : c.Refines a) (i : Fin nbuf) (b : Buf) : (c.set i b).Refines (a.set i b) :=
  ⟨by rw [Linked.set, Bcache.set, refines.buf], refines.circle, refines.complete⟩

theorem bget (refines : c.Refines a) (addr : Address) :
    c.bget addr = match a.lookup? addr, a.unused? with
      | some i, _ => .ok (c.set i { c.buf i with refcnt := (c.buf i).refcnt + 1 }, i)
      | none, some i =>
        .ok (c.set i { c.buf i with dev := addr.dev, blockno := addr.blockno, valid := false, refcnt := 1 }, i)
      | none, none => .error .noBuffers := by
  unfold Linked.bget Bcache.lookup? Bcache.unused?
  rw [refines.search_next, refines.search_prev, refines.buf]
  generalize a.order.find? _ = hit
  generalize a.order.reverse.find? _ = free
  cases hit with
  | some i => rfl
  | none => cases free <;> rfl

theorem brelse (refines : c.Refines a) (i : Fin nbuf) : (c.brelse i).Refines (a.brelse i) := by
  have dropped := refines.set i { a.buf i with refcnt := (a.buf i).refcnt - 1 }
  unfold Linked.brelse Bcache.brelse
  rw [refines.buf]
  split
  · refine ⟨dropped.buf, ?_, fun j => ?_⟩
    · obtain ⟨before, after, split⟩ := append_of_mem (refines.complete i)
      have nodup := refines.nodup
      have circle := refines.circle
      rw [split] at nodup
      rw [split, map_append, map_cons] at circle
      have earlier : i ∉ before := fun member => (nodup_append.mp nodup).2.2 i member i mem_cons_self rfl
      have later : i ∉ after := (nodup_cons.mp (nodup_append.mp nodup).2.1).1
      have rest : (a.order.erase i).map some = before.map some ++ after.map some := by
        rw [split, erase_append_right _ earlier, erase_cons_head, map_append]
      change ((c.links.unlink (some i)).insert none (some i)).Circle none ((i :: a.order.erase i).map some)
      rw [map_cons, rest]
      refine circle.unlink.insert ?_
      simp [earlier, later]
    · rcases eq_or_ne j i with rfl | distinct
      · exact mem_cons_self
      · exact mem_cons_of_mem i ((mem_erase_of_ne distinct).mpr (refines.complete j))
  · exact dropped

end Linked.Refines

namespace Released

variable {s s' : Released} {op : ListOp}

/-- The list is in the order of the releases. -/
structure Sorted (s : Released) (a : Bcache) : Prop where
  refines : s.cache.Refines a
  order : a.order.Pairwise (Fresher s.released)
  past : ∀ i, s.released i ≤ s.clock

theorem sorted_boot (links : Links Node) : (boot links).Sorted .binit where
  refines := .binit links
  order := pairwise_reverse.mpr ((pairwise_lt_finRange nbuf).imp fun earlier => .inr ⟨rfl, rfl, earlier⟩)
  past _ := le_rfl

section

variable (sorted : s.Sorted a)
include sorted

theorem Sorted.take {a' : Bcache} {cache : Linked} (refines : cache.Refines a') (same : a'.order = a.order) :
    (s.take cache).Sorted a' :=
  ⟨refines, same ▸ sorted.order, fun i => (sorted.past i).trans (Nat.le_succ _)⟩

theorem Sorted.keep {a' : Bcache} {cache : Linked} (refines : cache.Refines a') (same : a'.order = a.order)
    (more : (s.cache.buf i).refcnt - 1 ≠ 0) : (s.drop i cache).Sorted a' := by
  refine ⟨refines, ?_, fun j => ?_⟩ <;> simp only [drop, if_neg more]
  · exact same ▸ sorted.order
  · exact (sorted.past j).trans (Nat.le_succ _)

/-- The buffer that loses its last reference goes to the front. -/
theorem Sorted.brelse (i : Fin nbuf) : (s.drop i (s.cache.brelse i)).Sorted (a.brelse i) := by
  have refines := sorted.refines.brelse i
  by_cases last : (s.cache.buf i).refcnt - 1 = 0
  · have order : (a.brelse i).order = i :: a.order.erase i := by
      rw [sorted.refines.buf] at last
      rw [Bcache.brelse, if_pos last]
      rfl
    have others {j : Fin nbuf} (member : j ∈ a.order.erase i) :
        Function.update s.released i (s.clock + 1) j = s.released j :=
      Function.update_of_ne (fun same => sorted.refines.nodup.not_mem_erase (same ▸ member)) ..
    refine ⟨refines, ?_, fun j => ?_⟩ <;> simp only [drop, if_pos last]
    · rw [order, pairwise_cons]
      refine ⟨fun j member => .inl ?_, ?_⟩
      · rw [others member, Function.update_self]
        exact Nat.lt_succ_of_le (sorted.past j)
      · refine (sorted.order.sublist erase_sublist).imp_of_mem fun {j k} first second fresher => ?_
        rwa [Fresher, others first, others second]
    · rcases eq_or_ne j i with rfl | distinct
      · rw [Function.update_self]
      · rw [Function.update_of_ne distinct]
        exact (sorted.past j).trans (Nat.le_succ _)
  · refine sorted.keep refines ?_ last
    rw [sorted.refines.buf] at last
    rw [Bcache.brelse, if_neg last]
    rfl

theorem Sorted.step? (keeps : s.KeepsLast op) (enabled : s.step? op = some s') : ∃ a', s'.Sorted a' := by
  cases op with
  | bget addr =>
    rw [Released.step?, sorted.refines.bget] at enabled
    cases hit : a.lookup? addr with
    | some i =>
      rw [hit] at enabled
      cases enabled
      exact ⟨_, sorted.take (sorted.refines.set i _) rfl⟩
    | none =>
      cases free : a.unused? with
      | some i =>
        rw [hit, free] at enabled
        cases enabled
        exact ⟨_, sorted.take (sorted.refines.set i _) rfl⟩
      | none =>
        rw [hit, free] at enabled
        cases enabled
  | brelse i =>
    cases enabled
    exact ⟨_, sorted.brelse i⟩
  | bpin i =>
    cases enabled
    exact ⟨_, sorted.take (sorted.refines.set i _) rfl⟩
  | bunpin i =>
    cases enabled
    exact ⟨_, sorted.keep (sorted.refines.set i _) rfl keeps⟩

/-- The buffers behind the first one that a loop from the end finds have references. -/
theorem Sorted.recycled (found : a.unused? = some i) :
    (s.cache.buf i).refcnt = 0 ∧ ∀ j, j ≠ i → (s.cache.buf j).refcnt = 0 → Fresher s.released j i := by
  obtain ⟨free, before, after, split, used⟩ := find?_eq_some_iff_append.mp found
  have reversed : a.order = after.reverse ++ i :: before.reverse := by
    rw [← reverse_reverse a.order, split, reverse_append, reverse_cons, append_assoc]
    rfl
  rw [sorted.refines.buf]
  refine ⟨by simpa using free, fun j distinct unused => ?_⟩
  have member := sorted.refines.complete j
  have order := sorted.order
  rw [reversed] at member order
  rcases mem_append.mp member with front | back
  · exact (pairwise_append.mp order).2.2 j front i mem_cons_self
  · rcases mem_cons.mp back with rfl | behind
    · exact absurd rfl distinct
    · have referenced := used j (mem_reverse.mp behind)
      simp [unused] at referenced

end

/-- However the buffers are used, the list is one circle through all of them, from the latest release to the oldest; a
block that is not cached gets the buffer that is free for longest, and `bget` fails only where none is free. -/
theorem list_and_replacement (links : Links Node) (ops : List ListOp) (s : Released)
    (keeps : Along step? KeepsLast (boot links) ops)
    (reached : run? step? (boot links) ops = some s) :
    (∃ order : List (Fin nbuf), order.Perm (List.finRange nbuf) ∧ s.cache.links.Circle none (order.map some) ∧
      order.Pairwise (Fresher s.released)) ∧
    (∀ node, s.cache.links.next (s.cache.links.prev node) = node ∧
      s.cache.links.prev (s.cache.links.next node) = node) ∧
    (∀ addr c i, (∀ j, (s.cache.buf j).addr ≠ addr) → s.cache.bget addr = .ok (c, i) →
      c = s.cache.set i { s.cache.buf i with dev := addr.dev, blockno := addr.blockno, valid := false, refcnt := 1 } ∧
      (s.cache.buf i).refcnt = 0 ∧ ∀ j, j ≠ i → (s.cache.buf j).refcnt = 0 → Fresher s.released j i) ∧
    ∀ addr stop, s.cache.bget addr = .error stop → stop = .noBuffers ∧ ∀ i, (s.cache.buf i).refcnt ≠ 0 := by
  obtain ⟨a, sorted⟩ := run?_along step? keeps (fun _ s => ∃ a, s.Sorted a) ⟨_, sorted_boot links⟩
    (fun _ _ _ _ ⟨_, sorted⟩ allowed enabled => sorted.step? allowed enabled) reached
  have refines := sorted.refines
  refine ⟨⟨a.order, refines.perm, refines.circle, sorted.order⟩, fun node => refines.circle.inverse ?_, ?_, ?_⟩
  · cases node with
    | none => exact List.mem_cons_self
    | some i => exact List.mem_cons_of_mem _ (List.mem_map_of_mem (refines.complete i))
  · intro addr c i missing found
    have miss : a.lookup? addr = none := by
      refine Option.eq_none_iff_forall_ne_some.mpr fun j hit => missing j ?_
      rw [refines.buf]
      exact (Bcache.lookup?_eq_some hit).1
    rw [refines.bget, miss] at found
    cases free : a.unused? with
    | none => rw [free] at found; cases found
    | some j =>
      rw [free] at found
      cases found
      exact ⟨rfl, sorted.recycled free⟩
  · intro addr stop stopped
    rw [refines.bget] at stopped
    cases hit : a.lookup? addr with
    | some i => rw [hit] at stopped; cases stopped
    | none =>
      cases free : a.unused? with
      | some i => rw [hit, free] at stopped; cases stopped
      | none =>
        rw [hit, free] at stopped
        cases stopped
        refine ⟨rfl, fun i zero => ?_⟩
        rw [refines.buf] at zero
        have referenced := List.find?_eq_none.mp free i (List.mem_reverse.mpr (refines.complete i))
        simp [zero] at referenced

/-- The first block goes to the first buffer, which its release puts in front of all others. -/
theorem list_and_replacement_once :
    let links : Links Node := ⟨id, id⟩
    let ops : List ListOp := [.bget ⟨1, 5⟩, .brelse ⟨0, by decide⟩]
    ∃ s, run? step? (boot links) ops = some s ∧ s.cache.links.next none = some ⟨0, by decide⟩ ∧
    (∃ order : List (Fin nbuf), order.Perm (List.finRange nbuf) ∧ s.cache.links.Circle none (order.map some) ∧
      order.Pairwise (Fresher s.released)) ∧
    (∀ node, s.cache.links.next (s.cache.links.prev node) = node ∧
      s.cache.links.prev (s.cache.links.next node) = node) ∧
    (∀ addr c i, (∀ j, (s.cache.buf j).addr ≠ addr) → s.cache.bget addr = .ok (c, i) →
      c = s.cache.set i { s.cache.buf i with dev := addr.dev, blockno := addr.blockno, valid := false, refcnt := 1 } ∧
      (s.cache.buf i).refcnt = 0 ∧ ∀ j, j ≠ i → (s.cache.buf j).refcnt = 0 → Fresher s.released j i) ∧
    ∀ addr stop, s.cache.bget addr = .error stop → stop = .noBuffers ∧ ∀ i, (s.cache.buf i).refcnt ≠ 0 := by
  intro links ops
  have enabled : (run? step? (boot links) ops).map (fun s => s.cache.links.next none) = some (some ⟨0, by decide⟩) := by
    decide +kernel
  obtain ⟨s, reached, first⟩ := Option.map_eq_some_iff.mp enabled
  have keeps : Along step? KeepsLast (boot links) ops := by
    intro past event rest middle split _
    have member : event ∈ ops := split ▸ List.mem_append_right past List.mem_cons_self
    rcases List.mem_cons.mp member with rfl | later
    · trivial
    · rw [List.mem_singleton.mp later]
      trivial
  exact ⟨s, reached, first, list_and_replacement links ops s keeps reached⟩

end Released

end Xv6.Fs.Bio
