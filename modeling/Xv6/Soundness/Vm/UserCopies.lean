import Xv6.Soundness.Vm.LazyAllocation

/-! # Copies to and from user space

`copyout` stores a prefix of its bytes, all of them if it returns 0, in pages that the user may write, and
changes nothing else that is mapped. `copyin` finds the bytes again. `copyinstr` returns 0 for the strings that
end within the bytes allowed, on mapped pages. An address at or beyond `MAXVA` is refused before anything is
added to it, so no sum wraps.
-/

namespace Xv6.Sv39

open Machine List
open Vm (pgsize maxva px path vaddr vaddr_path path_vaddr pgrounddown)

variable {s s' : Phys} {proc : Process}

/-! ## Strings -/

/-- The bytes up to the first zero, or all of them. -/
theorem copyString_spec (bytes : List UInt8) :
    ((copyString bytes).2 = true → ∃ n, n < bytes.length ∧ (copyString bytes).1 = bytes.take (n + 1) ∧
      bytes[n]? = some 0 ∧ ∀ i < n, bytes[i]? ≠ some 0) ∧
    ((copyString bytes).2 = false → (copyString bytes).1 = bytes ∧ 0 ∉ bytes) := by
  induction bytes with
  | nil => simp [copyString]
  | cons c rest ih =>
    rw [copyString]
    by_cases zero : c = 0
    · rw [if_pos zero]
      exact ⟨fun _ =>
        ⟨0, by simp, by simp [zero], by simp [zero], fun i low => absurd low (Nat.not_lt_zero i)⟩, by rintro ⟨⟩⟩
    · rw [if_neg zero]
      refine ⟨fun got => ?_, fun missing => ?_⟩
      · obtain ⟨n, inside, taken, here, before⟩ := ih.1 got
        refine ⟨n + 1, by simpa using inside, by simp [taken], by simpa using here, fun i low => ?_⟩
        cases i with
        | zero => simpa using zero
        | succ i => simpa using before i (by omega)
      · obtain ⟨all, absent⟩ := ih.2 missing
        exact ⟨by simp [all], by simp [Ne.symm zero, absent]⟩

/-- The string that ends with its first zero after `n` bytes. -/
structure Ends (access : ℕ → Bool) (memory : ℕ → UInt8) (srcva n : ℕ) : Prop where
  zero : memory (srcva + n) = 0
  first : ∀ i < n, memory (srcva + i) ≠ 0
  mapped : ∀ i ≤ n, access (pgrounddown (srcva + i)) = true

theorem readString_ends {access : ℕ → Bool} {memory : ℕ → UInt8} (rounds srcva max : ℕ)
    (got : (readString access memory srcva max rounds).2 = true) : ∃ n < max, Ends access memory srcva n ∧
      (readString access memory srcva max rounds).1 = (range (n + 1)).map fun i => memory (srcva + i) := by
  induction rounds generalizing srcva max with
  | zero => cases got
  | succ rounds ih =>
    unfold readString at got ⊢
    by_cases empty : max = 0
    · rw [if_pos empty] at got
      cases got
    by_cases page : access (pgrounddown srcva) = true
    · rw [if_neg empty, if_pos page] at got ⊢
      dsimp only at got ⊢
      have down := pgrounddown_le srcva
      have le : min (pgsize - (srcva - pgrounddown srcva)) max ≤ max := Nat.min_le_right _ _
      have same (i : ℕ) (small : i < min (pgsize - (srcva - pgrounddown srcva)) max) :
          pgrounddown (srcva + i) = pgrounddown srcva := by
        unfold pgrounddown pgsize at *
        omega
      have round : min (pgsize - (srcva - pgrounddown srcva)) max = max ∨
          srcva + min (pgsize - (srcva - pgrounddown srcva)) max = pgrounddown srcva + pgsize := by omega
      generalize min (pgsize - (srcva - pgrounddown srcva)) max = count at *
      have spec := copyString_spec ((range count).map fun i => memory (srcva + i))
      by_cases here : (copyString ((range count).map fun i => memory (srcva + i))).2 = true
      · -- the string ends in this page
        rw [if_pos here]
        obtain ⟨n, inside, taken, zero, before⟩ := spec.1 here
        rw [length_map, length_range] at inside
        refine ⟨n, by omega, ⟨?_, fun i low => ?_, fun i low => ?_⟩, ?_⟩
        · simpa [inside] using zero
        · simpa [show i < count by omega] using before i low
        · rw [same i (by omega)]
          exact page
        · rw [taken, ← map_take, take_range, Nat.min_eq_left (by omega)]
      · rw [if_neg here] at got ⊢
        obtain ⟨all, absent⟩ := spec.2 (by simpa using here)
        obtain ⟨n, small, ends, rest⟩ := ih _ _ got
        have later (i : ℕ) : pgrounddown srcva + pgsize + i = srcva + (count + i) := by omega
        have nonzero (i : ℕ) (low : i < count) : memory (srcva + i) ≠ 0 := fun zero =>
          absent (mem_map.mpr ⟨i, mem_range.mpr low, zero⟩)
        refine ⟨count + n, by omega, ⟨?_, fun i low => ?_, fun i low => ?_⟩, ?_⟩
        · rw [← later]
          exact ends.zero
        · by_cases early : i < count
          · exact nonzero i early
          · rw [← Nat.add_sub_cancel' (not_lt.mp early), ← later]
            exact ends.first _ (by omega)
        · by_cases early : i < count
          · rw [same i early]
            exact page
          · rw [← Nat.add_sub_cancel' (not_lt.mp early), ← later]
            exact ends.mapped _ (by omega)
        · have tail : (range (n + 1)).map (fun i => memory (pgrounddown srcva + pgsize + i)) =
              (range (n + 1)).map fun i => memory (srcva + (count + i)) :=
            map_congr_left fun i _ => by rw [later]
          dsimp only
          rw [all, rest, tail, Nat.add_assoc count, range_add (n := count), map_append, map_map]
          rfl
    · rw [if_neg empty, if_neg page] at got
      cases got

/-- The bytes read are those up to a zero, if there is one within reach on pages that can be read. -/
theorem readString_iff {access : ℕ → Bool} {memory : ℕ → UInt8} (srcva max : ℕ) :
    (readString access memory srcva max max).2 = true ↔
      ∃ n < max, memory (srcva + n) = 0 ∧ ∀ i ≤ n, access (pgrounddown (srcva + i)) = true := by
  constructor
  · intro got
    obtain ⟨n, small, ends, -⟩ := readString_ends max srcva max got
    exact ⟨n, small, ends.zero, ends.mapped⟩
  · rintro ⟨n, small, zero, mapped⟩
    -- the first zero is what the loop finds
    have some_zero : ∃ i, memory (srcva + i) = 0 := ⟨n, zero⟩
    have first := Nat.find_min' some_zero zero
    have reaches : Reaches access memory srcva (srcva + Nat.find some_zero) := by
      intro x start stop
      have early := Nat.find_min some_zero (m := x - srcva) (by omega)
      have page := mapped (x - srcva) (by omega)
      rw [Nat.add_sub_cancel' start] at early page
      exact ⟨early, page⟩
    rw [readString_reaches max srcva max le_rfl (Nat.le_add_right _ _) (by omega) reaches (Nat.find_spec some_zero)]
    exact mapped _ first

/-! ## The three calls -/

theorem Stored.page_kept {dstva rounds k va : ℕ} {src : List UInt8} {done : Bool} {w : UInt64}
    (stored : Stored proc dstva src rounds s done s' k) (acts : Acts proc.pagetable proc.sz s s') (inside : va < maxva)
    (found : leaf? s.ram proc.pagetable (path va) = some w) (denied : w &&& pteU = 0 ∨ w &&& pteW = 0) :
    s'.ram (pte2pa w) = s.ram (pte2pa w) := by
  rw [← path_pgrounddown] at found
  have aligned := Vm.pgrounddown_mod va
  have down := pgrounddown_le va
  have top : maxva % pgsize = 0 := by decide
  generalize pgrounddown va = va0 at *
  refine Vector.ext fun i small => ?_
  have place : pgrounddown (va0 + i) = va0 := by
    unfold pgrounddown pgsize at *
    omega
  have below : va0 + i < maxva := by
    unfold pgsize at *
    omega
  have same := stored.seen (va0 + i) below
  rw [if_neg, view_add aligned small (acts.leaf _ w found), view_add aligned small found] at same
  · simpa [Page.byte, small] using same
  · rintro ⟨start, stop⟩
    have allowed := stored.allowed (va0 + i - dstva) (by omega)
    rw [Nat.add_sub_cancel' start, place, accessible_eq (by omega) found, decide_eq_true_iff] at allowed
    rcases denied with supervisor | read_only
    · exact allowed.1 supervisor
    · exact allowed.2 rfl read_only

/-- User copies are exact and confined. -/
theorem user_copies (space : Space s proc.pagetable) (small : proc.sz ≤ maxva) (dstva : ℕ) (src : List UInt8)
    (srcva max : ℕ) :
    (∃ done s' k, (copyout proc proc.pagetable dstva src).run s = .ok (done, s') ∧
      -- all bytes are stored, or those before a page boundary
      k ≤ src.length ∧ (done = true → k = src.length) ∧ (done = false → k = 0 ∨ (dstva + k) % pgsize = 0) ∧
      (∀ i < k, accessible s proc true (pgrounddown (dstva + i)) = true) ∧
      (∀ va < maxva, view s' proc.pagetable va =
        if dstva ≤ va ∧ va < dstva + k then src.getD (va - dstva) 0 else view s proc.pagetable va) ∧
      (∀ va < maxva, ∀ w, leaf? s.ram proc.pagetable (path va) = some w → w &&& pteU = 0 ∨ w &&& pteW = 0 →
        s'.ram (pte2pa w) = s.ram (pte2pa w)) ∧
      (∀ a, ¬ InTable s.ram proc.pagetable a → a ∉ s.freelist →
        (∀ v w, leaf? s.ram proc.pagetable v = some w → pte2pa w ≠ a) → s'.ram a = s.ram a) ∧
      (copyin proc proc.pagetable dstva k).run s' = .ok ((src.take k, true), s')) ∧
    ∃ bytes done, (copyinstr proc.pagetable srcva max).run s = .ok ((bytes, done), s) ∧
      (done = true ↔ ∃ n < max, view s proc.pagetable (srcva + n) = 0 ∧
        ∀ i ≤ n, readable s proc.pagetable (pgrounddown (srcva + i)) = true) ∧
      (done = true → ∃ n < max, bytes = (List.range (n + 1)).map (fun i => view s proc.pagetable (srcva + i)) ∧
        view s proc.pagetable (srcva + n) = 0 ∧ ∀ i < n, view s proc.pagetable (srcva + i) ≠ 0) := by
  constructor
  · obtain ⟨done, s', ran, acts, ⟨k, stored⟩, -⟩ := (copyoutLoop_ensures src.length space small dstva src).exists_run
    refine ⟨done, s', k, ran, stored.within, fun all => stored.finished all le_rfl,
      fun failed => (stored.stopped failed).2,
      stored.allowed, stored.seen, fun va inside w found denied => stored.page_kept acts inside found denied,
      fun a outside used unmapped => acts.frame a outside used fun v w found _ => unmapped v w found, ?_⟩
    rw [copyin_mapped acts.space small fun i low => ?_]
    · congr 3
      refine List.ext_getElem (by simpa using stored.within) fun i left right => ?_
      simp only [List.length_map, List.length_range] at left
      have within := stored.within
      rw [List.getElem_map, List.getElem_range, stored.seen _ (stored.present i left).1, if_pos (by omega),
        Nat.add_sub_cancel_left,
        List.getElem_take, List.getD_eq_getElem?_getD, List.getElem?_eq_getElem (by omega), Option.getD_some]
    · obtain ⟨inside, w, found, user, -⟩ := stored.present i low
      exact ⟨inside, w, found, user⟩
  · refine ⟨_, _, copyinstrLoop_run max space srcva max, readString_iff srcva max, fun got => ?_⟩
    obtain ⟨n, low, ends, bytes⟩ := readString_ends max srcva max got
    exact ⟨n, low, bytes, ends.zero, ends.first⟩

/-- Five bytes to the page that has not been allocated yet: what is stored is read again. -/
theorem user_copies_lazyProcess : ∃ done s' k,
    (copyout lazyProcess lazyProcess.pagetable 100 [104, 101, 108, 108, 111]).run lazyMemory = .ok (done, s') ∧
    (done = true → k = 5) ∧
    (copyin lazyProcess lazyProcess.pagetable 100 k).run s' = .ok (([104, 101, 108, 108, 111].take k, true), s') := by
  obtain ⟨⟨done, s', k, ran, -, finished, -, -, -, -, -, again⟩, -⟩ :=
    user_copies lazyMemory_space (by decide) 100 [104, 101, 108, 108, 111] 0 16
  exact ⟨done, s', k, ran, finished, again⟩

end Xv6.Sv39
