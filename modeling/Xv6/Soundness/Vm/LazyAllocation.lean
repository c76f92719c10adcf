import Xv6.Proofs.Vm.UserMemory

/-! # Pages that have not been allocated yet

`copyin` and `copyout` treat a page below the size of a process that has not been allocated like a page of
zeros: they return and transfer the same whether the process has touched the page or not. `copyinstr` fails
when a string reaches such a page.
-/

namespace Xv6.Sv39

open Machine
open Vm (pgsize maxva px path vaddr vaddr_path path_vaddr eq_path_iff pgrounddown)

variable {s s' : Phys} {root : ℕ} {proc : Process} {fails : Panic → Prop}

/-- The process touches pages, one after the other. -/
def faultIn (proc : Process) (vas : List ℕ) : Mem Unit :=
  vas.forM fun va => do
    let _ ← vmfault proc proc.pagetable va

theorem faultIn_ensures (vas : List ℕ) (space : Space s proc.pagetable) (small : proc.sz ≤ maxva) :
    Ensures (faultIn proc vas) s (fun _ s' => Faults proc.pagetable proc.sz s s') fails := by
  refine .forM_list (fun s' => Faults proc.pagetable proc.sz s s') (.refl space) (fun va s₁ faults => ?_) vas
  refine (vmfault_ensures faults.space small va).bind ?_
  rintro _ s₂ ⟨faults₁, -⟩
  exact .pure (faults.trans space faults₁)

/-! ## Strings -/

/-- The page that starts at an address is allocated, and the user may read it. -/
def readable (s : Phys) (root va : ℕ) : Bool :=
  decide (va < maxva) && (leaf? s.ram root (path va)).elim false fun w => w &&& pteU ≠ 0

/-- The loop of `copyinstr` over a memory of bytes, some of which can be read. -/
def readString (access : ℕ → Bool) (memory : ℕ → UInt8) (srcva max : ℕ) : ℕ → List UInt8 × Bool
  | 0 => ([], false)
  | rounds + 1 =>
      if max = 0 then ([], false)
      else if access (pgrounddown srcva) then
        let n := min (pgsize - (srcva - pgrounddown srcva)) max
        let here := copyString ((List.range n).map fun i => memory (srcva + i))
        if here.2 then (here.1, true)
        else
          let rest := readString access memory (pgrounddown srcva + pgsize) (max - n) rounds
          (here.1 ++ rest.1, rest.2)
      else ([], false)

theorem copyinstrLoop_run (rounds : ℕ) (space : Space s root) (srcva max : ℕ) :
    (copyinstrLoop root srcva max rounds).run s =
    .ok (readString (readable s root) (view s root) srcva max rounds, s) := by
  induction rounds generalizing srcva max with
  | zero => rfl
  | succ rounds ih =>
    unfold copyinstrLoop readString
    refine Ensures.run_eq (.ite (fun zero => .pure ⟨by rw [if_pos zero], rfl⟩) fun some_left => ?_)
    rw [if_neg some_left]
    refine .run_bind (walkaddr_run _) ?_
    have stop {found : List UInt8 × Bool} (refused : readable s root (pgrounddown srcva) = false) :
        Ensures (pure ([], false) : Mem (List UInt8 × Bool)) s
          (fun r s' => r = (if readable s root (pgrounddown srcva) = true then found else ([], false)) ∧
            s' = s) fun _ => False :=
      .pure ⟨by rw [if_neg (by simp [refused])], rfl⟩
    by_cases outside : maxva ≤ pgrounddown srcva
    · rw [if_pos outside]
      exact stop (by simp [readable, outside])
    rw [if_neg outside]
    cases found : leaf? s.ram root (path (pgrounddown srcva)) with
    | none => exact stop (by simp [readable, found])
    | some w =>
      rw [Option.bind_some]
      by_cases kernel : w &&& pteU = 0
      · rw [if_pos kernel]
        exact stop (by simp [readable, found, kernel])
      rw [if_neg kernel, nonnull, if_neg (space.mapped _ w found).1,
        if_pos (by simp [readable, found, kernel, not_le.mp outside])]
      refine .get_bind ?_
      rw [slice_view found (Nat.min_le_left _ _)]
      refine .ite (fun got => .pure ⟨by simp [got], rfl⟩) fun missing => .run_bind (ih _ _) (.pure ⟨?_, rfl⟩)
      simp [missing]

theorem copyString_snd (bytes : List UInt8) : (copyString bytes).2 = true ↔ 0 ∈ bytes := by
  induction bytes with
  | nil => simp [copyString]
  | cons c rest ih =>
    rw [copyString]
    split_ifs with zero
    · simp [zero]
    · simp [ih, Ne.symm zero]

/-- A string that starts at an address goes on at least to another one. -/
def Reaches (access : ℕ → Bool) (memory : ℕ → UInt8) (srcva a : ℕ) : Prop :=
  ∀ x, srcva ≤ x → x < a → memory x ≠ 0 ∧ access (pgrounddown x) = true

section Strings

variable {access access' : ℕ → Bool} {memory : ℕ → UInt8}

/-- The string does not end before the end of a page. -/
theorem Reaches.next {srcva max a : ℕ}
    (missing : ¬ (copyString ((List.range (min (pgsize - (srcva - pgrounddown srcva)) max)).map fun i =>
      memory (srcva + i))).2 = true)
    (page : access (pgrounddown srcva) = true) (reaches : Reaches access memory (pgrounddown srcva + pgsize) a)
    (below : a < pgrounddown srcva + pgsize + (max - min (pgsize - (srcva - pgrounddown srcva)) max))
    (above : pgrounddown srcva + pgsize ≤ a) : Reaches access memory srcva a := by
  intro x start stop
  have down := pgrounddown_le srcva
  rcases lt_or_ge x (pgrounddown srcva + pgsize) with here | later
  · have same : pgrounddown x = pgrounddown srcva := by
      unfold pgrounddown pgsize at *
      omega
    refine ⟨fun zero => missing ((copyString_snd _).mpr ?_), by rw [same, page]⟩
    exact List.mem_map.mpr ⟨x - srcva, List.mem_range.mpr (by omega), by rw [Nat.add_sub_cancel' start, zero]⟩
  · exact reaches x later stop

/-- Only the pages that a string reaches matter. -/
theorem readString_congr (rounds srcva max : ℕ) (same : ∀ x, srcva ≤ x → x < srcva + max →
    Reaches access memory srcva x → access (pgrounddown x) = access' (pgrounddown x)) :
    readString access memory srcva max rounds = readString access' memory srcva max rounds := by
  induction rounds generalizing srcva max with
  | zero => rfl
  | succ rounds ih =>
    unfold readString
    by_cases empty : max = 0
    · rw [if_pos empty, if_pos empty]
    have down := pgrounddown_le srcva
    rw [if_neg empty, if_neg empty, ← same srcva le_rfl (by omega) fun x start stop => by omega]
    by_cases page : access (pgrounddown srcva) = true
    · rw [if_pos page, if_pos page]
      dsimp only
      split_ifs with got
      · rfl
      · rw [ih _ _ fun x above below reaches => same x (by omega) (by omega) (reaches.next got page below above)]
    · rw [if_neg page, if_neg page]

/-- A string that reaches a zero ends there, if the page can be read. -/
theorem readString_reaches (rounds srcva max : ℕ) {x : ℕ} (enough : max ≤ rounds) (above : srcva ≤ x)
    (below : x < srcva + max)
    (reaches : Reaches access memory srcva x) (zero : memory x = 0) :
    (readString access memory srcva max rounds).2 = access (pgrounddown x) := by
  induction rounds generalizing srcva max with
  | zero => omega
  | succ rounds ih =>
    have down := pgrounddown_le srcva
    have page : 0 < pgsize := by decide
    unfold readString
    rw [if_neg (by omega)]
    rcases lt_or_ge x (pgrounddown srcva + pgsize) with here | later
    · have same : pgrounddown x = pgrounddown srcva := by
        unfold pgrounddown pgsize at *
        omega
      have got :
          (copyString ((List.range (min (pgsize - (srcva - pgrounddown srcva)) max)).map fun i =>
          memory (srcva + i))).2 = true :=
        (copyString_snd _).mpr (List.mem_map.mpr ⟨x - srcva,
          List.mem_range.mpr (by omega), by rw [Nat.add_sub_cancel' above, zero]⟩)
      rw [same]
      cases access (pgrounddown srcva) with
      | false => rfl
      | true => simp only [↓reduceIte, got]
    · have missing : ¬ (copyString ((List.range (min (pgsize - (srcva - pgrounddown srcva)) max)).map
          fun i => memory (srcva + i))).2 = true := by
        rw [copyString_snd, List.mem_map]
        rintro ⟨i, listed, at_i⟩
        rw [List.mem_range] at listed
        exact (reaches (srcva + i) (by omega) (by omega)).1 at_i
      rw [if_pos (reaches srcva le_rfl (by omega)).2]
      dsimp only
      rw [if_neg missing]
      exact ih _ _ (by omega) later (by omega) fun y start stop => reaches y (by omega) stop

end Strings

/-! ## Faulting pages in first -/

/-- `copyin`, `copyout` and `copyinstr` return and transfer the same, whichever pages the process has touched
before. -/
def Invisible (proc : Process) (s : Phys) (va len : ℕ) : Prop :=
  ∀ vas s', (faultIn proc vas).run s = .ok ((), s') → 3 * spanned va len ≤ s'.supply →
    (∀ src, src.length = len → ∃ done t t', (copyout proc proc.pagetable va src).run s = .ok (done, t) ∧
      (copyout proc proc.pagetable va src).run s' = .ok (done, t') ∧
      ∀ a < maxva, view t' proc.pagetable a = view t proc.pagetable a) ∧
    (∃ r t t', (copyin proc proc.pagetable va len).run s = .ok (r, t) ∧ (copyin proc proc.pagetable va len).run s' =
      .ok (r, t')) ∧
    ∃ r t t', (copyinstr proc.pagetable va len).run s = .ok (r, t) ∧
    (copyinstr proc.pagetable va len).run s' = .ok (r, t')

section

variable (space : Space s proc.pagetable) (small : proc.sz ≤ maxva) (faults : Faults proc.pagetable proc.sz s s')
include space small faults

theorem copyout_agrees {va : ℕ}
    (src : List UInt8) (enough : 3 * spanned va src.length ≤ s.supply)
    (enough' : 3 * spanned va src.length ≤ s'.supply) :
    ∃ done t t', (copyout proc proc.pagetable va src).run s = .ok (done, t) ∧
      (copyout proc proc.pagetable va src).run s' = .ok (done, t') ∧
      ∀ a < maxva, view t' proc.pagetable a = view t proc.pagetable a := by
  obtain ⟨done, t, ran, -, -, written⟩ := (copyoutLoop_ensures src.length space small va src).exists_run
  obtain ⟨done', t', ran', -, -, written'⟩ := (copyoutLoop_ensures src.length faults.space small va src).exists_run
  obtain ⟨same_done, same_view⟩ := written enough
  obtain ⟨same_done', same_view'⟩ := written' enough'
  obtain ⟨first, second⟩ := writeBytes_congr (fun va aligned => faults.accessible aligned true)
    (fun a _ => faults.view space a) va src src.length
  obtain rfl : done' = done := by rw [same_done, same_done', first]
  exact ⟨done', t, t', ran, ran', fun a below => by rw [same_view a below, same_view' a below, second a below]⟩

theorem copyin_agrees {va len : ℕ} (enough : 3 * spanned va len ≤ s.supply) (enough' : 3 * spanned va len ≤ s'.supply) :
    ∃ r t t', (copyin proc proc.pagetable va len).run s = .ok (r, t) ∧ (copyin proc proc.pagetable va len).run s' =
    .ok (r, t') := by
  obtain ⟨r, t, ran, -, -, -, -, -, read⟩ := (copyinLoop_ensures len space small va len).exists_run
  obtain ⟨r', t', ran', -, -, -, -, -, read'⟩ := (copyinLoop_ensures len faults.space small va len).exists_run
  obtain rfl : r' = r := by
    rw [read enough, read' enough', funext (faults.view space), readBytes_congr fun va aligned =>
      faults.accessible aligned false]
  exact ⟨r', t, t', ran, ran'⟩

end

theorem Faults.readable (faults : Faults proc.pagetable proc.sz s s') {va : ℕ}
    (there : leaf? s.ram proc.pagetable (path va) ≠ none) :
    readable s' proc.pagetable va = readable s proc.pagetable va := by
  obtain ⟨w, found⟩ := Option.ne_none_iff_exists'.mp there
  rw [Sv39.readable, Sv39.readable, found, faults.leaf _ w found]

/-- Given enough pages, system calls on a range below the size of a process do not notice which of its pages
have been allocated if and only if a string in the range that is read by `copyinstr` reaches allocated pages
only. -/
theorem copies_agree_iff {va len : ℕ} (space : Space s proc.pagetable) (small : proc.sz ≤ maxva)
    (range : va + len ≤ proc.sz)
    (enough : 3 * spanned va len + 3 ≤ s.supply) : Invisible proc s va len ↔
      ∀ x, va ≤ x → x < va + len → Reaches (readable s proc.pagetable) (view s proc.pagetable) va x →
        leaf? s.ram proc.pagetable (path x) ≠ none := by
  constructor
  · intro invisible x above below reaches vacant
    have spec : Ensures (vmfault proc proc.pagetable (pgrounddown x)) s _ fun _ => False :=
      vmfault_ensures space small _
    obtain ⟨r, s', ran, faults, supply, mapped, failed⟩ := spec.exists_run
    have down := pgrounddown_le x
    rw [path_pgrounddown] at mapped failed
    cases r with
    | none => rcases failed rfl with outside | there | lacking <;> first | omega | exact there vacant
    | some pa =>
      obtain ⟨-, -, leaf, -⟩ := mapped pa rfl
      have faulted : (faultIn proc [pgrounddown x]).run s = .ok ((), s') := by simp [faultIn, ran]
      obtain ⟨-, -, r, t, t', before, after⟩ := invisible _ s' faulted (by omega)
      rw [copyinstr, copyinstrLoop_run len space] at before
      rw [copyinstr, copyinstrLoop_run len faults.space, funext (faults.view space)] at after
      have same := (Prod.mk.inj (Except.ok.inj before)).1.trans (Prod.mk.inj (Except.ok.inj after)).1.symm
      have zero : view s proc.pagetable x = 0 := by rw [view, vacant, Option.elim_none]
      have reaches' : Reaches (readable s' proc.pagetable) (view s proc.pagetable) va x := by
        intro y start stop
        obtain ⟨nonzero, page⟩ := reaches y start stop
        refine ⟨nonzero, ?_⟩
        rw [faults.readable, page]
        intro absent
        simp [readable, absent] at page
      -- the string ends in the page now, and could not be read before
      have before' : readable s proc.pagetable (pgrounddown x) = false := by simp [readable, path_pgrounddown, vacant]
      have after' : readable s' proc.pagetable (pgrounddown x) = true := by
        have user : lazyWord pa &&& pteU ≠ 0 := leafWord_and (by decide)
        have inside : pgrounddown x < maxva := by omega
        simp [readable, path_pgrounddown, leaf, user, inside]
      rw [← readString_reaches len va len le_rfl above below reaches zero, same,
        readString_reaches len va len le_rfl above below reaches' zero, after'] at before'
      cases before'
  · intro allocated vas s' ran enough'
    have spec : Ensures (faultIn proc vas) s _ fun _ => True := faultIn_ensures vas space small
    have faults := spec.of_run ran
    refine ⟨fun src size => ?_, copyin_agrees space small faults (by omega) enough', ?_⟩
    · subst size
      exact copyout_agrees space small faults src (by omega) enough'
    · have same : readString (readable s proc.pagetable) (view s proc.pagetable) va len len =
          readString (readable s' proc.pagetable) (view s' proc.pagetable) va len len := by
        rw [funext (faults.view space)]
        refine readString_congr len va len fun x above below reaches => (faults.readable ?_).symm
        rw [path_pgrounddown]
        exact allocated x above below reaches
      refine ⟨_, s, s', copyinstrLoop_run len space va len, ?_⟩
      rw [copyinstr, copyinstrLoop_run len faults.space, same]

/-- A process of one page that it has not touched. -/
def lazyProcess : Process := ⟨0x80000000, 4096⟩

def lazyMemory : Phys where
  ram _ := .filled 0
  freelist := [0x80001000, 0x80002000, 0x80003000, 0x80004000, 0x80005000, 0x80006000]
  refusals := []
  kernelEnd := 0x80000000

theorem lazyMemory_space : Space lazyMemory lazyProcess.pagetable := by
  have absent {v} {w : UInt64} (found : leaf? lazyMemory.ram lazyProcess.pagetable v = some w) : False := by
    rw [leaf?_zeroed rfl v] at found
    cases found
  exact ⟨.zeroed ⟨by decide, by decide⟩ (by decide) rfl (by decide), by decide, fun _ _ found => (absent found).elim,
    fun _ _ _ _ found => (absent found).elim⟩

/-- The empty string at the start of the page cannot be read until the process has touched the page. -/
theorem copyinstr_untouched :
    ∃ pa s', (vmfault lazyProcess lazyProcess.pagetable 0).run lazyMemory = .ok (some pa, s') ∧
    (copyinstr lazyProcess.pagetable 0 16).run lazyMemory = .ok (([], false), lazyMemory) ∧
    (copyinstr lazyProcess.pagetable 0 16).run s' = .ok (([0], true), s') := by
  have vacant (v) : leaf? lazyMemory.ram lazyProcess.pagetable v = none := leaf?_zeroed rfl v
  have zeros : view lazyMemory lazyProcess.pagetable = fun _ => 0 := by
    funext a
    rw [view, vacant, Option.elim_none]
  have spec : Ensures (vmfault lazyProcess lazyProcess.pagetable 0) lazyMemory _ fun _ => False :=
    vmfault_ensures lazyMemory_space (by decide) 0
  obtain ⟨r, s', ran, faults, -, mapped, failed⟩ := spec.exists_run
  cases r with
  | none =>
    rcases failed rfl with outside | there | lacking
    · exact absurd outside (by decide)
    · exact absurd (vacant _) there
    · exact absurd lacking (by decide)
  | some pa =>
    obtain ⟨-, -, leaf, -⟩ := mapped pa rfl
    have user : lazyWord pa &&& pteU ≠ 0 := leafWord_and (by decide)
    have before : readable lazyMemory lazyProcess.pagetable 0 = false := by simp [readable, vacant]
    have after : readable s' lazyProcess.pagetable 0 = true := by
      have inside : 0 < maxva := by decide
      simp [readable, leaf, user, inside]
    refine ⟨pa, s', ran, ?_, ?_⟩
    · rw [copyinstr, copyinstrLoop_run 16 lazyMemory_space, readString]
      simp [pgrounddown, before]
    · rw [copyinstr, copyinstrLoop_run 16 faults.space, funext (faults.view lazyMemory_space), zeros, readString]
      simp [pgrounddown, pgsize, after, copyString, List.range_succ_eq_map]

/-- The range of the example is one where the calls differ. -/
theorem copies_agree_iff_lazyProcess : ¬ Invisible lazyProcess lazyMemory 0 16 := by
  rw [copies_agree_iff lazyMemory_space (by decide) (by decide) (by decide)]
  exact fun allocated => allocated 0 le_rfl (by decide) (fun x _ below => absurd below (Nat.not_lt_zero x))
    (leaf?_zeroed rfl _)

end Xv6.Sv39
