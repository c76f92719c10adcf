import Xv6.Proofs.Vm.ExecStack

/-! # What `kexec` does to a process

For every file and every list of arguments, `kexec` returns. When it fails, the process and the free pages are
as before. When it succeeds, the old image has been freed, and the stack of the new one holds the arguments.
-/

namespace Xv6.Sv39

open Machine
open Vm (pgsize maxva pgroundup path vaddr Kept maxarg userstack)

variable {base s s' : Phys} {root sz trampoline : ℕ} {p : Proc} {fails : Panic → Prop}

theorem Resident.of_same (resident : Resident s root sz) (free : Free s') (kernelEnd : s'.kernelEnd = s.kernelEnd)
    (same : ∀ a, InTable s.ram root a → s'.ram a = s.ram a) (tables : ∀ a, InTable s.ram root a → a ∉ s'.freelist)
    (pages : ∀ v w, leaf? s.ram root v = some w → pte2pa w ∉ s'.freelist) :
    Resident s' root sz ∧ Holds s'.ram root = Holds s.ram root := by
  have leaf := leaf?_same same
  have holds : Holds s'.ram root = Holds s.ram root := by
    funext a
    rw [Holds, Holds, leaf, inTable_same same]
  refine ⟨⟨⟨resident.toWellFormed.of_same free same tables, kernelEnd.symm ▸ resident.kernel, fun v w found => ?_,
    ?_⟩, ?_, ?_, ?_, resident.bound⟩, holds⟩
  · rw [leaf] at found
    obtain ⟨nonzero, -, outside⟩ := resident.mapped v w found
    exact ⟨nonzero, pages v w found, fun inside => outside ((inTable_same same).mp inside)⟩
  · rw [leaf]
    exact resident.distinct
  · exact resident.pointers.of_same (fun p short => node?_same same (by omega)) fun p a short at_p =>
      same a ⟨p, by omega, at_p⟩
  · rw [holds, kernelEnd]
    exact resident.managed
  · rw [leaf]
    exact resident.below

variable {a frame entry stack : ℕ} {name : List UInt8} {argv : List (List UInt8)} {file : Option (List UInt8)}

theorem Resident.used (resident : Resident s root sz) (held : Holds s.ram root a) : a ∉ s.freelist := by
  rcases held with inside | ⟨v, w, -, found, rfl⟩
  · exact resident.apart a inside
  · exact (resident.mapped v w found).2.1

/-- A process between two calls: its memory, and its trapframe, which is a page of its own. -/
structure Proc.Valid (trampoline : ℕ) (s : Phys) (p : Proc) : Prop where
  resident : Resident s p.pagetable p.sz
  fixed : Fixed s trampoline p.trapframe
  apart : ¬ Holds s.ram p.pagetable p.trapframe

/-! ## The new image takes the place of the old one -/

/-- What `commit` leaves of the memory: the new image, the registers, and the pages of the old image on the free list.
-/
structure Committed (base : Phys) (p : Proc) (root entry stack : ℕ) (s s' : Phys) : Prop where
  same : ∀ a, InTable s.ram root a ∨ (∃ v w, leaf? s.ram root v = some w ∧ w &&& pteU ≠ 0 ∧ pte2pa w = a) →
    s'.ram a = s.ram a
  registers : s'.load ⟨p.trapframe, a1⟩ = UInt64.ofNat stack ∧ s'.load ⟨p.trapframe, epc⟩ = UInt64.ofNat entry ∧
    s'.load ⟨p.trapframe, sp⟩ = UInt64.ofNat stack
  pages : ∀ a, a ∈ s'.freelist ∨ Holds s'.ram root a ↔ a ∈ base.freelist ∨ Holds base.ram p.pagetable a

/-- The registers are stored in the page of the trapframe. -/
def Phys.setRegisters (s : Phys) (frame entry stack : ℕ) : Phys :=
  ((s.store ⟨frame, a1⟩ (UInt64.ofNat stack)).store ⟨frame, epc⟩ (UInt64.ofNat entry)).store ⟨frame,
    sp⟩ (UInt64.ofNat stack)

theorem setRegisters_ram (other : a ≠ frame) : (s.setRegisters frame entry stack).ram a = s.ram a := by
  rw [Phys.setRegisters, Phys.store, Phys.setPage_of_ne other, Phys.store, Phys.setPage_of_ne other, Phys.store,
    Phys.setPage_of_ne other]

theorem setRegisters_load :
    (s.setRegisters frame entry stack).load ⟨frame, a1⟩ = UInt64.ofNat stack ∧
    (s.setRegisters frame entry stack).load ⟨frame, epc⟩ = UInt64.ofNat entry ∧
    (s.setRegisters frame entry stack).load ⟨frame, sp⟩ = UInt64.ofNat stack := by
  have self (t : Phys) (i : Fin 512) (value : UInt64) : (t.store ⟨frame, i⟩ value).load ⟨frame, i⟩ = value := by
    rw [Phys.load, Phys.store, Phys.setPage_self]
    exact Vector.word64_setWord64_self _ _ (by omega)
  have other (t : Phys) {i j : Fin 512} (value : UInt64) (differ : i.val ≠ j.val) :
      (t.store ⟨frame, i⟩ value).load ⟨frame, j⟩ = t.load ⟨frame, j⟩ := by
    rw [Phys.load, Phys.store, Phys.setPage_self, Vector.word64_setWord64_of_ne _ _ differ]
    rfl
  refine ⟨?_, ?_, self _ _ _⟩
  · rw [Phys.setRegisters, other _ _ (by decide), other _ _ (by decide), self]
  · rw [Phys.setRegisters, other _ _ (by decide), self]

section

variable (valid : p.Valid trampoline base) (image : Image base root sz s)
  (top : ∀ v w, Kept v → leaf? s.ram root v = some w → pte2pa w = trampoline ∨ pte2pa w = p.trapframe)
include valid image top

theorem replaced {s₁ : Phys} (stored : ∀ a ≠ p.trapframe, s₁.ram a = s.ram a) (freelist : s₁.freelist = s.freelist)
    (kernelEnd : s₁.kernelEnd = s.kernelEnd)
    (registers : s₁.load ⟨p.trapframe, a1⟩ = UInt64.ofNat stack ∧ s₁.load ⟨p.trapframe, epc⟩ = UInt64.ofNat entry ∧
      s₁.load ⟨p.trapframe, sp⟩ = UInt64.ofNat stack) :
    Ensures (procFreepagetable p.pagetable p.sz) s₁ (fun _ s' => Resident s' root sz ∧ Fixed s' trampoline p.trapframe ∧
      ¬ Holds s'.ram root p.trapframe ∧ Committed base p root entry stack s s') fails := by
  have listed {a} (free : a ∈ s.freelist) : a ∈ base.freelist := (image.conserved a).mpr (.inl free)
  have frame_used : p.trapframe ∉ base.freelist := valid.fixed.used
  have free₁ : Free s₁ := ⟨freelist ▸ image.nodup, by rw [freelist, kernelEnd]; exact image.pages⟩
  -- the old image is as it was
  obtain ⟨old, holds⟩ := valid.resident.of_same free₁ (kernelEnd.trans image.sameEnd) (fun a inside => by
      rw [stored a, image.unchanged a (valid.resident.apart a inside)]
      rintro rfl
      exact valid.apart (.inl inside))
    (fun a inside free => valid.resident.apart a inside (listed (freelist ▸ free)))
    (fun v w found free => (valid.resident.mapped v w found).2.1 (listed (freelist ▸ free)))
  refine (procFreepagetable_ensures old).mono fun _ s₂ frees => ?_
  rw [holds] at frees
  have released (a : ℕ) : a ∈ s₂.freelist ↔ a ∈ s.freelist ∨ Holds base.ram p.pagetable a := by
    rw [frees.listed, freelist]
  have frame_used₂ : p.trapframe ∉ s₂.freelist := by
    rw [released]
    rintro (free | held)
    · exact frame_used (listed free)
    · exact valid.apart held
  -- the new image was free before, so it has no page in common with the old one
  have fresh {a} (own : a ∈ base.freelist) (used : a ∉ s.freelist) : a ∉ s₂.freelist ∧ s₂.ram a = s.ram a := by
    have used₂ : a ∉ s₂.freelist := by
      rw [released]
      rintro (free | held)
      · exact used free
      · exact valid.resident.used held own
    refine ⟨used₂, ?_⟩
    rw [frees.frame a used₂, stored a]
    rintro rfl
    exact frame_used own
  have tables {a} (inside : InTable s.ram root a) :=
    fresh ((image.conserved a).mpr (.inr (.inl inside))) (image.apart a inside)
  have pages {v w} (user : ¬ Kept v) (found : leaf? s.ram root v = some w) :=
    fresh (image.of_page user found) (image.mapped v w found).2.1
  obtain ⟨new, holds₂⟩ :=
    image.resident.of_same frees.free (frees.kernelEnd.trans kernelEnd) (fun a inside => (tables inside).2)
    (fun a inside => (tables inside).1) (fun v w found => by
      by_cases kept : Kept v
      · rw [released]
        rintro (free | held)
        · exact (image.mapped v w found).2.1 free
        · rcases top v w kept found with page | page
          · rw [page] at held
            exact absurd (valid.resident.managed _ held).2.1 (not_le.mpr valid.fixed.kernel)
          · rw [page] at held
            exact valid.apart held
      · exact (pages kept found).1)
  have end₂ : s₂.kernelEnd = base.kernelEnd := frees.kernelEnd.trans (kernelEnd.trans image.sameEnd)
  refine ⟨new, ⟨valid.fixed.aligned, valid.fixed.nonzero, end₂.symm ▸ valid.fixed.kernel, valid.fixed.memory,
    end₂.symm ▸ valid.fixed.managed, frame_used₂⟩, ?_, ?_, ?_, fun a => ?_⟩
  · rw [holds₂]
    exact fun held => frame_used ((image.conserved _).mpr (.inr held))
  · rintro a (inside | ⟨v, w, found, user, rfl⟩)
    · exact (tables inside).2
    · exact (pages (fun kept => user (image.kernelOnly v w kept found)) found).2
  · unfold Phys.load at registers ⊢
    rw [frees.frame _ frame_used₂]
    exact registers
  · rw [released, holds₂, image.conserved]
    tauto

theorem commit_ensures :
    Ensures (commit p name root sz entry stack) s (fun p' s' =>
      p' = { p with pagetable := root, sz := sz, name := programName name } ∧ p'.Valid trampoline s' ∧
      Committed base p root entry stack s s') fails := by
  unfold commit setRegister
  refine store_bind (store_bind (store_bind ?_))
  refine (replaced valid image top (fun a other => setRegisters_ram other) rfl rfl setRegisters_load).bind ?_
  rintro _ s' ⟨resident, fixed, apart, committed⟩
  exact .pure ⟨rfl, ⟨resident, fixed, apart⟩, committed⟩

end

/-! ## `kexec` -/

theorem Arguments.congr {memory memory' : ℕ → UInt8} {low high sp : ℕ} {ptrs : List ℕ}
    (arguments : Arguments memory low high argv sp ptrs) (same : ∀ va, low ≤ va → va < high → memory' va = memory va) :
    Arguments memory' low high argv sp ptrs := by
  refine ⟨arguments.aligned, arguments.copies.imp ?_, fun i last => ?_, arguments.inside, arguments.apart⟩
  · rintro a arg ⟨aligned, above, below, bytes⟩
    refine ⟨aligned, above, below, bytes ▸ List.map_congr_left fun i listed => ?_⟩
    exact same (a + i) (by omega) (by have := List.mem_range.mp listed; omega)
  · obtain ⟨above, below⟩ := arguments.inside
    rw [← arguments.words i last, wordAt, wordAt]
    refine congrArg le (List.map_congr_left fun k listed => ?_)
    have := List.mem_range.mp listed
    exact same (sp + 8 * i + k) (by omega) (by omega)

/-- A program that starts with its arguments on the stack, above a page that it cannot access. -/
structure Passed (s : Phys) (p : Proc) (argc : ℤ) (argv : List (List UInt8)) (stack : ℕ) (ptrs : List ℕ) : Prop where
  argc : argc = argv.length
  registers : (s.load ⟨p.trapframe, sp⟩).toNat = stack ∧ (s.load ⟨p.trapframe, a1⟩).toNat = stack
  arguments : Arguments (view s p.pagetable) (p.sz - userstack * pgsize) p.sz argv stack ptrs
  writable : Writable s p.pagetable (p.sz - userstack * pgsize) p.sz
  guard : ∃ w, leaf? s.ram p.pagetable (path (p.sz - (userstack + 1) * pgsize)) = some w ∧ w &&& pteU = 0

/-- What `kexec` does. -/
structure Executed (trampoline : ℕ) (p : Proc) (file : Option (List UInt8)) (argv : List (List UInt8)) (s : Phys)
    (r : Proc × ℤ)
    (s' : Phys) : Prop where
  failed : r.2 = -1 → r.1 = p ∧ Frees (fun _ => False) s s'
  replaced : r.2 ≠ -1 → r.1.Valid trampoline s' ∧ ∃ stack ptrs, Passed s' r.1 r.2 argv stack ptrs
  large : userstack * pgsize < argumentsSize argv → r.2 = -1
  reason : r.2 = -1 → ∀ program size, file = some program → imageSize program = some size →
    5 + 3 * (pageCount size + userstack + 1) ≤ s.supply → userstack * pgsize < argumentsSize argv

theorem Executed.error (restored : Frees (fun _ => False) s s')
    (reason : ∀ program size, file = some program → imageSize program = some size →
      5 + 3 * (pageCount size + userstack + 1) ≤ s.supply → userstack * pgsize < argumentsSize argv) :
    Executed trampoline p file argv s (p, -1) s' where
  failed _ := ⟨rfl, restored⟩
  replaced wrong := absurd rfl wrong
  large _ := rfl
  reason _ := reason

theorem Frees.refl (free : Free s) : Frees (fun _ => False) s s where
  free := free
  kernelEnd := rfl
  listed _ := (or_false _).symm ▸ Iff.rfl
  frame _ _ := rfl

theorem Built.passed {size : ℕ} {s₀ : Phys}
    (built : Built base root size argv s₀ (sz, some stack) s) (committed : Committed base p root entry stack s s') :
    ∃ ptrs, Passed s' { p with pagetable := root, sz := sz, name := name } argv.length argv stack ptrs := by
  obtain ⟨ptrs, arguments⟩ := built.arguments stack rfl
  have writable := built.stack stack rfl
  have top := built.size stack rfl
  have inside := arguments.inside
  have bound := built.image.below_trapframe
  have limit : Vm.trapframe < UInt64.size := by decide
  have rounded := Vm.le_pgroundup sz
  dsimp only at *
  have stack_page : sz - userstack * pgsize = pgroundup size + pgsize := by
    rw [top, show userstack * pgsize = pgsize from rfl, show (userstack + 1) * pgsize = pgsize + pgsize from rfl]
    omega
  have guard_page : sz - (userstack + 1) * pgsize = pgroundup size := by
    rw [top]
    exact Nat.add_sub_cancel _ _
  have leaf : leaf? s'.ram root = leaf? s.ram root := leaf?_same fun a there => committed.same a (.inl there)
  have word : (UInt64.ofNat stack).toNat = stack := by
    rw [UInt64.toNat_ofNat']
    exact Nat.mod_eq_of_lt (show stack < UInt64.size by omega)
  obtain ⟨first, -, second⟩ := committed.registers
  refine ⟨ptrs, rfl, ⟨second ▸ word, first ▸ word⟩, ?_, ?_, ?_⟩
  · dsimp only
    rw [stack_page]
    refine arguments.congr fun va above below => ?_
    obtain ⟨-, w, found, user, -⟩ := writable va above below
    rw [view, view, leaf, found, Option.elim_some, Option.elim_some, committed.same _ (.inr ⟨_, w, found, user, rfl⟩)]
  · dsimp only
    rw [stack_page, Writable, leaf]
    exact writable
  · dsimp only
    rw [guard_page, leaf]
    exact built.guard stack rfl

theorem kexec_ensures (valid : p.Valid trampoline s)
    (few : argv.length < maxarg) (short : ∀ arg ∈ argv, arg.length < pgsize) :
    Ensures (kexec trampoline p name file argv) s (Executed trampoline p file argv s) fails := by
  have free : Free s := valid.resident.toFree
  cases file with
  | none => exact .pure (.error (.refl free) (by rintro _ _ ⟨⟩))
  | some program =>
    rw [kexec]
    dsimp only
    have size_of {size} (found : imageSize program = some size) : ¬ ((readi program 0 64).length ≠ 64 ∨
        (Elfhdr.decode (readi program 0 64)).magic ≠ elfMagic) ∧ programSize program
        (UInt32.ofNat (Elfhdr.decode (readi program 0 64)).phoff) 0 (Elfhdr.decode (readi program 0 64)).phnum =
          some size := by
      rw [imageSize] at found
      split_ifs at found with good
      exact ⟨good, found⟩
    generalize Elfhdr.decode (readi program 0 64) = elf at *
    refine .ite (fun bad => .pure (.error (.refl free) ?_)) fun _ =>
      .ite (fun bad => .pure (.error (.refl free) ?_)) fun _ => ?_
    · rintro _ size ⟨⟩ found
      exact absurd (.inl bad) (size_of found).1
    · rintro _ size ⟨⟩ found
      exact absurd (.inr bad) (size_of found).1
    refine (procPagetable_ensures free valid.fixed).bind ?_
    rintro (_ | root) s₁ ⟨failed, created⟩
    · obtain ⟨restored, few_left⟩ := failed rfl
      exact .pure (.error restored fun _ size _ _ enough => by omega)
    obtain ⟨image₁, supply₁, top₁⟩ := created root rfl
    refine (loadSegments_ensures elf.phnum image₁ fun v w low => absurd low (Nat.not_lt_zero _)).bind ?_
    rintro ⟨sz, loaded⟩ s₂ load
    have nothing : pageCount 0 = 0 := rfl
    cases loaded with
    | false =>
      refine (procFreepagetable_ensures load.image.resident).bind fun _ s₃ frees =>
        .pure (.error (load.image.restored frees) ?_)
      rintro _ size ⟨⟩ found enough
      have := load.failed rfl size (size_of found).2
      omega
    | true =>
      refine (buildStack_ensures load.image few short).bind ?_
      rintro ⟨sz', stack⟩ s₃ built
      have supply₂ := load.supply rfl
      have target := load.size rfl
      dsimp only at supply₂ target
      cases stack with
      | none =>
        refine (procFreepagetable_ensures built.image.resident).bind fun _ s₄ frees =>
          .pure (.error (built.image.restored frees) ?_)
        rintro _ size ⟨⟩ found enough
        obtain rfl : sz = size := Option.some.inj (target.symm.trans (size_of found).2)
        refine (built.failed rfl).resolve_right fun few_left => ?_
        have : userstack = 1 := rfl
        omega
      | some stack =>
        refine (commit_ensures valid built.image fun v w kept found => ?_).bind ?_
        · rw [built.top stack rfl v kept, load.top rfl v kept] at found
          exact top₁ v w kept found
        · rintro _ s₄ ⟨rfl, valid₄, committed⟩
          obtain ⟨ptrs, passed⟩ := built.passed committed
          have success : (argv.length : ℤ) ≠ -1 := by omega
          refine .pure ⟨fun wrong => absurd wrong success, fun _ => ⟨valid₄, stack, ptrs, passed⟩, fun large => ?_,
            fun wrong => absurd wrong success⟩
          cases built.large large

/-! ## A process -/

/-- A process without pages, and some free pages. -/
def execMemory : Phys where
  ram _ := .filled 0
  freelist := (List.range 16).map fun k => 0x80003000 + k * 4096
  refusals := []
  kernelEnd := 0x80001000

def execProcess : Proc where
  pagetable := 0x80001000
  sz := 0
  trapframe := 0x80002000
  name := []

theorem execProcess_valid : execProcess.Valid 0x80000000 execMemory := by
  have free : Free { execMemory with freelist := 0x80001000 :: execMemory.freelist } := ⟨by decide, by decide⟩
  have image : Image _ 0x80001000 0 execMemory := .fresh free (by decide) ⟨rfl, fun _ _ => rfl, rfl⟩ rfl
  refine ⟨image.resident, ⟨by decide, by decide, by decide, by decide, ⟨by decide, by decide, by decide⟩, by decide⟩,
    ?_⟩
  rintro (inside | ⟨v, w, -, found, -⟩)
  · exact absurd (inTable_zeroed rfl inside) (by decide)
  · rw [leaf?_zeroed rfl] at found
    cases found

/-- A program with one segment, of four bytes in the file and eight in memory. -/
def smallProgram : List UInt8 :=
  [0x7F, 0x45, 0x4C, 0x46] ++ List.replicate 28 0 ++ [64] ++ List.replicate 23 0 ++ [1] ++ List.replicate 7 0 ++
    [1, 0, 0, 0, 5, 0, 0, 0, 120] ++ List.replicate 23 0 ++ [4] ++ List.replicate 7 0 ++ [8] ++
    List.replicate 15 0 ++ [1, 2, 3, 4]

/-- A failed call has no effect, and no call ends in a panic. -/
theorem kexec_atomic (valid : p.Valid trampoline s) (name : List UInt8) (file : Option (List UInt8))
    (argv : List (List UInt8))
    (few : argv.length ≤ maxarg - 1) (short : ∀ arg ∈ argv, arg.length < pgsize) :
    ∃ p' r s', (kexec trampoline p name file argv).run s = .ok ((p', r), s') ∧
      (r = -1 → p' = p ∧ (∀ a ∉ s.freelist, s'.ram a = s.ram a) ∧ leaf? s'.ram p.pagetable = leaf? s.ram p.pagetable ∧
        (∀ va, view s' p.pagetable va = view s p.pagetable va) ∧ s'.freelist.Perm s.freelist) ∧
      (r ≠ -1 → p'.Valid trampoline s') := by
  have bound : maxarg - 1 < maxarg := by decide
  have spec : Ensures (kexec trampoline p name file argv) s _ fun _ => False := kexec_ensures valid (by omega) short
  obtain ⟨⟨p', r⟩, s', ran, executed⟩ := spec.exists_run
  refine ⟨p', r, s', ran, fun failed => ?_, fun success => (executed.replaced success).1⟩
  obtain ⟨same, restored⟩ := executed.failed failed
  have listed (a : ℕ) : a ∈ s'.freelist ↔ a ∈ s.freelist := by rw [restored.listed, or_false]
  have unchanged (a : ℕ) (used : a ∉ s.freelist) : s'.ram a = s.ram a := restored.frame a (mt (listed a).mp used)
  have leaf : leaf? s'.ram p.pagetable = leaf? s.ram p.pagetable :=
    leaf?_same fun a inside => unchanged a (valid.resident.apart a inside)
  refine ⟨same, unchanged, leaf, fun va => ?_,
    (List.perm_ext_iff_of_nodup restored.free.nodup valid.resident.nodup).mpr listed⟩
  rw [view, view, leaf]
  cases found : leaf? s.ram p.pagetable (path va) with
  | none => rfl
  | some w => rw [Option.elim_some, Option.elim_some, unchanged _ (valid.resident.mapped _ w found).2.1]

/-- Arguments that the stack has no room for. -/
def largeArguments : List (List UInt8) := [List.replicate 4000 97, List.replicate 4000 98]

/-- A program is loaded, and then its arguments do not fit: the process is as before, and all pages are free again. -/
theorem kexec_atomic_smallProgram : ∃ s',
    (kexec 0x80000000 execProcess [47, 97] (some smallProgram) largeArguments).run execMemory =
    .ok ((execProcess, -1), s') ∧
      (∀ va, view s' execProcess.pagetable va = view execMemory execProcess.pagetable va) ∧
      s'.freelist.Perm execMemory.freelist := by
  have few : largeArguments.length ≤ maxarg - 1 := by decide
  have short : ∀ arg ∈ largeArguments, arg.length < pgsize := by decide +kernel
  obtain ⟨p', r, s', ran, failed, -⟩ :=
    kexec_atomic execProcess_valid [47, 97] (some smallProgram) largeArguments few short
  have spec {name : List UInt8} {file : Option (List UInt8)} :
      Ensures (kexec 0x80000000 execProcess name file largeArguments) execMemory _ fun _ => False :=
    kexec_ensures execProcess_valid (Nat.lt_of_le_pred (by decide) few) short
  obtain rfl : r = -1 := (spec.of_run ran).large (by decide +kernel)
  obtain ⟨rfl, -, -, memory, pages⟩ := failed rfl
  exact ⟨s', ran, memory, pages⟩

/-- A loadable program gets its arguments, unless they do not fit on the stack. -/
theorem exec_arguments {program : List UInt8} {size : ℕ} (valid : p.Valid trampoline s) (name : List UInt8)
    (loadable : imageSize program = some size) (argv : List (List UInt8)) (few : argv.length ≤ maxarg - 1)
    (short : ∀ arg ∈ argv, arg.length < pgsize) (enough : 5 + 3 * (pageCount size + userstack + 1) ≤ s.supply) :
    ∃ p' r s', (kexec trampoline p name (some program) argv).run s = .ok ((p', r), s') ∧
      (r = -1 ↔ userstack * pgsize < (argv.map fun arg => round16 (arg.length + 1)).sum +
      round16 (8 * (argv.length + 1))) ∧
      (r ≠ -1 → ∃ stack ptrs, Passed s' p' r argv stack ptrs) := by
  have bound : maxarg - 1 < maxarg := by decide
  have spec : Ensures (kexec trampoline p name (some program) argv) s _ fun _ => False :=
    kexec_ensures valid (by omega) short
  obtain ⟨⟨p', r⟩, s', ran, executed⟩ := spec.exists_run
  refine ⟨p', r, s', ran, ⟨fun failed => ?_, executed.large⟩, fun success => (executed.replaced success).2⟩
  exact executed.reason failed program size rfl loadable enough

theorem exec_arguments_smallProgram : ∃ p' s' stack ptrs,
    (kexec 0x80000000 execProcess [47, 97] (some smallProgram) [[97], [98, 99]]).run execMemory = .ok ((p', 2), s') ∧
      Passed s' p' 2 [[97], [98, 99]] stack ptrs := by
  obtain ⟨p', r, s', ran, failed, passed⟩ := exec_arguments execProcess_valid [47, 97]
    (show imageSize smallProgram = some 8 by decide +kernel) [[97], [98, 99]] (by decide) (by decide) (by decide)
  obtain ⟨stack, ptrs, arguments⟩ := passed fun wrong => absurd (failed.mp wrong) (by decide)
  obtain rfl : r = 2 := arguments.argc
  exact ⟨p', s', stack, ptrs, ran, arguments⟩

end Xv6.Sv39
