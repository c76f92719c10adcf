import Xv6.Model.Vm.Exec
import Xv6.Proofs.Vm.UserMemory

/-! # Freeing a page table

`freewalk` frees the pages of a table whose leaves have been removed; `uvmfree` and `procFreepagetable`
remove the leaves first, and free the pages of the user. Nothing else changes.
-/

namespace Xv6.Sv39

open Machine
open Vm (pgsize maxva pgroundup path vaddr Within Kept)

variable {root table sz : ℕ} {s s' s'' : Phys} {fails : Panic → Prop}

/-- An address of a page that `kalloc` manages. -/
def Managed (kernelEnd a : ℕ) : Prop := a % pgsize = 0 ∧ kernelEnd ≤ a ∧ a < phystop

/-- The given pages have become free, and no other page has changed. -/
structure Frees (pages : ℕ → Prop) (s s' : Phys) : Prop where
  free : Free s'
  kernelEnd : s'.kernelEnd = s.kernelEnd
  listed : ∀ a, a ∈ s'.freelist ↔ a ∈ s.freelist ∨ pages a
  frame : ∀ a ∉ s'.freelist, s'.ram a = s.ram a

/-! ## `freewalk` -/

/-- A table with layers of tables below it and no leaves, whose pages can be freed. -/
structure Subtree (s : Phys) (table depth : ℕ) : Prop where
  unshared : Unshared (child s.ram) table depth
  managed : ∀ p a, p.length ≤ depth → node? (child s.ram) table p = some a → Managed s.kernelEnd a ∧ a ∉ s.freelist
  pointers : ∀ p a i w, p.length < depth → node? (child s.ram) table p = some a → pte? (s.ram a) i = some w →
    w &&& (pteR ||| pteW ||| pteX) = 0
  bottom : ∀ p a i, p.length = depth → node? (child s.ram) table p = some a → pte? (s.ram a) i = none

/-- The pages of the table. -/
def Nodes (ram : ℕ → Page) (table depth a : ℕ) : Prop := ∃ p, p.length ≤ depth ∧ node? (child ram) table p = some a

namespace Subtree

variable {depth : ℕ}

variable {i : Fin 512} {c : ℕ}

/-- The subtree below an entry, in a state where its pages are as they were. -/
theorem below (tree : Subtree s table (depth + 1)) (entry : child s.ram table i = some c)
    (same : ∀ a, Nodes s.ram c depth a → s'.ram a = s.ram a ∧ a ∉ s'.freelist)
    (kernelEnd : s'.kernelEnd = s.kernelEnd) :
    Subtree s' c depth ∧ Nodes s'.ram c depth = Nodes s.ram c depth := by
  have up (p : List (Fin 512)) : node? (child s.ram) table (i :: p) = node? (child s.ram) c p := by
    rw [node?_cons, entry, Option.bind_some]
  have nodes (p : List (Fin 512)) (short : p.length ≤ depth) : node? (child s'.ram) c p = node? (child s.ram) c p :=
    node?_congr fun q a shorter there => child_congr (same a ⟨q, by omega, there⟩).1
  refine ⟨⟨?_, fun p a short there => ?_, fun p a j w short there => ?_, fun p a j short there => ?_⟩, ?_⟩
  · intro p q a first second at_p at_q
    rw [nodes p first, ← up] at at_p
    rw [nodes q second, ← up] at at_q
    exact (List.cons.inj (tree.unshared _ _ a (by simpa using first) (by simpa using second) at_p at_q)).2
  · rw [nodes p short] at there
    obtain ⟨managed, -⟩ := tree.managed (i :: p) a (by simpa using short) ((up p).trans there)
    exact ⟨kernelEnd ▸ managed, (same a ⟨p, short, there⟩).2⟩
  · rw [nodes p (by omega)] at there
    rw [(same a ⟨p, by omega, there⟩).1]
    exact tree.pointers (i :: p) a j w (by simpa using short) ((up p).trans there)
  · rw [nodes p (by omega)] at there
    rw [(same a ⟨p, by omega, there⟩).1]
    exact tree.bottom (i :: p) a j (by simpa using short) ((up p).trans there)
  · funext a
    exact propext (exists_congr fun p => and_congr_right fun short => by rw [nodes p short])

/-- The invariant of the loop: the subtrees below the first entries have been freed. -/
structure Walked (table depth : ℕ) (s : Phys) (i : ℕ) (s' : Phys) : Prop where
  free : Free s'
  kernelEnd : s'.kernelEnd = s.kernelEnd
  listed : ∀ a, a ∈ s'.freelist ↔ a ∈ s.freelist ∨
    ∃ (j : Fin 512) (p : List (Fin 512)), j.val < i ∧ p.length + 1 ≤ depth ∧ node? (child s.ram) table (j :: p) = some a
  entries : ∀ j : Fin 512, i ≤ j.val → s'.load ⟨table, j⟩ = s.load ⟨table, j⟩
  frame : ∀ a ∉ s'.freelist, a ≠ table → s'.ram a = s.ram a

theorem Walked.kept {i : ℕ} (tree : Subtree s table depth) (walked : Walked table depth s i s') {j : Fin 512}
    (later : i ≤ j.val)
    {p : List (Fin 512)} {a : ℕ} (short : p.length + 1 ≤ depth) (there : node? (child s.ram) table (j :: p) = some a) :
    s'.ram a = s.ram a ∧ a ∉ s'.freelist := by
  have used : a ∉ s'.freelist := by
    rw [walked.listed]
    rintro (before | ⟨k, q, earlier, short', there'⟩)
    · exact (tree.managed _ a (by simpa using short) there).2 before
    · have := (List.cons.inj (tree.unshared _ _ a (by simpa using short') (by simpa using short) there' there)).1
      rw [this] at earlier
      omega
  refine ⟨walked.frame a used ?_, used⟩
  rintro rfl
  cases tree.unshared (j :: p) [] a (by simpa using short) (Nat.zero_le _) there node?_nil

theorem Walked.root_used {i : ℕ} (tree : Subtree s table depth) (walked : Walked table depth s i s') :
    table ∉ s'.freelist := by
  rw [walked.listed]
  rintro (before | ⟨k, q, -, short, there⟩)
  · exact (tree.managed [] table (Nat.zero_le _) node?_nil).2 before
  · cases tree.unshared (k :: q) [] table (by simpa using short) (Nat.zero_le _) there node?_nil

theorem Walked.skip (walked : Walked table depth s i s') (vacant : child s.ram table i = none) :
    Walked table depth s (i + 1) s' where
  free := walked.free
  kernelEnd := walked.kernelEnd
  listed a := by
    rw [walked.listed]
    refine or_congr_right ⟨fun ⟨j, p, earlier, found⟩ => ⟨j, p, by omega, found⟩,
      fun ⟨j, p, earlier, short, there⟩ => ?_⟩
    refine ⟨j, p, lt_of_le_of_ne (by omega) fun last => ?_, short, there⟩
    rw [Fin.ext last, node?_cons, vacant] at there
    cases there
  entries j later := walked.entries j (by omega)
  frame := walked.frame

/-- The subtree below the entry has been freed, and the entry cleared. -/
theorem Walked.freed (tree : Subtree s table (depth + 1)) (walked : Walked table (depth + 1) s i s')
    (entry : child s.ram table i = some c) (frees : Frees (Nodes s.ram c depth) s' s'') :
    Walked table (depth + 1) s (i + 1) (s''.store ⟨table, i⟩ 0) := by
  have listed (a : ℕ) : a ∈ s''.freelist ↔ a ∈ s.freelist ∨ ∃ (j : Fin 512) (p : List (Fin 512)),
      j.val < i + 1 ∧ p.length + 1 ≤ depth + 1 ∧ node? (child s.ram) table (j :: p) = some a := by
    rw [frees.listed, walked.listed, or_assoc]
    refine or_congr_right ⟨?_, ?_⟩
    · rintro (⟨j, p, earlier, found⟩ | ⟨p, short, there⟩)
      · exact ⟨j, p, by omega, found⟩
      · exact ⟨i, p, Nat.lt_succ_self _, by omega, by rw [node?_cons, entry, Option.bind_some, there]⟩
    · rintro ⟨j, p, earlier, short, there⟩
      by_cases last : j = i
      · rw [last, node?_cons, entry, Option.bind_some] at there
        exact .inr ⟨p, by omega, there⟩
      · exact .inl ⟨j, p, by omega, short, there⟩
  have root_used : table ∉ s''.freelist := by
    rw [listed]
    rintro (before | ⟨k, q, -, short, there⟩)
    · exact (tree.managed [] table (Nat.zero_le _) node?_nil).2 before
    · cases tree.unshared (k :: q) [] table (by simpa using short) (Nat.zero_le _) there node?_nil
  refine ⟨⟨frees.free.nodup, frees.free.pages⟩, frees.kernelEnd.trans walked.kernelEnd, listed, fun j later => ?_,
    fun a used other => ?_⟩
  · have differ : i.val ≠ j.val := by omega
    rw [← walked.entries j (by omega), Phys.load, Phys.load, Phys.store, Phys.setPage_self,
      Vector.word64_setWord64_of_ne _ _ differ, frees.frame table root_used]
  · rw [Phys.store, Phys.setPage_of_ne other, frees.frame a used, walked.frame a _ other]
    exact fun before => used ((frees.listed a).mpr (.inl before))

theorem Walked.start (free : Free s) : Walked table depth s 0 s where
  free := free
  kernelEnd := rfl
  listed _ := ⟨.inl, fun found => found.elim id fun ⟨_, _, earlier, _⟩ => absurd earlier (Nat.not_lt_zero _)⟩
  entries _ _ := rfl
  frame _ _ _ := rfl

theorem Walked.finish (tree : Subtree s table depth) (walked : Walked table depth s 512 s') :
    Frees (Nodes s.ram table depth) s (s'.kfree table) := by
  obtain ⟨aligned, low, high⟩ := (tree.managed [] table (Nat.zero_le _) node?_nil).1
  have used := walked.root_used tree
  refine ⟨⟨List.nodup_cons.mpr ⟨used, walked.free.nodup⟩, fun a listed => ?_⟩, walked.kernelEnd, fun a => ?_,
    fun a used' => ?_⟩
  · rcases List.mem_cons.mp listed with rfl | before
    · exact ⟨aligned, walked.kernelEnd.symm ▸ low, high⟩
    · exact walked.free.pages a before
  · change a ∈ table :: s'.freelist ↔ _
    rw [List.mem_cons, walked.listed]
    refine ⟨?_, ?_⟩
    · rintro (rfl | before | ⟨j, p, -, short, there⟩)
      · exact .inr ⟨[], Nat.zero_le _, node?_nil⟩
      · exact .inl before
      · exact .inr ⟨j :: p, short, there⟩
    · rintro (before | ⟨_ | ⟨j, p⟩, short, there⟩)
      · exact .inr (.inl before)
      · exact .inl (Option.some.inj there).symm
      · exact .inr (.inr ⟨j, p, j.isLt, short, there⟩)
  · obtain ⟨other, unlisted⟩ := not_or.mp (mt List.mem_cons.mpr used')
    exact (Phys.setPage_of_ne other).trans (walked.frame a unlisted other)

end Subtree

theorem indices_eq (n : ℕ) : indices n = List.finRange n := by rw [indices]

/-- A call of `freewalk`, when the calls for the subtrees free theirs. -/
theorem freewalk_of {depth : ℕ} (free : Free s) (tree : Subtree s table depth)
    (recurse : ∀ d c s₁, depth = d + 1 → Free s₁ → Subtree s₁ c d →
      Ensures (freewalk depth c) s₁ (fun _ s' => Frees (Nodes s₁.ram c d) s₁ s') fails) :
    Ensures (freewalk (depth + 1) table) s (fun _ s' => Frees (Nodes s.ram table depth) s s') fails := by
  rw [freewalk]
  refine (Ensures.forM_finRange (indices_eq 512) (Subtree.Walked table depth s) (.start free) fun i s₁ walked =>
    load_bind ?_).bind
    fun _ s₁ walked => ?_
  · have entry : pte? (s.ram table) i = if s.load ⟨table, i⟩ &&& pteV ≠ 0 then some (s.load ⟨table, i⟩) else none :=
      pte?_of_load
    rw [walked.entries i le_rfl]
    by_cases valid : s.load ⟨table, i⟩ &&& pteV = 0
    · rw [if_neg (not_not.mpr valid)] at entry
      refine .ite (fun found => absurd valid found.1) fun _ => .ite (fun found => absurd valid found) fun _ => .pure ?_
      exact walked.skip (by rw [child, entry, Option.map_none])
    · rw [if_pos valid] at entry
      -- the last layer has no entries, and those above it are pointers
      cases depth with
      | zero => cases entry.symm.trans (tree.bottom [] table i rfl node?_nil)
      | succ depth =>
        have flags := tree.pointers [] table i _ (Nat.succ_pos _) node?_nil entry
        have child_entry : child s.ram table i = some (pte2pa (s.load ⟨table, i⟩)) := by
          rw [child, entry, Option.map_some]
        refine .ite (fun _ => ?_) fun wrong => absurd ⟨valid, flags⟩ wrong
        have kept (a : ℕ) (inside : Nodes s.ram (pte2pa (s.load ⟨table, i⟩)) depth a) :
            s₁.ram a = s.ram a ∧ a ∉ s₁.freelist := by
          obtain ⟨p, short, there⟩ := inside
          exact walked.kept tree le_rfl (p := p) (by omega) (by rw [node?_cons, child_entry, Option.bind_some, there])
        obtain ⟨below, nodes⟩ := tree.below child_entry kept walked.kernelEnd
        refine (recurse depth _ s₁ rfl walked.free below).bind fun _ s₂ frees => .modify ?_
        exact walked.freed tree child_entry (nodes ▸ frees)
  · obtain ⟨aligned, low, high⟩ := (tree.managed [] table (Nat.zero_le _) node?_nil).1
    obtain ⟨_, _, ran, rfl⟩ : ∃ r s', (kfree table).run s₁ = .ok (r, s') ∧ s' = s₁.kfree table :=
      ⟨_, _, kfree_run aligned (walked.kernelEnd.symm ▸ low) high, rfl⟩
    rw [Ensures, ran]
    exact walked.finish tree

theorem freewalk_ensures (depth : ℕ) (free : Free s) (tree : Subtree s table depth) :
    Ensures (freewalk (depth + 1) table) s (fun _ s' => Frees (Nodes s.ram table depth) s s') fails := by
  induction depth generalizing s table with
  | zero => exact freewalk_of free tree (by rintro d c s₁ ⟨⟩)
  | succ depth ih =>
    refine freewalk_of free tree ?_
    rintro d c s₁ ⟨⟩ free₁ below
    exact ih free₁ below

/-! ## `uvmfree` -/

/-- A table whose leaves are all below the size, with pages that can be freed. -/
structure Disposable (s : Phys) (root sz : ℕ) : Prop extends WellFormed s root where
  pointers : Pointers s.ram root
  tables : ∀ a, InTable s.ram root a → Managed s.kernelEnd a
  below : ∀ v w, leaf? s.ram root v = some w → vaddr v < pgroundup sz
  freeable : Freeable s root 0 (pgroundup sz / pgsize)
  bound : pgroundup sz ≤ maxva

variable {v : Fin 512 × Fin 512 × Fin 512}

theorem within_zero : Within 0 (pgroundup sz / pgsize) v ↔ vaddr v < pgroundup sz := by
  rw [Within, Nat.zero_add, Nat.div_mul_cancel (Nat.dvd_of_mod_eq_zero (Vm.pgroundup_mod sz)),
    and_iff_right (Nat.zero_le _)]

theorem Disposable.subtree (whole : Disposable s root sz) (unmaps : Unmaps root 0 (pgroundup sz / pgsize) true s s') :
    Subtree s' root 2 := by
  have outside (a : ℕ) (inside : InTable s.ram root a) : a ∉ s'.freelist :=
    unmaps.wf.apart a ((unmaps.tables a).mpr inside)
  refine ⟨unmaps.wf.unshared, fun p a short there => ?_, fun p a i w short => ?_, fun p a i short there => ?_⟩
  · have inside := (unmaps.tables a).mp ⟨p, short, there⟩
    exact ⟨unmaps.kernelEnd.symm ▸ whole.tables a inside, outside a inside⟩
  · exact unmaps.pointers whole.pointers p a i w (by omega)
  · obtain ⟨j, k, rfl⟩ := List.length_eq_two.mp short
    have leaf := unmaps.leaf (j, k, i)
    rw [leaf?, there, Option.bind_some] at leaf
    rw [leaf]
    split_ifs with within
    · rfl
    · cases found : leaf? s.ram root (j, k, i) with
      | none => rfl
      | some w => exact absurd (within_zero.mpr (whole.below _ w found)) within

theorem Disposable.frees (whole : Disposable s root sz) (unmaps : Unmaps root 0 (pgroundup sz / pgsize) true s s')
    (frees : Frees (Nodes s'.ram root 2) s' s'') :
    Frees (fun a => InTable s.ram root a ∨ ∃ v w, leaf? s.ram root v = some w ∧ pte2pa w = a) s s'' where
  free := frees.free
  kernelEnd := frees.kernelEnd.trans unmaps.kernelEnd
  listed a := by
    rw [frees.listed]
    refine ⟨?_, ?_⟩
    · rintro (before | inside)
      · rcases unmaps.freed a before with old | ⟨v, w, -, found⟩
        · exact .inl old
        · exact .inr (.inr ⟨v, w, found⟩)
      · exact .inr (.inl ((unmaps.tables a).mp inside))
    · rintro (old | inside | ⟨v, w, found, rfl⟩)
      · exact .inl (unmaps.kept a old)
      · exact .inr ((unmaps.tables a).mpr inside)
      · exact .inl (unmaps.released rfl v w (within_zero.mpr (whole.below v w found)) found)
  frame a used := by
    have outside : ¬ InTable s.ram root a :=
      fun inside => used ((frees.listed a).mpr (.inr ((unmaps.tables a).mpr inside)))
    rw [frees.frame a used, unmaps.frame a outside fun listed => used ((frees.listed a).mpr (.inl listed))]

/-- `uvmfree` frees the pages of the user and of the table. -/
theorem uvmfree_ensures (whole : Disposable s root sz) : Ensures (uvmfree root sz) s (fun _ s' =>
    Frees (fun a => InTable s.ram root a ∨ ∃ v w, leaf? s.ram root v = some w ∧ pte2pa w = a) s s') fails := by
  unfold uvmfree
  have rest (s₁ : Phys) (unmaps : Unmaps root 0 (pgroundup sz / pgsize) true s s₁) :
      Ensures (freewalk 3 root) s₁ (fun _ s' =>
      Frees (fun a => InTable s.ram root a ∨ ∃ v w, leaf? s.ram root v = some w ∧ pte2pa w = a) s s') fails :=
    (freewalk_ensures 2 unmaps.wf.toFree (whole.subtree unmaps)).mono fun _ s₂ frees => whole.frees unmaps frees
  refine .ite (fun _ => ?_) fun empty => rest s ?_
  · refine (uvmunmap_ensures true whole.toWellFormed rfl ?_ fun _ => whole.freeable).bind fun _ => rest
    rw [Nat.zero_add, Nat.div_mul_cancel (Nat.dvd_of_mod_eq_zero (Vm.pgroundup_mod sz))]
    exact whole.bound
  · rw [Nat.eq_zero_of_not_pos empty]
    exact .nothing whole.toWellFormed

/-! ## `procFreepagetable` -/

/-- A page of the table, or of the user. -/
def Holds (ram : ℕ → Page) (root a : ℕ) : Prop :=
  InTable ram root a ∨ ∃ v w, ¬ Kept v ∧ leaf? ram root v = some w ∧ pte2pa w = a

/-- The memory of a process: its pages can be freed. -/
structure Resident (s : Phys) (root sz : ℕ) : Prop extends Space s root where
  pointers : Pointers s.ram root
  managed : ∀ a, Holds s.ram root a → Managed s.kernelEnd a
  below : ∀ v w, ¬ Kept v → leaf? s.ram root v = some w → vaddr v < pgroundup sz
  bound : pgroundup sz ≤ Vm.trapframe

theorem within_trampoline : Within Vm.trampoline 1 v ↔ v = path Vm.trampoline :=
  within_one_iff (by decide) (by decide)

theorem within_trapframe : Within Vm.trapframe 1 v ↔ v = path Vm.trapframe :=
  within_one_iff (by decide) (by decide)

/-- The leaves of the trampoline and of the trapframe are not there any more. -/
structure Strips (root : ℕ) (s s' : Phys) : Prop where
  wf : WellFormed s' root
  leaf : ∀ v w, leaf? s'.ram root v = some w ↔ ¬ Kept v ∧ leaf? s.ram root v = some w
  tables : ∀ a, InTable s'.ram root a ↔ InTable s.ram root a
  freelist : s'.freelist = s.freelist
  frame : ∀ a, ¬ InTable s.ram root a → a ∉ s.freelist → s'.ram a = s.ram a
  kernelEnd : s'.kernelEnd = s.kernelEnd
  pointers : Pointers s.ram root → Pointers s'.ram root

theorem Strips.refl (wf : WellFormed s root) (bare : ∀ v, Kept v → leaf? s.ram root v = none) : Strips root s s where
  wf := wf
  leaf v w := by
    refine ⟨fun found => ⟨fun kept => ?_, found⟩, And.right⟩
    cases (bare v kept).symm.trans found
  tables _ := Iff.rfl
  freelist := rfl
  frame _ _ _ := rfl
  kernelEnd := rfl
  pointers := id

theorem Strips.one (first : Unmaps root Vm.trampoline 1 false s s')
    (bare : leaf? s.ram root (path Vm.trapframe) = none) :
    Strips root s s' where
  wf := first.wf
  leaf v w := by
    rw [first.leaf, if_congr within_trampoline rfl rfl, Kept]
    split_ifs with there
    · simp [there]
    · refine ⟨fun found => ⟨?_, found⟩, And.right⟩
      rintro (same | rfl)
      · exact there same
      · cases bare.symm.trans found
  tables := first.tables
  freelist := first.unfreed rfl
  frame a outside used := first.frame a outside (first.unfreed rfl ▸ used)
  kernelEnd := first.kernelEnd
  pointers := first.pointers

theorem Strips.two (first : Unmaps root Vm.trampoline 1 false s s') (second : Unmaps root Vm.trapframe 1 false s' s'') :
    Strips root s s'' where
  wf := second.wf
  leaf v w := by
    rw [second.leaf, first.leaf, if_congr within_trapframe rfl rfl, if_congr within_trampoline rfl rfl, Kept]
    split_ifs with there there' <;> simp [*]
  tables a := (second.tables a).trans (first.tables a)
  freelist := (second.unfreed rfl).trans (first.unfreed rfl)
  frame a outside used := by
    rw [second.frame a (mt (first.tables a).mp outside) (by rwa [second.unfreed rfl, first.unfreed rfl]),
      first.frame a outside (first.unfreed rfl ▸ used)]
  kernelEnd := second.kernelEnd.trans first.kernelEnd
  pointers before := second.pointers (first.pointers before)

theorem Resident.disposable (resident : Resident s root sz) (strips : Strips root s s') : Disposable s' root sz := by
  refine ⟨strips.wf, strips.pointers resident.pointers, fun a inside => ?_, fun v w found => ?_,
    ⟨fun v w _ found => ?_, fun v v' w w' _ _ found found' => ?_⟩, resident.bound.trans (by decide)⟩
  · rw [strips.kernelEnd]
    exact resident.managed a (.inl ((strips.tables a).mp inside))
  · exact resident.below v w ((strips.leaf v w).mp found).1 ((strips.leaf v w).mp found).2
  · obtain ⟨user, there⟩ := (strips.leaf v w).mp found
    obtain ⟨-, used, outside⟩ := resident.mapped v w there
    obtain ⟨-, low, high⟩ := resident.managed _ (.inr ⟨v, w, user, there, rfl⟩)
    rw [strips.kernelEnd, strips.freelist]
    exact ⟨low, high, fun inside => outside ((strips.tables _).mp inside), used⟩
  · exact resident.distinct v v' w w' ((strips.leaf v w).mp found).2 ((strips.leaf v' w').mp found').2

/-- What is left of the memory of a process is freed. -/
theorem Resident.uvmfree (resident : Resident s root sz) (strips : Strips root s s') :
    Ensures (uvmfree root sz) s' (fun _ s'' => Frees (Holds s.ram root) s s'') fails := by
  have holds (a : ℕ) : InTable s'.ram root a ∨ (∃ v w, leaf? s'.ram root v = some w ∧ pte2pa w = a) ↔
      Holds s.ram root a := by
    rw [strips.tables, Holds]
    simp only [strips.leaf, and_assoc]
  refine (uvmfree_ensures (resident.disposable strips)).mono fun _ s'' frees => ⟨frees.free, ?_, fun a => ?_,
    fun a used => ?_⟩
  · rw [frees.kernelEnd, strips.kernelEnd]
  · rw [frees.listed, holds, strips.freelist]
  · rw [frees.frame a used, strips.frame a]
    · exact fun inside => used ((frees.listed a).mpr (.inr ((holds a).mpr (.inl inside))))
    · exact fun listed => used ((frees.listed a).mpr (.inl (strips.freelist.symm ▸ listed)))

theorem procFreepagetable_ensures (resident : Resident s root sz) :
    Ensures (procFreepagetable root sz) s (fun _ s' => Frees (Holds s.ram root) s s') fails := by
  unfold procFreepagetable
  refine (uvmunmap_ensures false resident.toWellFormed (by decide) (by decide) nofun).bind fun _ s₁ first => ?_
  refine (uvmunmap_ensures false first.wf (by decide) (by decide) nofun).bind fun _ s₂ second => ?_
  exact resident.uvmfree (.two first second)

end Xv6.Sv39
