import Xv6.Proofs.Vm.UserMemory

/-! # A child has its own copy of its parent's memory

`uvmcopy` gives the child pages of its own with the bytes and the permissions of its parent's, and none where
the parent has none. From then on, whatever one of them has written to its memory, the other reads its own.
A copy that fails is undone.
-/

namespace Xv6.Sv39

open Machine
open Vm (pgsize maxva px path vaddr Within vaddr_path path_vaddr eq_path_iff pgroundup)

/-- The pages that an address space is made of. -/
def Used (s : Phys) (root a : ℕ) : Prop :=
  InTable s.ram root a ∨ ∃ v w, leaf? s.ram root v = some w ∧ pte2pa w = a

/-- Two address spaces that share at most pages that neither user can access. -/
structure Separate (s : Phys) (one other : ℕ) : Prop where
  left : Space s one
  right : Space s other
  tables : ∀ a, InTable s.ram one a → ¬ InTable s.ram other a
  leftPages : ∀ v w, leaf? s.ram one v = some w → ¬ InTable s.ram other (pte2pa w)
  rightPages : ∀ v w, leaf? s.ram other v = some w → ¬ InTable s.ram one (pte2pa w)
  users : ∀ v w v' w', leaf? s.ram one v = some w → leaf? s.ram other v' = some w' →
    w &&& pteU ≠ 0 ∨ w' &&& pteU ≠ 0 → pte2pa w ≠ pte2pa w'

namespace Separate

variable {s s' : Phys} {one other sz : ℕ}

section

variable (sep : Separate s one other)
include sep

theorem symm : Separate s other one where
  left := sep.right
  right := sep.left
  tables a inside inside' := sep.tables a inside' inside
  leftPages := sep.rightPages
  rightPages := sep.leftPages
  users v w v' w' found found' user same := sep.users v' w' v w found' found user.symm same.symm

theorem used_of_left {a : ℕ} (used : Used s other a) : ¬ InTable s.ram one a ∧ a ∉ s.freelist := by
  rcases used with inside | ⟨v, w, found, rfl⟩
  · exact ⟨fun inside' => sep.tables a inside' inside, sep.right.apart a inside⟩
  · exact ⟨sep.rightPages v w found, (sep.right.mapped v w found).2.1⟩

/-- One of them changes, and takes pages from the free list only. -/
theorem step (space : Space s' one) (subset : ∀ a ∈ s'.freelist, a ∈ s.freelist)
    (tables : ∀ a, InTable s'.ram one a → InTable s.ram one a ∨ a ∈ s.freelist)
    (leaves : ∀ v w, leaf? s'.ram one v = some w → leaf? s.ram one v = some w ∨ pte2pa w ∈ s.freelist)
    (same : ∀ a, Used s other a → s'.ram a = s.ram a) : Separate s' one other := by
  have sameTable (a : ℕ) (inside : InTable s.ram other a) := same a (.inl inside)
  have leaf := leaf?_same sameTable
  have right : Space s' other := by
    refine ⟨sep.right.toWellFormed.of_same space.toFree sameTable fun a inside listed =>
      sep.right.apart a inside (subset a listed), space.kernel, fun v w found => ?_, ?_⟩
    · rw [leaf] at found
      obtain ⟨nonzero, used, outside⟩ := sep.right.mapped v w found
      exact ⟨nonzero, fun listed => used (subset _ listed), fun inside => outside ((inTable_same sameTable).mp inside)⟩
    · rw [leaf]
      exact sep.right.distinct
  refine ⟨space, right, fun a inside inside' => ?_, fun v w found inside => ?_, fun v w found inside => ?_, ?_⟩
  · have old := (inTable_same sameTable).mp inside'
    rcases tables a inside with before | listed
    · exact sep.tables a before old
    · exact sep.right.apart a old listed
  · have old := (inTable_same sameTable).mp inside
    rcases leaves v w found with before | listed
    · exact sep.leftPages v w before old
    · exact sep.right.apart _ old listed
  · rw [leaf] at found
    rcases tables _ inside with before | listed
    · exact sep.rightPages v w found before
    · exact (sep.right.mapped v w found).2.1 listed
  · intro v w v' w' found found' user same_page
    rw [leaf] at found'
    rcases leaves v w found with before | listed
    · exact sep.users v w v' w' before found' user same_page
    · exact (sep.right.mapped v' w' found').2.1 (same_page ▸ listed)

theorem acts (acts : Acts one sz s s') :
    Separate s' one other ∧ ∀ a, Used s other a → s'.ram a = s.ram a := by
  have same (a : ℕ) (used : Used s other a) : s'.ram a = s.ram a := by
    obtain ⟨outside, taken⟩ := sep.used_of_left used
    refine acts.frame a outside taken fun v w found user => ?_
    rcases used with inside | ⟨v', w', found', rfl⟩
    · rintro rfl
      exact sep.leftPages v w found inside
    · exact sep.users v w v' w' found found' (.inl user)
  refine ⟨sep.step acts.space acts.subset acts.tables (fun v w found => ?_) same, same⟩
  cases before : leaf? s.ram one v with
  | some w' =>
    cases (acts.leaf v w' before).symm.trans found
    exact .inl rfl
  | none =>
    obtain ⟨-, mem, listed, rfl⟩ := acts.fresh v w before found
    rw [sep.left.toFree.lazyWord_page listed]
    exact .inr listed

end

end Separate

variable {s s' : Phys} {root sz : ℕ}

theorem view_same (same : ∀ a, Used s root a → s'.ram a = s.ram a) (va : ℕ) : view s' root va = view s root va := by
  rw [view, view, leaf?_same fun a inside => same a (.inl inside)]
  cases found : leaf? s.ram root (path va) with
  | none => rw [Option.elim_none, Option.elim_none]
  | some w => rw [Option.elim_some, Option.elim_some, same _ (.inr ⟨_, w, found, rfl⟩)]

/-! ## `uvmcopy` -/

theorem pteFlags_lt (w : UInt64) : (pteFlags w).toNat < 1024 := by
  rw [pteFlags, UInt64.toNat_and]
  exact Nat.and_lt_two_pow (n := 10) _ (by decide)

variable {w : UInt64} {mem : ℕ}

theorem pteFlags_or_valid (valid : w &&& pteV ≠ 0) : pteFlags w ||| pteV = pteFlags w := by
  have bit : w.toBitVec.getLsbD 0 = true := by
    by_contra clear
    apply valid
    unfold pteV
    apply UInt64.toBitVec_inj.mp
    ext i
    simp
    grind
  unfold pteFlags pteV
  apply UInt64.toBitVec_inj.mp
  ext i
  simp
  grind

theorem pteFlags_leafWord (bound : mem < UInt64.size) (valid : w &&& pteV ≠ 0) :
    pteFlags (leafWord mem (pteFlags w)) = pteFlags w := by
  have already := pteFlags_or_valid valid
  rw [leafWord, UInt64.or_assoc, pteFlags_or bound (already.symm ▸ pteFlags_lt w), already]

/-- The pages below an address have been copied. -/
structure Copied (old new i : ℕ) (s s' : Phys) : Prop extends Adds new s s' where
  separate : Separate s' new old
  outside : ∀ v, i ≤ vaddr v → leaf? s'.ram new v = leaf? s.ram new v
  absent : ∀ v, vaddr v < i → leaf? s.ram old v = none → leaf? s'.ram new v = none
  present : ∀ v w, vaddr v < i → leaf? s.ram old v = some w → ∃ mem ∈ s.freelist,
    leaf? s'.ram new v = some (leafWord mem (pteFlags w)) ∧ s'.ram mem = s.ram (pte2pa w)

namespace Copied

variable {old new i : ℕ} {s s₁ s₂ : Phys}

theorem same (sep : Separate s new old) (copied : Copied old new i s s₁) (a : ℕ) (used : Used s old a) :
    s₁.ram a = s.ram a := by
  obtain ⟨outside, taken⟩ := sep.used_of_left used
  exact copied.frame a outside taken

theorem leaf_old (sep : Separate s new old) (copied : Copied old new i s s₁) : leaf? s₁.ram old = leaf? s.ram old :=
  leaf?_same fun a inside => copied.same sep a (.inl inside)

theorem below_next {v : Fin 512 × Fin 512 × Fin 512} (aligned : i % pgsize = 0) (inside : i < maxva)
    (below : vaddr v < i + pgsize) : vaddr v < i ∨ v = path i := by
  have page := Vm.vaddr_mod v
  rw [eq_path_iff aligned inside]
  unfold pgsize at *
  omega

theorem skip (copied : Copied old new i s s₁) (aligned : i % pgsize = 0) (inside : i < maxva)
    (vacant : leaf? s.ram new (path i) = none) (gone : leaf? s.ram old (path i) = none) :
    Copied old new (i + pgsize) s s₁ := by
  refine ⟨copied.toAdds, copied.separate, fun v above => copied.outside v (by omega), fun v below gone => ?_,
    fun v w below found => ?_⟩
  · rcases below_next aligned inside below with before | rfl
    · exact copied.absent v before gone
    · rw [copied.outside _ (vaddr_path aligned inside).ge, vacant]
  · rcases below_next aligned inside below with before | rfl
    · exact copied.present v w before found
    · cases gone.symm.trans found

theorem adds (sep : Separate s new old) (copied : Copied old new i s s₁) (adds : Adds new s₁ s₂)
    (leaf : leaf? s₂.ram new = leaf? s₁.ram new) : Copied old new i s s₂ := by
  have same (a : ℕ) (used : Used s₁ old a) : s₂.ram a = s₁.ram a := by
    obtain ⟨outside, taken⟩ := copied.separate.used_of_left used
    exact adds.frame a outside taken
  refine ⟨copied.toAdds.trans adds,
    copied.separate.step adds.space adds.subset adds.tables (fun v w found => .inl (by rwa [leaf] at found)) same,
    by rw [leaf]; exact copied.outside, by rw [leaf]; exact copied.absent, fun v w below found => ?_⟩
  obtain ⟨mem, listed, mapped, bytes⟩ := copied.present v w below found
  refine ⟨mem, listed, by rw [leaf, mapped], ?_⟩
  obtain ⟨-, used, outside⟩ := copied.space.mapped v _ mapped
  rw [sep.left.toFree.leafWord_page listed (pteFlags_lt w)] at used outside
  rw [adds.frame mem outside used, bytes]

theorem page {s₃ : Phys} (sep : Separate s new old) (copied : Copied old new i s s₁)
    (aligned : i % pgsize = 0) (inside : i < maxva) (found : leaf? s.ram old (path i) = some w)
    (taken : Taken mem s₁ s₂) (bytes : s₂.ram mem = s₁.ram (pte2pa w)) (grows : Grows new s₂ s₃)
    (leaf : ∀ v, leaf? s₃.ram new v = if v = path i then some (leafWord mem (pteFlags w)) else leaf? s₁.ram new v) :
    Copied old new (i + pgsize) s s₃ := by
  have listed : mem ∈ s.freelist := copied.subset mem taken.mem_freelist
  have word := sep.left.toFree.leafWord_page listed (pteFlags_lt w)
  obtain ⟨added, ram⟩ := Adds.map copied.space taken grows word leaf
  have same (a : ℕ) (used : Used s₁ old a) : s₃.ram a = s₁.ram a := by
    obtain ⟨outside, free⟩ := copied.separate.used_of_left used
    exact added.frame a outside free
  have other {v} (away : vaddr v ≠ i) : leaf? s₃.ram new v = leaf? s₁.ram new v := by
    rw [leaf, if_neg fun here => away ((eq_path_iff aligned inside).mp here)]
  refine ⟨copied.toAdds.trans added,
    copied.separate.step added.space added.subset added.tables (fun v w' mapped => ?_) same,
    fun v above => ?_, fun v below gone => ?_, fun v w' below there => ?_⟩
  · rw [leaf] at mapped
    split_ifs at mapped
    · cases mapped
      exact .inr (word.symm ▸ taken.mem_freelist)
    · exact .inl mapped
  · rw [other (by unfold pgsize at above; omega), copied.outside v (by omega)]
  · rcases below_next aligned inside below with before | rfl
    · rw [other (by omega), copied.absent v before gone]
    · cases gone.symm.trans found
  · rcases below_next aligned inside below with before | rfl
    · obtain ⟨mem', listed', mapped, bytes'⟩ := copied.present v w' before there
      refine ⟨mem', listed', by rw [other (by omega), mapped], ?_⟩
      obtain ⟨-, used, outside⟩ := copied.space.mapped v _ mapped
      rw [sep.left.toFree.leafWord_page listed' (pteFlags_lt w')] at used outside
      rw [added.frame mem' outside used, bytes']
    · cases there.symm.trans found
      refine ⟨mem, listed, by rw [leaf, if_pos rfl], ?_⟩
      rw [ram, bytes, copied.same sep _ (.inr ⟨_, w, there, rfl⟩)]

end Copied

section Copy

variable {old new : ℕ} {s s₁ : Phys} {fails : Panic → Prop}

variable {i j : ℕ}

/-- The loop of `uvmcopy` copies all pages, or stops at one with those before it copied. A round takes three pages
at most: the copy and two of the table. -/
structure Copies (old new last rounds : ℕ) (s s₁ : Phys) (r : Option ℕ) (s' : Phys) : Prop where
  whole : r = none → Copied old new last s s' ∧ s₁.supply ≤ s'.supply + 3 * rounds
  stopped : ∀ j, r = some j → j % pgsize = 0 ∧ j ≤ last ∧ Copied old new j s s' ∧ s₁.supply < 3 * rounds

variable {s₂ : Phys}

theorem Copies.succ {last rounds : ℕ} {s s₁ s' : Phys} {r : Option ℕ} (copies : Copies old new last rounds s s₂ r s')
    (supply : s₁.supply ≤ s₂.supply + 3) : Copies old new last (rounds + 1) s s₁ r s' := by
  refine ⟨fun finished => ?_, fun j stopped => ?_⟩
  · obtain ⟨copied, rest⟩ := copies.whole finished
    exact ⟨copied, by omega⟩
  · obtain ⟨aligned, bound, copied, few⟩ := copies.stopped j stopped
    exact ⟨aligned, bound, copied, by omega⟩

theorem uvmcopyLoop_ensures (rounds : ℕ) (sep : Separate s new old) (copied : Copied old new i s s₁)
    (aligned : i % pgsize = 0) (bound : i + rounds * pgsize ≤ maxva)
    (vacant : ∀ v, vaddr v < i + rounds * pgsize → leaf? s.ram new v = none) : Ensures (uvmcopyLoop old new i rounds) s₁
    (Copies old new (i + rounds * pgsize) rounds s s₁) fails := by
  induction rounds generalizing i s₁ with
  | zero =>
    rw [Nat.zero_mul, Nat.add_zero]
    exact .pure ⟨fun _ => ⟨copied, le_rfl⟩, nofun⟩
  | succ rounds ih =>
    have shift : i + (rounds + 1) * pgsize = i + pgsize + rounds * pgsize := by
      rw [Nat.succ_mul]
      omega
    have page : 0 < pgsize := by decide
    rw [shift] at bound vacant ⊢
    have inside : i < maxva := by omega
    have next : (i + pgsize) % pgsize = 0 := by rw [Nat.add_mod_right, aligned]
    have here : leaf? s.ram new (path i) = none := vacant _ (by rw [vaddr_path aligned inside]; omega)
    have leaf_old := copied.leaf_old sep
    have stop (s₂ : Phys) (copied₁ : Copied old new i s s₂) (few : s₁.supply < 3) : Ensures (pure (some i)) s₂
        (Copies old new (i + pgsize + rounds * pgsize) (rounds + 1) s s₁) fails := by
      refine .pure ⟨nofun, ?_⟩
      rintro _ ⟨⟩
      exact ⟨aligned, by omega, copied₁, by omega⟩
    have go {s₂ : Phys} (copied₁ : Copied old new (i + pgsize) s s₂) (supply : s₁.supply ≤ s₂.supply + 3) :=
      (ih copied₁ next bound vacant).mono fun _ _ copies => copies.succ supply
    have skip (absent : leaf? s.ram old (path i) = none) :=
      go (copied.skip aligned inside here absent) (Nat.le_add_right ..)
    unfold uvmcopyLoop
    refine .run_bind (walk_false inside) ?_
    cases slot : slot? s₁.ram old i with
    | none => exact skip (by rw [← leaf_old, leaf?_path, slot]; rfl)
    | some p =>
      have leaf := load_of_leaf? slot
      rw [leaf_old] at leaf
      refine load_bind (.ite (fun invalid => ?_) fun valid => ?_)
      · exact skip (by rw [leaf, if_neg (not_not.mpr invalid)])
      rw [if_pos valid] at leaf
      generalize s₁.load p = w at *
      refine kalloc_ensures.bind ?_
      rintro (_ | mem) s₂ ⟨kernelEnd, supply, failed, allocated⟩
      · obtain ⟨ram, free, empty⟩ := failed rfl
        exact stop s₂ (copied.adds sep (.of_same copied.space ram free kernelEnd) (by rw [ram])) (by omega)
      · obtain ⟨free, ram⟩ := allocated mem rfl
        refine .modify_bind ?_
        have own : pte2pa w ≠ mem := by
          rintro rfl
          exact (sep.right.mapped _ w leaf).2.1 (copied.subset _ (free ▸ List.mem_cons_self))
        have taken : Taken mem s₁ (s₂.setPage mem (s₂.ram (pte2pa w))) :=
          ⟨free, fun a other => by rw [Phys.setPage_of_ne other, ram, Function.update_of_ne other], kernelEnd⟩
        have bytes : (s₂.setPage mem (s₂.ram (pte2pa w))).ram mem = s₁.ram (pte2pa w) := by
          rw [Phys.setPage_self, ram, Function.update_of_ne own]
        have same_supply : (s₂.setPage mem (s₂.ram (pte2pa w))).supply = s₂.supply := rfl
        generalize s₂.setPage mem (s₂.ram (pte2pa w)) = s₃ at *
        have leaf_new : leaf? s₃.ram new = leaf? s₁.ram new := leaf?_same (taken.same copied.space.toWellFormed)
        have unmapped : leaf? s₃.ram new (path i) = none := by
          rw [leaf_new, copied.outside _ (vaddr_path aligned inside).ge, here]
        refine (mappages_page (taken.wellFormed copied.space.toWellFormed) aligned inside unmapped).bind ?_
        rintro done s₄ ⟨grows, supply₄, leaf₄, few⟩
        rw [leaf_new] at leaf₄
        cases done with
        | true =>
          simp only [true_and] at leaf₄
          exact go (copied.page sep aligned inside leaf taken bytes grows leaf₄) (by omega)
        | false =>
          have same : leaf? s₄.ram new = leaf? s₁.ram new := by
            funext v
            rw [leaf₄, if_neg (by simp)]
          obtain ⟨start, low, high⟩ := copied.space.pages mem taken.mem_freelist
          have end₄ : s₄.kernelEnd = s₁.kernelEnd := grows.kernelEnd.trans taken.kernelEnd
          obtain ⟨added, leaf₅⟩ := Adds.undo copied.space taken grows same
          have scarce := few rfl
          exact .run_bind (kfree_run start (end₄ ▸ low) high) (stop _ (copied.adds sep added leaf₅) (by omega))

theorem Copied.leaf {v : Fin 512 × Fin 512 × Fin 512} {w : UInt64} (copied : Copied old new i s s₁)
    (below : vaddr v < i) (found : leaf? s₁.ram new v = some w) :
    ∃ w₀ mem, leaf? s.ram old v = some w₀ ∧ mem ∈ s.freelist ∧
      w = leafWord mem (pteFlags w₀) := by
  cases parent : leaf? s.ram old v with
  | none =>
    rw [copied.absent v below parent] at found
    cases found
  | some w₀ =>
    obtain ⟨mem, listed, mapped, -⟩ := copied.present v w₀ below parent
    exact ⟨w₀, mem, rfl, listed, Option.some.inj (found.symm.trans mapped)⟩

theorem Copied.freeable (sep : Separate s new old) (copied : Copied old new j s s₁) (aligned : j % pgsize = 0) :
    Freeable s₁ new 0 (j / pgsize) := by
  refine ⟨fun v w within found => ?_, fun v v' w w' _ _ => copied.space.distinct v v' w w'⟩
  obtain ⟨-, used, outside⟩ := copied.space.mapped v w found
  have below : vaddr v < j := by
    have := within.2
    rwa [Nat.zero_add, Nat.div_mul_cancel (Nat.dvd_of_mod_eq_zero aligned)] at this
  obtain ⟨w₀, mem, -, listed, rfl⟩ := copied.leaf below found
  rw [sep.left.toFree.leafWord_page listed (pteFlags_lt w₀)] at used outside ⊢
  obtain ⟨-, low, high⟩ := sep.left.pages mem listed
  exact ⟨copied.kernelEnd ▸ low, high, outside, used⟩

/-- What `uvmcopy` leaves when it fails. -/
structure Undone (old new sz : ℕ) (s s' : Phys) : Prop where
  vacant : ∀ v, vaddr v < sz → leaf? s'.ram new v = none
  same : ∀ a, Used s old a → s'.ram a = s.ram a

theorem Copied.undo (sep : Separate s new old) (copied : Copied old new j s s₁) (aligned : j % pgsize = 0)
    (vacant : ∀ v, vaddr v < sz → leaf? s.ram new v = none) (shrinks : Shrinks new 0 (j / pgsize) s₁ s₂) :
    Undone old new sz s s₂ := by
  have range (v) : Within 0 (j / pgsize) v ↔ vaddr v < j := by
    rw [Within, Nat.zero_add, Nat.div_mul_cancel (Nat.dvd_of_mod_eq_zero aligned), and_iff_right (Nat.zero_le _)]
  refine ⟨fun v below => ?_, fun a used => ?_⟩
  · rw [shrinks.leaf, if_congr (range v) rfl rfl]
    split_ifs with removed
    · rfl
    · rw [copied.outside v (not_lt.mp removed), vacant v below]
  · obtain ⟨outside, free⟩ := sep.used_of_left used
    rw [shrinks.frame a, copied.same sep a used]
    · exact fun inside => (copied.tables a inside).elim outside free
    · intro listed
      rcases shrinks.freed a listed with before | ⟨v, w, within, found, rfl⟩
      · exact free (copied.subset a before)
      · -- the pages that are freed were on the free list when the copy began
        obtain ⟨w₀, mem, -, from_free, rfl⟩ := copied.leaf ((range v).mp within) found
        rw [sep.left.toFree.leafWord_page from_free (pteFlags_lt w₀)] at free
        exact free from_free

theorem uvmcopy_ensures (sep : Separate s new old) (small : sz ≤ maxva)
    (vacant : ∀ v, vaddr v < sz → leaf? s.ram new v = none) : Ensures (uvmcopy old new sz) s
    (fun done s' => if done then Copied old new (pgroundup sz) s s' ∧ s.supply ≤ s'.supply + 3 * (pgroundup sz / pgsize)
      else Undone old new sz s s' ∧ s.supply < 3 * (pgroundup sz / pgsize)) fails := by
  have pages : pgroundup sz / pgsize = (sz + pgsize - 1) / pgsize := Nat.mul_div_cancel _ (by decide)
  have rounds : 0 + (sz + pgsize - 1) / pgsize * pgsize = pgroundup sz := Nat.zero_add _
  have top : pgroundup sz ≤ maxva := by
    unfold pgroundup pgsize maxva at *
    omega
  have below (v) (low : vaddr v < pgroundup sz) : vaddr v < sz := by
    have page := Vm.vaddr_mod v
    unfold pgroundup pgsize at *
    omega
  have start : Copied old new 0 s s := ⟨.of_same sep.left rfl rfl rfl, sep, fun _ _ => rfl,
    fun v low => absurd low (Nat.not_lt_zero _), fun v _ low => absurd low (Nat.not_lt_zero _)⟩
  unfold uvmcopy
  refine (uvmcopyLoop_ensures _ sep start rfl (by rw [rounds]; exact top) fun v low =>
    vacant v (below v (by rwa [rounds] at low))).bind ?_
  rintro (_ | j) s₁ ⟨done, failed⟩
  · rw [rounds, ← pages] at done
    exact .pure (done rfl)
  · obtain ⟨aligned, bound, copied, few⟩ := failed j rfl
    have fits : 0 + j / pgsize * pgsize ≤ maxva := by
      rw [Nat.zero_add]
      exact (Nat.div_mul_le_self _ _).trans (bound.trans (rounds ▸ top))
    refine (uvmunmap_ensures true copied.space.toWellFormed rfl fits fun _ => copied.freeable sep aligned).bind ?_
    exact fun _ s₂ unmaps => .pure ⟨copied.undo sep aligned vacant unmaps.toShrinks, pages.symm ▸ few⟩

end Copy

/-! ## Afterwards -/

/-- A sequence of `copyout` calls by one process. -/
def copyouts (proc : Process) (writes : List (ℕ × List UInt8)) : Mem Unit :=
  writes.forM fun write => do
    let _ ← copyout proc proc.pagetable write.1 write.2

section Later

variable {s s' : Phys} {one other : Process} {fails : Panic → Prop}

theorem copyouts_ensures (writes : List (ℕ × List UInt8)) (sep : Separate s one.pagetable other.pagetable)
    (small : one.sz ≤ maxva) :
    Ensures (copyouts one writes) s (fun _ s' => Separate s' one.pagetable other.pagetable ∧
      leaf? s'.ram other.pagetable = leaf? s.ram other.pagetable ∧ ∀ a, Used s other.pagetable a →
      s'.ram a = s.ram a) fails := by
  refine .forM_list (fun s' => Separate s' one.pagetable other.pagetable ∧
    leaf? s'.ram other.pagetable = leaf? s.ram other.pagetable ∧ ∀ a, Used s other.pagetable a → s'.ram a = s.ram a)
    ⟨sep, rfl, fun _ _ => rfl⟩ (fun write s₁ inv => ?_) writes
  obtain ⟨sep₁, leaf₁, same₁⟩ := inv
  refine (copyoutLoop_ensures _ sep₁.left small _ _).bind ?_
  rintro done s₂ ⟨acts, -⟩
  obtain ⟨sep₂, same₂⟩ := sep₁.acts acts
  have still (a : ℕ) (used : Used s other.pagetable a) : Used s₁ other.pagetable a := by
    rcases used with inside | ⟨v, w, found, page⟩
    · exact .inl ((inTable_same fun b inside => same₁ b (.inl inside)).mpr inside)
    · exact .inr ⟨v, w, by rw [leaf₁, found], page⟩
  refine .pure ⟨sep₂, ?_, fun a used => ?_⟩
  · rw [leaf?_same fun a inside => same₂ a (.inl inside), leaf₁]
  · rw [same₂ a (still a used), same₁ a used]

variable {srcva len : ℕ} {bytes : List UInt8} {done : Bool}

theorem copyin_run (space : Space s other.pagetable) (small : other.sz ≤ maxva)
    (ran : (copyin other other.pagetable srcva len).run s = .ok ((bytes, done), s')) :
    bytes = (List.range bytes.length).map (fun i => view s other.pagetable (srcva + i)) ∧
      (done = true → bytes.length = len) := by
  have spec : Ensures (copyin other other.pagetable srcva len) s _ fun _ => True :=
    copyinLoop_ensures len space small srcva len
  obtain ⟨-, -, whole, read, -⟩ := spec.of_run ran
  exact ⟨read, fun finished => whole finished le_rfl⟩

/-- Whatever one process has written, the other reads the same bytes as before. -/
theorem copyin_after_copyouts {writes : List (ℕ × List UInt8)} {bytes₀ : List UInt8} {done₀ : Bool}
    {t₀ t : Phys} (sep : Separate s one.pagetable other.pagetable) (small : one.sz ≤ maxva) (small' : other.sz ≤ maxva)
    (wrote : (copyouts one writes).run s = .ok ((), s'))
    (before : (copyin other other.pagetable srcva len).run s = .ok ((bytes₀, done₀), t₀))
    (after : (copyin other other.pagetable srcva len).run s' = .ok ((bytes, done), t)) :
    (∀ i, i < bytes₀.length → i < bytes.length → bytes[i]? = bytes₀[i]?) ∧
    (done₀ = true → done = true → bytes = bytes₀) := by
  have spec : Ensures (copyouts one writes) s _ fun _ => True := copyouts_ensures writes sep small
  obtain ⟨sep', -, same⟩ := spec.of_run wrote
  obtain ⟨read₀, whole₀⟩ := copyin_run sep.right small' before
  obtain ⟨read, whole⟩ := copyin_run sep'.right small' after
  have seen : view s' other.pagetable = view s other.pagetable := funext (view_same same)
  rw [seen] at read
  refine ⟨fun i short₀ short => ?_, fun finished₀ finished => ?_⟩
  · rw [read, read₀]
    simp [short, short₀]
  · rw [read, read₀, whole finished, whole₀ finished₀]

end Later

/-- A successful `uvmcopy` gives the child the memory and the permissions of its parent, in pages that the
parent does not have, and from then on neither reads what the other writes; one that fails leaves the child
without memory, and does so only for want of three pages for each page of the parent. The parent is left alone. -/
theorem fork_isolation {s : Phys} {old new sz : ℕ} (sep : Separate s old new) (small : sz ≤ maxva)
    (vacant : ∀ v, vaddr v < sz → leaf? s.ram new v = none) :
    (∃ done s', (uvmcopy old new sz).run s = .ok (done, s') ∧ (done = false → s.supply < 3 * (pgroundup sz / pgsize))) ∧
    (∀ s', (uvmcopy old new sz).run s = .ok (true, s') →
      (∀ va < sz, view s' new va = view s old va ∧
        (leaf? s'.ram new (path va)).map pteFlags = (leaf? s.ram old (path va)).map pteFlags) ∧
      (leaf? s'.ram old = leaf? s.ram old ∧ view s' old = view s old) ∧
      (∀ v w v' w', vaddr v < sz → leaf? s'.ram new v = some w → leaf? s'.ram old v' = some w' → pte2pa w ≠ pte2pa w') ∧
      ∀ one other : Process, one.sz ≤ maxva → other.sz ≤ maxva →
        (one.pagetable = old ∧ other.pagetable = new ∨ one.pagetable = new ∧ other.pagetable = old) →
        ∀ writes s'' srcva len bytes₀ bytes done₀ done t₀ t, (copyouts one writes).run s' = .ok ((), s'') →
          (copyin other other.pagetable srcva len).run s' = .ok ((bytes₀, done₀), t₀) →
          (copyin other other.pagetable srcva len).run s'' = .ok ((bytes, done), t) →
          (∀ i, i < bytes₀.length → i < bytes.length → bytes[i]? = bytes₀[i]?) ∧
          (done₀ = true → done = true → bytes = bytes₀)) ∧
    (∀ s', (uvmcopy old new sz).run s = .ok (false, s') →
      (∀ v, vaddr v < sz → leaf? s'.ram new v = none) ∧ leaf? s'.ram old = leaf? s.ram old ∧
      view s' old = view s old) := by
  have sep' := sep.symm
  have spec : Ensures (uvmcopy old new sz) s _ fun _ => False := uvmcopy_ensures sep' small vacant
  refine ⟨?_, fun s' ran => ?_, fun s' ran => ?_⟩
  · obtain ⟨done, s', ran, copies⟩ := spec.exists_run
    refine ⟨done, s', ran, fun failed => ?_⟩
    rw [if_neg (by simp [failed])] at copies
    exact copies.2
  · have copied : Copied old new (pgroundup sz) s s' := (spec.of_run ran).1
    have same := copied.same sep'
    refine ⟨fun va below => ?_, ⟨copied.leaf_old sep', funext (view_same same)⟩, fun v w v' w' below found found' => ?_,
      fun one other small₁ small₂ which writes s'' srcva len bytes₀ bytes done₀ done t₀ t wrote before after => ?_⟩
    · have low : vaddr (path va) < pgroundup sz :=
        (vaddr_path_le (below.trans_le small)).trans_lt (below.trans_le (Vm.le_pgroundup sz))
      unfold view
      cases parent : leaf? s.ram old (path va) with
      | none => rw [copied.absent _ low parent, Option.elim_none, Option.elim_none]; exact ⟨rfl, rfl⟩
      | some w =>
        obtain ⟨mem, listed, mapped, bytes⟩ := copied.present _ w low parent
        obtain ⟨-, -, high⟩ := sep.left.pages mem listed
        rw [mapped, Option.elim_some, Option.elim_some, sep.left.toFree.leafWord_page listed (pteFlags_lt w), bytes,
          Option.map_some, Option.map_some, pteFlags_leafWord (lt_size_of_lt_phystop high) (leaf?_valid parent)]
        exact ⟨rfl, rfl⟩
    · obtain ⟨w₀, mem, -, listed, rfl⟩ := copied.leaf (below.trans_le (Vm.le_pgroundup sz)) found
      rw [copied.leaf_old sep'] at found'
      rw [sep.left.toFree.leafWord_page listed (pteFlags_lt w₀)]
      rintro rfl
      exact (sep.left.mapped v' w' found').2.1 listed
    · rcases which with ⟨rfl, rfl⟩ | ⟨rfl, rfl⟩
      · exact copyin_after_copyouts copied.separate.symm small₁ small₂ wrote before after
      · exact copyin_after_copyouts copied.separate small₁ small₂ wrote before after
  · have undone : Undone old new sz s s' := (spec.of_run ran).1
    exact ⟨undone.vacant, leaf?_same fun a inside => undone.same a (.inl inside), funext (view_same undone.same)⟩

/-- Two tables without mappings, and pages for more. -/
def twoTables : Phys where
  ram _ := .filled 0
  freelist := (List.range 9).map fun k => 0x80002000 + pgsize * k
  refusals := []
  kernelEnd := 0x80000000

theorem twoTables_separate : Separate twoTables 0x80000000 0x80001000 := by
  have free : Free twoTables := ⟨by decide, by decide⟩
  have absent {root : ℕ} {v} {w : UInt64} (found : leaf? twoTables.ram root v = some w) : False := by
    rw [leaf?_zeroed rfl v] at found
    cases found
  have space {root : ℕ} (aligned : root % pgsize = 0) (used : root ∉ twoTables.freelist) : Space twoTables root :=
    ⟨.zeroed free aligned rfl
      used, by decide, fun _ _ found => (absent found).elim, fun _ _ _ _ found => (absent found).elim⟩
  refine ⟨space (by decide) (by decide), space (by decide) (by decide), fun a inside inside' => ?_,
    fun _ _ found => (absent found).elim, fun _ _ found => (absent found).elim,
    fun _ _ _ _ found => (absent found).elim⟩
  have same := (inTable_zeroed rfl inside).symm.trans (inTable_zeroed rfl inside')
  exact absurd same (by decide)

/-- One of two processes gets a page that it can write. -/
theorem Separate.exists_map {s s₁ : Phys} {one other va : ℕ} (sep : Separate s one other) (taken : Taken mem s s₁)
    (aligned : va % pgsize = 0) (inside : va < maxva) (vacant : leaf? s.ram one (path va) = none)
    (enough : 2 ≤ s₁.supply) :
    ∃ s', Separate s' one other ∧ leaf? s'.ram other = leaf? s.ram other ∧ s₁.supply ≤ s'.supply + 2 ∧
      leaf? s'.ram one (path va) = some (lazyWord mem) ∧ s'.ram (pte2pa (lazyWord mem)) = s₁.ram mem := by
  have kept := leaf?_same (taken.same sep.left.toWellFormed)
  have spec : Ensures (mappages one va pgsize mem (pteW ||| pteU ||| pteR)) s₁ _ fun _ => False :=
    mappages_page (taken.wellFormed sep.left.toWellFormed) aligned inside (by rw [kept, vacant])
  obtain ⟨done, s', -, grows, supply, leaf, few⟩ := spec.exists_run
  obtain rfl : done = true := by
    by_contra failed
    exact absurd (few (by simpa using failed)) (by omega)
  simp only [true_and, kept] at leaf
  have listed := taken.mem_freelist
  have page := sep.left.toFree.lazyWord_page listed
  obtain ⟨adds, bytes⟩ := Adds.map sep.left taken grows page leaf
  have same (a : ℕ) (used : Used s other a) : s'.ram a = s.ram a := by
    obtain ⟨outside, free⟩ := sep.used_of_left used
    exact adds.frame a outside free
  refine ⟨s', sep.step adds.space adds.subset adds.tables (fun v w found => ?_) same,
    leaf?_same fun a inside => same a (.inl inside), supply, by rw [leaf, if_pos rfl]; rfl, by rw [page, bytes]⟩
  rw [leaf] at found
  split_ifs at found
  · cases found
    exact .inr (page.symm ▸ listed)
  · exact .inl found

def forkParent : Process := ⟨0x80000000, pgsize⟩
def forkChild : Process := ⟨0x80001000, pgsize⟩

/-- The first page has been taken and filled. -/
def pageTaken : Phys :=
  { twoTables with
    freelist := twoTables.freelist.tail
    ram := Function.update twoTables.ram 0x80002000 (.filled 42) }

/-- The page of the parent is full of `42`. The child gets a copy and writes `7` to it, which the parent does not see.
-/
theorem fork_isolation_copied : ∃ s s' s'',
    (uvmcopy forkParent.pagetable forkChild.pagetable pgsize).run s = .ok (true, s') ∧
    (∀ va < pgsize, view s' forkChild.pagetable va = 42) ∧ (copyouts forkChild [(0, [7])]).run s' = .ok ((), s'') ∧
    view s'' forkChild.pagetable 0 = 7 ∧
    (copyin forkParent forkParent.pagetable 0 1).run s'' = .ok (([42], true), s'') := by
  have taken : Taken 0x80002000 twoTables pageTaken := ⟨rfl, fun a other => Function.update_of_ne other .., rfl⟩
  obtain ⟨s, sep, bare, supply, leaf, bytes⟩ : ∃ s, Separate s forkParent.pagetable forkChild.pagetable ∧ _ :=
    twoTables_separate.exists_map taken (Nat.zero_mod _) (by decide : 0 < maxva) (leaf?_zeroed rfl _) (by decide)
  have enough : pageTaken.supply = 8 := by decide
  have small : pgsize ≤ maxva := by decide
  have vacant (v) (_ : vaddr v < pgsize) : leaf? s.ram forkChild.pagetable v = none := by
    rw [show leaf? s.ram forkChild.pagetable = _ from bare, leaf?_zeroed rfl]
  have pages : pgroundup pgsize / pgsize = 1 := by decide
  obtain ⟨⟨done, s', ran, few⟩, forked, -⟩ := fork_isolation sep small vacant
  obtain rfl : done = true := by
    by_contra failed
    exact absurd (few (by simpa using failed)) (by omega)
  obtain ⟨seen, ⟨kept, same⟩, -, later⟩ := forked s' ran
  have filled (va : ℕ) (low : va < pgsize) : view s forkParent.pagetable va = 42 := by
    have start : path va = path 0 := by
      rw [← path_pgrounddown, Vm.pgrounddown, Nat.div_eq_of_lt low, Nat.zero_mul]
    rw [view, start, show leaf? s.ram forkParent.pagetable (path 0) = _ from leaf, Option.elim_some, bytes,
      Nat.mod_eq_of_lt low]
    exact Page.byte_filled low
  have spec : Ensures (uvmcopy forkParent.pagetable forkChild.pagetable pgsize) s _ fun _ => False :=
    uvmcopy_ensures sep.symm small vacant
  obtain ⟨copied, supply'⟩ := spec.of_run ran
  obtain ⟨mem, -, mapped, -⟩ := copied.present _ _ (by decide) leaf
  have access : accessible s' forkChild true 0 = true := by
    rw [accessible_eq (by decide) mapped]
    simp only [decide_eq_true_eq]
    exact ⟨leafWord_and (by decide), fun _ => leafWord_and (by decide)⟩
  have wrote :
      Ensures (copyouts forkChild [(0, [7])]) s' (fun _ s'' => view s'' forkChild.pagetable 0 = 7) fun _ => True := by
    refine (copyoutLoop_ensures 1 copied.space small 0 [7]).bind ?_ |>.bind fun _ _ done => .pure done
    rintro _ s'' ⟨-, -, exact_bytes⟩
    refine .pure ?_
    rw [(exact_bytes ?_).2 0 (by decide)]
    · simp [writeBytes, Vm.pgrounddown, access, pgsize]
    · have one : spanned 0 [(7 : UInt8)].length = 1 := by decide
      rw [one]
      omega
  have writes : Ensures (copyouts forkChild [(0, [7])]) s' _ fun _ => False := copyouts_ensures _ copied.separate small
  obtain ⟨_, s'', ran', ⟨sep', kept', -⟩, seen'⟩ := (writes.and wrote).exists_run
  have reads {t : Phys} (space : Space t forkParent.pagetable) (same : leaf? t.ram forkParent.pagetable =
      leaf? s.ram forkParent.pagetable) : (copyin forkParent forkParent.pagetable 0 1).run t =
        .ok (([view t forkParent.pagetable 0], true), t) := by
    refine copyin_mapped space small fun i low => ?_
    obtain rfl : i = 0 := by omega
    exact ⟨by decide, _, (congrFun same _).trans leaf, by decide⟩
  have after := reads sep'.right (kept'.trans kept)
  obtain ⟨-, equal⟩ := later forkChild forkParent small small (.inr ⟨rfl, rfl⟩) _ s'' 0 1 _ _ _ _ _ _ ran'
    (reads copied.separate.right kept) after
  refine ⟨s, s', s'', ran, fun va low => by rw [(seen va low).1, filled va low], ran', seen', ?_⟩
  rw [after, equal rfl rfl, same, filled 0 (by decide)]

end Xv6.Sv39
