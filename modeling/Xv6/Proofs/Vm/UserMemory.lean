import Xv6.Proofs.Vm.Sv39

/-! # The memory that a user sees

A page table and the pages that it maps make up the memory of a user, in which pages that have not been
allocated yet read as zero. `vmfault` does not change it; `copyin` reads it and `copyout` writes it.
-/

namespace Xv6.Sv39

open Machine List
open Vm (pgsize maxva px path vaddr vaddr_path path_vaddr eq_path_iff pgrounddown)

/-! ## Bytes of pages -/

variable {len n i : ℕ}

namespace Page

def byte (page : Page) (i : ℕ) : UInt8 := page[i]?.getD 0

theorem byte_filled {c : UInt8} (inside : i < 4096) : (filled c).byte i = c := by
  rw [byte, filled, Vector.getElem?_replicate, if_pos inside, Option.getD_some]

theorem slice_eq (page : Page) {off : ℕ} (inside : off + len ≤ 4096) :
    page.slice off len = (range len).map fun i => page.byte (off + i) := by
  refine ext_getElem ?_ fun i first second => ?_
  · simp only [slice, length_take, length_drop, length_map, length_range, Vector.length_toList]
    omega
  · simp only [length_map, length_range] at second
    have bound : off + i < 4096 := by omega
    simp only [slice, byte, getElem_take, getElem_drop, Vector.getElem_toList, getElem_map,
      getElem_range, getElem?_pos page (off + i) bound, Option.getD_some]

theorem byte_write (page : Page) (off : ℕ) (bytes : List UInt8) (inside : i < 4096) :
    (page.write off bytes).byte i =
      if off ≤ i ∧ i < off + bytes.length then bytes.getD (i - off) 0 else page.byte i := by
  rw [byte, byte, getElem?_pos _ i inside, getElem?_pos page i inside, write, Vector.getElem_ofFn]
  rfl

end Page

/-! ## Address spaces -/

/-- A page table, and the pages that it maps, which are neither free nor part of the table, and each mapped once. -/
structure Space (s : Phys) (root : ℕ) : Prop extends WellFormed s root where
  kernel : 0 < s.kernelEnd
  mapped : ∀ v w, leaf? s.ram root v = some w →
    pte2pa w ≠ 0 ∧ pte2pa w ∉ s.freelist ∧ ¬ InTable s.ram root (pte2pa w)
  distinct : ∀ v v' w w', leaf? s.ram root v = some w → leaf? s.ram root v' = some w' → pte2pa w = pte2pa w' → v = v'

/-- The byte that a user finds at an address. -/
def view (s : Phys) (root va : ℕ) : UInt8 :=
  (leaf? s.ram root (path va)).elim 0 fun w => (s.ram (pte2pa w)).byte (va % pgsize)

/-- The word for a page that `vmfault` has allocated. -/
def lazyWord (mem : ℕ) : UInt64 := leafWord mem (pteW ||| pteU ||| pteR)

variable {root sz : ℕ} {s s' s'' : Phys} {fails : Panic → Prop}

/-- Pages have been taken from the free list for the table and for the user; nothing else has changed. -/
structure Adds (root : ℕ) (s s' : Phys) : Prop where
  space : Space s' root
  subset : ∀ a ∈ s'.freelist, a ∈ s.freelist
  tables : ∀ a, InTable s'.ram root a → InTable s.ram root a ∨ a ∈ s.freelist
  frame : ∀ a, ¬ InTable s.ram root a → a ∉ s.freelist → s'.ram a = s.ram a
  kernelEnd : s'.kernelEnd = s.kernelEnd

/-- Pages below the size have been allocated where there were none. -/
structure Faults (root sz : ℕ) (s s' : Phys) : Prop extends Adds root s s' where
  leaf : ∀ v w, leaf? s.ram root v = some w → leaf? s'.ram root v = some w
  fresh : ∀ v w, leaf? s.ram root v = none → leaf? s'.ram root v = some w →
    vaddr v < sz ∧ ∃ mem ∈ s.freelist, w = lazyWord mem ∧ s'.ram mem = .filled 0

variable {mem va dstva rounds : ℕ} {v : Fin 512 × Fin 512 × Fin 512} {w : UInt64} {proc : Process} {src : List UInt8}
  {done : Bool}

theorem or_pteV_lt {perm : UInt64} (small : perm.toNat < 1024) : (perm ||| pteV).toNat < 1024 := by
  rw [UInt64.toNat_or]
  exact Nat.or_lt_two_pow (n := 10) small (by decide)

theorem leafWord_page {perm : UInt64} (aligned : mem % pgsize = 0) (bound : mem < phystop) (small : perm.toNat < 1024) :
    pte2pa (leafWord mem perm) = mem := by
  rw [leafWord, UInt64.or_assoc]
  exact pte2pa_or aligned (lt_size_of_lt_phystop bound) (or_pteV_lt small)

theorem Free.leafWord_page {perm : UInt64} (free : Free s) (listed : mem ∈ s.freelist) (small : perm.toNat < 1024) :
    pte2pa (leafWord mem perm) = mem := by
  obtain ⟨aligned, -, high⟩ := free.pages mem listed
  exact Sv39.leafWord_page aligned high small

theorem Free.lazyWord_page (free : Free s) (listed : mem ∈ s.freelist) : pte2pa (lazyWord mem) = mem :=
  free.leafWord_page listed (by decide)

theorem Adds.trans (first : Adds root s s') (second : Adds root s' s'') : Adds root s s'' where
  space := second.space
  subset a listed := first.subset a (second.subset a listed)
  tables a inside := by
    rcases second.tables a inside with old | free
    · exact first.tables a old
    · exact .inr (first.subset a free)
  frame a outside used := by
    rw [second.frame a, first.frame a outside used]
    · exact fun inside => (first.tables a inside).elim outside used
    · exact fun listed => used (first.subset a listed)
  kernelEnd := second.kernelEnd.trans first.kernelEnd

theorem Faults.refl (space : Space s root) : Faults root sz s s where
  space := space
  subset _ := id
  tables _ := .inl
  leaf _ _ := id
  fresh v w vacant found := by cases vacant.symm.trans found
  frame _ _ _ := rfl
  kernelEnd := rfl

section

variable (space : Space s root) (ram : s'.ram = s.ram) (free : s'.freelist = s.freelist)
  (kernelEnd : s'.kernelEnd = s.kernelEnd)
include space ram free kernelEnd

theorem Adds.of_same : Adds root s s' where
  space := ⟨(Grows.of_same space.toWellFormed ram free kernelEnd).wf, kernelEnd.symm ▸ space.kernel, by
    rw [ram, free]
    exact space.mapped, ram ▸ space.distinct⟩
  subset _ := by rw [free]; exact id
  tables _ := by rw [ram]; exact .inl
  frame _ _ _ := by rw [ram]
  kernelEnd := kernelEnd

theorem Faults.of_same : Faults root sz s s' where
  toAdds := .of_same space ram free kernelEnd
  leaf _ _ := by rw [ram]; exact id
  fresh v w vacant found := by cases vacant.symm.trans (ram ▸ found)

end

theorem Faults.trans (space : Space s root) (first : Faults root sz s s') (second : Faults root sz s' s'') :
    Faults root sz s s'' where
  toAdds := first.toAdds.trans second.toAdds
  leaf v w found := second.leaf v w (first.leaf v w found)
  fresh v w vacant found := by
    cases between : leaf? s'.ram root v with
    | none =>
      obtain ⟨below, mem, listed, word, zero⟩ := second.fresh v w between found
      exact ⟨below, mem, first.subset mem listed, word, zero⟩
    | some w' =>
      obtain ⟨below, mem, listed, rfl, zero⟩ := first.fresh v w' vacant between
      cases (second.leaf v _ between).symm.trans found
      -- the page belongs to the user since then, so it keeps its zeros
      obtain ⟨-, used, outside⟩ := first.space.mapped v _ between
      rw [space.toFree.lazyWord_page listed] at used outside
      exact ⟨below, mem, listed, rfl, by rw [second.frame mem outside used, zero]⟩

theorem Faults.view (space : Space s root) (faults : Faults root sz s s') (va : ℕ) :
    view s' root va = view s root va := by
  have inside : va % pgsize < 4096 := Nat.mod_lt _ (by decide)
  unfold Sv39.view
  cases before : leaf? s.ram root (path va) with
  | some w =>
    obtain ⟨-, used, outside⟩ := space.mapped _ w before
    rw [faults.leaf _ w before, Option.elim_some, Option.elim_some, faults.frame _ outside used]
  | none =>
    cases after : leaf? s'.ram root (path va) with
    | none => rfl
    | some w =>
      obtain ⟨-, mem, listed, rfl, zero⟩ := faults.fresh _ w before after
      rw [Option.elim_some, space.toFree.lazyWord_page listed, zero, Page.byte_filled inside]
      rfl

/-! ## `vmfault` -/

/-- A page has been taken from the free list, and perhaps written. -/
structure Taken (mem : ℕ) (s s' : Phys) : Prop where
  free : s.freelist = mem :: s'.freelist
  others : ∀ a, a ≠ mem → s'.ram a = s.ram a
  kernelEnd : s'.kernelEnd = s.kernelEnd

namespace Taken

variable {mem : ℕ}

section

variable (taken : Taken mem s s')
include taken

theorem mem_freelist : mem ∈ s.freelist := by
  rw [taken.free]
  exact mem_cons_self

theorem of_mem {a : ℕ} (listed : a ∈ s'.freelist) : a ∈ s.freelist := by
  rw [taken.free]
  exact mem_cons_of_mem _ listed

theorem same (wf : WellFormed s root) (a : ℕ) (inside : InTable s.ram root a) :
    s'.ram a = s.ram a := by
  refine taken.others a ?_
  rintro rfl
  exact wf.apart a inside taken.mem_freelist

theorem not_listed (free : Free s) : mem ∉ s'.freelist :=
  (nodup_cons.mp (taken.free ▸ free.nodup)).1

theorem outside (wf : WellFormed s root) : ¬ InTable s'.ram root mem := by
  rw [inTable_same (taken.same wf)]
  exact fun inside => wf.apart mem inside taken.mem_freelist

theorem wellFormed (wf : WellFormed s root) : WellFormed s' root := by
  refine wf.of_same ⟨(nodup_cons.mp (taken.free ▸ wf.nodup)).2, fun a listed => ?_⟩ (taken.same wf)
    fun a inside listed => wf.apart a inside (taken.of_mem listed)
  rw [taken.kernelEnd]
  exact wf.pages a (taken.of_mem listed)

end

end Taken

section

variable (space : Space s root) (taken : Taken mem s s')
include space taken

theorem Adds.map {word : UInt64} (grows : Grows root s' s'') (page : pte2pa word = mem)
    (leaf : ∀ v, leaf? s''.ram root v = if v = path va then some word else leaf? s.ram root v) :
    Adds root s s'' ∧ s''.ram mem = s'.ram mem := by
  have wf := space.toWellFormed
  have same := taken.same wf
  have listed (a : ℕ) (inside : a ∈ s''.freelist) : a ∈ s'.freelist := grows.suffix.subset inside
  have tables (a : ℕ) (inside : InTable s''.ram root a) : InTable s.ram root a ∨ a ∈ s'.freelist :=
    (grows.taken a inside).imp_left (inTable_same same).mp
  have outside (a : ℕ) (away : ¬ InTable s.ram root a) (used : a ∉ s'.freelist) : s''.ram a = s'.ram a :=
    grows.frame a (fun inside => away ((inTable_same same).mp inside)) used
  have mem_outside : ¬ InTable s.ram root mem := fun inside => wf.apart mem inside taken.mem_freelist
  have mem_used := taken.not_listed space.toFree
  refine ⟨⟨⟨grows.wf, ?_, fun v w found => ?_, fun v v' w w' found found' same_page => ?_⟩,
    fun a inside => taken.of_mem (listed a inside), fun a inside => (tables a inside).imp_right taken.of_mem,
    fun a away used => ?_, grows.kernelEnd.trans taken.kernelEnd⟩, outside mem mem_outside mem_used⟩
  · rw [grows.kernelEnd, taken.kernelEnd]
    exact space.kernel
  · rw [leaf] at found
    split_ifs at found
    · cases found
      rw [page]
      obtain ⟨-, low, -⟩ := wf.pages mem taken.mem_freelist
      have := space.kernel
      exact ⟨by omega, fun inside => mem_used (listed _ inside),
        fun inside => (tables _ inside).elim mem_outside mem_used⟩
    · obtain ⟨nonzero, used, away⟩ := space.mapped v w found
      exact ⟨nonzero, fun inside => used (taken.of_mem (listed _ inside)),
        fun inside => (tables _ inside).elim away fun free => used (taken.of_mem free)⟩
  · have old {v w} (found : leaf? s.ram root v = some w) : pte2pa w ≠ mem := by
      rintro rfl
      exact (space.mapped v w found).2.1 taken.mem_freelist
    rw [leaf] at found found'
    split_ifs at found found' with first second second
    · rw [first, second]
    · cases found
      exact absurd (same_page.symm.trans page) (old found')
    · cases found'
      exact absurd (same_page.trans page) (old found)
    · exact space.distinct v v' w w' found found' same_page
  · rw [outside a away fun inside => used (taken.of_mem inside), taken.others]
    rintro rfl
    exact used taken.mem_freelist

theorem Adds.undo (grows : Grows root s' s'') (leaf : leaf? s''.ram root = leaf? s.ram root) :
    Adds root s (s''.kfree mem) ∧ leaf? (s''.kfree mem).ram root = leaf? s.ram root := by
  have wf := space.toWellFormed
  have kernelEnd := grows.kernelEnd.trans taken.kernelEnd
  obtain ⟨aligned, low, high⟩ := wf.pages mem taken.mem_freelist
  have listed (a : ℕ) (inside : a ∈ s''.freelist) : a ∈ s'.freelist := grows.suffix.subset inside
  have mem_used := taken.not_listed space.toFree
  have mem_outside : ¬ InTable s''.ram root mem := fun inside =>
    (grows.taken mem inside).elim (taken.outside wf) mem_used
  obtain ⟨wf', same⟩ :=
    grows.wf.kfree aligned (kernelEnd ▸ low) high mem_outside fun inside => mem_used (listed _ inside)
  have leaf' : leaf? (s''.kfree mem).ram root = leaf? s.ram root := (leaf?_same same).trans leaf
  have subset (a : ℕ) (inside : a ∈ (s''.kfree mem).freelist) : a ∈ s.freelist := by
    rcases mem_cons.mp inside with rfl | old
    · exact taken.mem_freelist
    · exact taken.of_mem (listed a old)
  have tables (a : ℕ) (inside : InTable (s''.kfree mem).ram root a) : InTable s.ram root a ∨ a ∈ s.freelist := by
    rcases grows.taken a ((inTable_same same).mp inside) with old | new
    · exact .inl ((inTable_same (taken.same wf)).mp old)
    · exact .inr (taken.of_mem new)
  refine ⟨⟨⟨wf', kernelEnd.symm ▸ space.kernel, fun v w found => ?_, ?_⟩, subset, tables, fun a away used => ?_,
    kernelEnd⟩, leaf'⟩
  · rw [leaf'] at found
    obtain ⟨nonzero, used, away⟩ := space.mapped v w found
    exact ⟨nonzero, fun inside => used (subset _ inside), fun inside => (tables _ inside).elim away used⟩
  · rw [leaf']
    exact space.distinct
  · have other : a ≠ mem := by
      rintro rfl
      exact used taken.mem_freelist
    have kept : s'.ram a = s.ram a := taken.others a other
    rw [← kept, ← grows.frame a (fun inside => away ((inTable_same (taken.same wf)).mp inside))
      fun inside => used (taken.of_mem inside)]
    exact Phys.setPage_of_ne other

theorem Faults.map (zero : s'.ram mem = .filled 0)
    (grows : Grows root s' s'') (vacant : leaf? s.ram root (path va) = none) (below : vaddr (path va) < sz)
    (leaf : ∀ v, leaf? s''.ram root v = if v = path va then some (lazyWord mem) else leaf? s.ram root v) :
    Faults root sz s s'' := by
  obtain ⟨adds, ram⟩ := Adds.map space taken grows (space.toFree.lazyWord_page taken.mem_freelist) leaf
  refine ⟨adds, fun v w found => ?_, fun v w unmapped found => ?_⟩
  · rw [leaf, if_neg, found]
    rintro rfl
    cases vacant.symm.trans found
  · rw [leaf] at found
    split_ifs at found with here
    · cases found
      exact ⟨here ▸ below, mem, taken.mem_freelist, rfl, ram.trans zero⟩
    · cases unmapped.symm.trans found

theorem Faults.undo (grows : Grows root s' s'')
    (leaf : leaf? s''.ram root = leaf? s.ram root) : Faults root sz s (s''.kfree mem) := by
  obtain ⟨adds, leaf'⟩ := Adds.undo space taken grows leaf
  refine ⟨adds, by rw [leaf']; exact fun _ _ => id, fun v w vacant found => ?_⟩
  rw [leaf', vacant] at found
  cases found

end

theorem ismapped_run (inside : va < maxva) :
    (ismapped root va).run s = .ok ((leaf? s.ram root (path va)).isSome, s) := by
  unfold ismapped
  refine Ensures.run_eq (.run_bind (walk_false inside) ?_)
  cases slot : slot? s.ram root va with
  | none =>
    rw [leaf?_path, slot]
    exact .pure ⟨rfl, rfl⟩
  | some p =>
    rw [load_of_leaf? slot]
    refine load_bind (.pure ⟨?_, rfl⟩)
    split_ifs <;> simp [*]

theorem pgrounddown_le (va : ℕ) : pgrounddown va ≤ va ∧ va < pgrounddown va + pgsize := by
  unfold pgrounddown pgsize
  omega

theorem path_pgrounddown (va : ℕ) : path (pgrounddown va) = path va := by
  simp only [path, px, Nat.shiftRight_eq_div_pow, pgrounddown, Prod.mk.injEq, Fin.mk.injEq]
  unfold pgsize
  omega

theorem vaddr_path_le (inside : va < maxva) : vaddr (path va) ≤ va := by
  rw [← path_pgrounddown, vaddr_path (Vm.pgrounddown_mod va) ((Nat.div_mul_le_self _ _).trans_lt inside)]
  exact Nat.div_mul_le_self _ _

theorem supply_kfree (pa : ℕ) : s.supply ≤ (s.kfree pa).supply := by
  unfold Phys.supply Phys.kfree Phys.setPage
  split_ifs <;> simp

section Process

variable {proc : Process}

/-- `vmfault` allocates a page of zeros where the process has none, unless there are not three pages to be
had: the page itself and two of the table. -/
theorem vmfault_ensures (space : Space s proc.pagetable) (small : proc.sz ≤ maxva) (va : ℕ) :
    Ensures (vmfault proc proc.pagetable va) s (fun r s' => Faults proc.pagetable proc.sz s s' ∧
      s.supply ≤ s'.supply + 3 ∧ (∀ pa, r = some pa → va < proc.sz ∧ leaf? s.ram proc.pagetable (path va) = none ∧
        leaf? s'.ram proc.pagetable (path va) = some (lazyWord pa) ∧ pte2pa (lazyWord pa) = pa) ∧
      (r = none → proc.sz ≤ va ∨ leaf? s.ram proc.pagetable (path va) ≠ none ∨ s.supply < 3)) fails := by
  unfold vmfault
  refine .ite (fun outside => .pure ⟨.refl space, by omega, by rintro _ ⟨⟩, fun _ => .inl outside⟩) fun inside => ?_
  have below : va < maxva := by omega
  have down : pgrounddown va < maxva := (Nat.div_mul_le_self _ _).trans_lt below
  refine .run_bind (ismapped_run down) ?_
  rw [path_pgrounddown]
  cases found : leaf? s.ram proc.pagetable (path va) with
  | some w => exact .pure ⟨.refl space, by omega, by rintro _ ⟨⟩, fun _ => .inr (.inl (by simp))⟩
  | none =>
    refine kalloc_ensures.bind ?_
    rintro (_ | mem) s₁ ⟨kernelEnd, supply, failed, allocated⟩
    · obtain ⟨ram, free, none_left⟩ := failed rfl
      exact .pure ⟨.of_same space ram free kernelEnd, by omega, by rintro _ ⟨⟩, fun _ => .inr (.inr (by omega))⟩
    · obtain ⟨free, ram⟩ := allocated mem rfl
      refine memset_bind ?_
      have taken : Taken mem s (s₁.setPage mem (.filled 0)) := ⟨free, fun a other => by
        simp [Phys.setPage, ram, other], kernelEnd⟩
      have vacant : leaf? (s₁.setPage mem (.filled 0)).ram proc.pagetable (path (pgrounddown va)) = none := by
        rw [path_pgrounddown, leaf?_same (taken.same space.toWellFormed), found]
      refine (mappages_page (taken.wellFormed space.toWellFormed) (Vm.pgrounddown_mod va) down vacant).bind ?_
      rintro done s₂ ⟨grows, supply₁, leaf, lacking⟩
      rw [path_pgrounddown, leaf?_same (taken.same space.toWellFormed)] at leaf
      have supply₂ : s.supply ≤ s₂.supply + 3 := by
        have : (s₁.setPage mem (.filled 0)).supply = s₁.supply := rfl
        omega
      cases done with
      | true =>
        simp only [true_and] at leaf
        refine .pure ⟨.map space taken Phys.setPage_self grows found ((vaddr_path_le below).trans_lt (by omega)) leaf,
          supply₂, ?_, by rintro ⟨⟩⟩
        rintro _ ⟨⟩
        refine ⟨by omega, rfl, ?_, space.toFree.lazyWord_page taken.mem_freelist⟩
        rw [leaf, if_pos rfl]
        rfl
      | false =>
        have same : leaf? s₂.ram proc.pagetable = leaf? s.ram proc.pagetable := by
          funext v
          rw [leaf, if_neg (by simp)]
        obtain ⟨aligned, low, high⟩ := space.pages mem taken.mem_freelist
        have end₂ : s₂.kernelEnd = s.kernelEnd := grows.kernelEnd.trans taken.kernelEnd
        refine .run_bind (kfree_run aligned (end₂ ▸ low) high) (.pure ⟨.undo space taken grows same,
          ?_, by rintro _ ⟨⟩, fun _ => ?_⟩)
        · have := supply_kfree (s := s₂) mem
          omega
        · have := lacking rfl
          have : (s₁.setPage mem (.filled 0)).supply = s₁.supply := rfl
          omega

/-! ## Copies -/

theorem walkaddr_run (va : ℕ) : (walkaddr root va).run s = .ok (if maxva ≤ va then none else
    (leaf? s.ram root (path va)).bind fun w => if w &&& pteU = 0 then none else nonnull (pte2pa w), s) := by
  unfold walkaddr
  refine Ensures.run_eq (.ite (fun outside => ?_) fun inside => ?_)
  · rw [if_pos outside]
    exact .pure ⟨rfl, rfl⟩
  rw [if_neg inside]
  refine .run_bind (walk_false (not_le.mp inside)) ?_
  cases slot : slot? s.ram root va with
  | none =>
    rw [leaf?_path, slot]
    exact .pure ⟨rfl, rfl⟩
  | some p =>
    rw [load_of_leaf? slot]
    refine load_bind (.ite (fun invalid => ?_) fun valid => ?_)
    · rw [if_neg (not_not.mpr invalid)]
      exact .pure ⟨rfl, rfl⟩
    · rw [if_pos valid, Option.bind_some]
      refine .ite (fun kernel => ?_) fun user => ?_
      · rw [if_pos kernel]
        exact .pure ⟨rfl, rfl⟩
      · rw [if_neg user]
        exact .pure ⟨rfl, rfl⟩

/-- The user may read or write the page that starts at an address, or will get one. -/
def accessible (s : Phys) (proc : Process) (writes : Bool) (va : ℕ) : Bool :=
  decide (va < maxva) && (leaf? s.ram proc.pagetable (path va)).elim (decide (va < proc.sz))
    fun w => w &&& pteU ≠ 0 ∧ (writes → w &&& pteW ≠ 0)

variable {m w : UInt64} {va : ℕ} {access access' : ℕ → Bool} {memory : ℕ → UInt8}

theorem or_and_ne_zero {a b : UInt64} (set : b &&& m ≠ 0) : (a ||| b) &&& m ≠ 0 := by
  intro zero
  apply set
  apply UInt64.toBitVec_inj.mp
  ext i _
  have bit := congrArg (fun x => x.toBitVec.getLsbD i) zero
  simp at bit ⊢
  grind

theorem leafWord_and {pa : ℕ} {perm : UInt64} (set : perm &&& m ≠ 0) : leafWord pa perm &&& m ≠ 0 := by
  rw [leafWord, UInt64.or_assoc, UInt64.or_comm perm]
  exact or_and_ne_zero (or_and_ne_zero set)

theorem touch_mapped (space : Space s root) (inside : va < maxva)
    (found : leaf? s.ram root (path va) = some w) (user : w &&& pteU ≠ 0) :
    (touch proc root va).run s = .ok (some (pte2pa w), s) := by
  have walked : (walkaddr root va).run s = _ := walkaddr_run va
  rw [if_neg (not_le.mpr inside), found, Option.bind_some, if_neg user, nonnull,
    if_neg (space.mapped _ w found).1] at walked
  rw [touch, StateT.run_bind, walked]
  rfl

/-- The address is in a page of the user. -/
def UserPage (s : Phys) (root va : ℕ) : Prop :=
  va < maxva ∧ ∃ w, leaf? s.ram root (path va) = some w ∧ w &&& pteU ≠ 0

theorem UserPage.touch (page : UserPage s root va) (space : Space s root) (proc : Process) :
    ∃ w, (touch proc root (pgrounddown va)).run s = .ok (some (pte2pa w), s) := by
  obtain ⟨inside, w, found, user⟩ := page
  exact ⟨w, touch_mapped space ((pgrounddown_le va).1.trans_lt inside) (by rwa [path_pgrounddown]) user⟩

theorem Faults.accessible (faults : Faults proc.pagetable proc.sz s s') (aligned : va % pgsize = 0)
    (writes : Bool) : accessible s' proc writes va = accessible s proc writes va := by
  unfold Sv39.accessible
  rcases lt_or_ge va maxva with inside | outside
  · cases before : leaf? s.ram proc.pagetable (path va) with
    | some w => rw [faults.leaf _ w before]
    | none =>
      cases after : leaf? s'.ram proc.pagetable (path va) with
      | none => rfl
      | some w =>
        obtain ⟨below, mem, -, rfl, -⟩ := faults.fresh _ w before after
        rw [vaddr_path aligned inside] at below
        have user : lazyWord mem &&& pteU ≠ 0 := leafWord_and (by decide)
        have writable : lazyWord mem &&& pteW ≠ 0 := leafWord_and (by decide)
        simp [user, writable, below]
  · simp [not_lt.mpr outside]

/-- The page that is to be read or written is there, unless the user may not read it or there are not three
pages left. -/
structure Touched (proc : Process) (va : ℕ) (s : Phys) (r : Option ℕ) (s' : Phys) : Prop where
  faults : Faults proc.pagetable proc.sz s s'
  supply : s.supply ≤ s'.supply + 3
  found : ∀ pa, r = some pa → va < maxva ∧ accessible s proc false va = true ∧
    ∃ w, leaf? s'.ram proc.pagetable (path va) = some w ∧ pte2pa w = pa
  failed : r = none → accessible s proc false va = false ∨ s.supply < 3

theorem touch_ensures (space : Space s proc.pagetable) (small : proc.sz ≤ maxva) (va : ℕ) :
    Ensures (touch proc proc.pagetable va) s (Touched proc va s) fails := by
  have fault (denied : ∀ w, leaf? s.ram proc.pagetable (path va) = some w → va < maxva → w &&& pteU = 0) :
      Ensures (vmfault proc proc.pagetable va) s (Touched proc va s) fails := by
    have closed (refused : proc.sz ≤ va ∨ leaf? s.ram proc.pagetable (path va) ≠ none) :
        accessible s proc false va = false := by
      unfold accessible
      cases found : leaf? s.ram proc.pagetable (path va) with
      | none => simp [refused.resolve_right (not_not.mpr found)]
      | some w => simpa using denied w found
    refine (vmfault_ensures space small va).mono ?_
    rintro r s₁ ⟨faults, supply, found, failed⟩
    refine ⟨faults, supply, fun pa some_page => ?_, fun none_page => ?_⟩
    · obtain ⟨below, vacant, mapped, page⟩ := found pa some_page
      have inside : va < maxva := by omega
      exact ⟨inside, by simp [accessible, vacant, below, inside], _, mapped, page⟩
    · rcases failed none_page with above | mapped | lacking
      · exact .inl (closed (.inl above))
      · exact .inl (closed (.inr mapped))
      · exact .inr lacking
  unfold touch
  refine .run_bind (walkaddr_run va) ?_
  rcases lt_or_ge va maxva with inside | outside
  · rw [if_neg (not_le.mpr inside)]
    cases found : leaf? s.ram proc.pagetable (path va) with
    | none => exact fault (by rw [found]; nofun)
    | some w =>
      rw [Option.bind_some]
      by_cases kernel : w &&& pteU = 0
      · rw [if_pos kernel]
        exact fault (by rw [found]; rintro _ ⟨⟩ _; exact kernel)
      · rw [if_neg kernel, nonnull, if_neg (space.mapped _ w found).1]
        refine .pure ⟨.refl space, by omega, ?_, nofun⟩
        rintro _ ⟨⟩
        exact ⟨inside, by simp [accessible, inside, found, kernel], w, found, rfl⟩
  · rw [if_pos outside]
    exact fault fun w _ inside => absurd inside (not_lt.mpr outside)

/-- The pages that the bytes from an address on are in. -/
def spanned (va len : ℕ) : ℕ := (va % pgsize + len + pgsize - 1) / pgsize

theorem spanned_next (va : ℕ) (some_left : len ≠ 0) :
    spanned (pgrounddown va + pgsize) (len - min (pgsize - (va - pgrounddown va)) len) + 1 ≤ spanned va len := by
  unfold spanned pgrounddown pgsize
  omega

theorem view_add {va0 off : ℕ} (aligned : va0 % pgsize = 0) (small : off < pgsize)
    (found : leaf? s.ram root (path va0) = some w) : view s root (va0 + off) = (s.ram (pte2pa w)).byte off := by
  have down : pgrounddown (va0 + off) = va0 := by
    unfold pgrounddown pgsize at *
    omega
  have rest : (va0 + off) % pgsize = off := by
    unfold pgsize at *
    omega
  rw [view, ← path_pgrounddown, down, found, Option.elim_some, rest]

theorem slice_view {srcva : ℕ} (found : leaf? s.ram root (path (pgrounddown srcva)) = some w)
    (fits : n ≤ pgsize - (srcva - pgrounddown srcva)) : (s.ram (pte2pa w)).slice (srcva - pgrounddown srcva) n =
      (range n).map fun i => view s root (srcva + i) := by
  have down := pgrounddown_le srcva
  rw [Page.slice_eq _ (by unfold pgsize at *; omega)]
  refine map_congr_left fun i listed => ?_
  have here : srcva + i = pgrounddown srcva + (srcva - pgrounddown srcva + i) := by omega
  rw [mem_range] at listed
  rw [here, view_add (Vm.pgrounddown_mod srcva) (by omega) found]

/-- The loop of `copyin` over a memory of bytes, some of which are accessible. -/
def readBytes (access : ℕ → Bool) (memory : ℕ → UInt8) (srcva len : ℕ) : ℕ → List UInt8 × Bool
  | 0 => ([], true)
  | rounds + 1 =>
      if len = 0 then ([], true)
      else if access (pgrounddown srcva) then
        let n := min (pgsize - (srcva - pgrounddown srcva)) len
        let rest := readBytes access memory (pgrounddown srcva + pgsize) (len - n) rounds
        ((List.range n).map (fun i => memory (srcva + i)) ++ rest.1, rest.2)
      else ([], false)

theorem readBytes_congr (same : ∀ va, va % pgsize = 0 → access va = access' va) (srcva len rounds : ℕ) :
    readBytes access memory srcva len rounds = readBytes access' memory srcva len rounds := by
  induction rounds generalizing srcva len with
  | zero => rfl
  | succ rounds ih =>
    unfold readBytes
    rw [same _ (Vm.pgrounddown_mod _)]
    simp only [ih]

/-- `copyin` reads what the user sees; given enough pages, it reads as far as the user may. -/
theorem copyinLoop_ensures (rounds : ℕ) (space : Space s proc.pagetable) (small : proc.sz ≤ maxva) (srcva len : ℕ) :
    Ensures (copyinLoop proc proc.pagetable srcva len rounds) s (fun r s' => Faults proc.pagetable proc.sz s s' ∧
      r.1.length ≤ len ∧ (r.2 = true → len ≤ rounds → r.1.length = len) ∧
      r.1 = (range r.1.length).map (fun i => view s proc.pagetable (srcva + i)) ∧
      ((∀ i < len, UserPage s proc.pagetable (srcva + i)) → r.2 = true ∧ s' = s) ∧
      (3 * spanned srcva len ≤ s.supply →
        r = readBytes (accessible s proc false) (view s proc.pagetable) srcva len rounds)) fails := by
  induction rounds generalizing s srcva len with
  | zero =>
    exact .pure ⟨.refl space, Nat.zero_le _, fun _ none_left => (Nat.le_zero.mp none_left).symm, rfl,
      fun _ => ⟨rfl, rfl⟩, fun _ => rfl⟩
  | succ rounds ih =>
    unfold copyinLoop readBytes
    refine .ite (fun zero => .pure ⟨.refl space, Nat.zero_le _, fun _ _ => zero.symm, rfl, fun _ => ⟨rfl, rfl⟩,
      fun _ => by rw [if_pos zero]⟩)
      fun some_left => ?_
    rw [if_neg some_left]
    have next := spanned_next srcva some_left
    obtain ⟨r, s₁, ran, touched⟩ := (touch_ensures space small (pgrounddown srcva)).exists_run
    have still (mapped : ∀ i < len, UserPage s proc.pagetable (srcva + i)) : r ≠ none ∧ s₁ = s := by
      obtain ⟨w, ran'⟩ := (mapped 0 (by omega)).touch space proc
      cases ran.symm.trans ran'
      exact ⟨Option.some_ne_none _, rfl⟩
    refine .run_bind ran ?_
    rcases r with _ | pa
    · refine .pure ⟨touched.faults, Nat.zero_le _, nofun, rfl, fun mapped => absurd rfl (still mapped).1,
        fun enough => ?_⟩
      rcases touched.failed rfl with refused | lacking
      · rw [if_neg (by simp [refused])]
      · omega
    · obtain ⟨inside, access, w, mapped, rfl⟩ := touched.found _ rfl
      refine .get_bind ?_
      refine (ih touched.faults.space _ _).bind ?_
      rintro ⟨rest, done⟩ s₂ ⟨faults, shorter, whole, bytes, still₁, exact_bytes⟩
      have same : view s₁ proc.pagetable = view s proc.pagetable := funext (touched.faults.view space)
      have down := pgrounddown_le srcva
      rw [slice_view mapped (Nat.min_le_left _ _), same]
      have le : min (pgsize - (srcva - pgrounddown srcva)) len ≤ len := Nat.min_le_right _ _
      have positive : 0 < min (pgsize - (srcva - pgrounddown srcva)) len := by omega
      have full : min (pgsize - (srcva - pgrounddown srcva)) len = len ∨
          srcva + min (pgsize - (srcva - pgrounddown srcva)) len = pgrounddown srcva + pgsize := by omega
      generalize min (pgsize - (srcva - pgrounddown srcva)) len = n at *
      refine .pure ⟨touched.faults.trans space faults, ?_, fun finished bound => ?_, ?_, fun mapped => ?_,
        fun enough => ?_⟩
      · simp only [length_append, length_map, length_range] at shorter ⊢
        omega
      · have := whole finished (by omega)
        simp only [length_append, length_map, length_range] at this ⊢
        omega
      · have tail : rest = (range rest.length).map fun i => view s proc.pagetable (srcva + (n + i)) := by
          rcases full with last | boundary
          · have empty : rest = [] := by simpa [last] using shorter
            rw [empty]
            rfl
          · rw [same, ← boundary] at bytes
            simpa only [Nat.add_assoc] using bytes
        simp only [length_append, length_map, length_range, range_add, map_append, map_map]
        congr 1
      · obtain ⟨-, rfl⟩ := still mapped
        refine still₁ fun i low => ?_
        rw [show pgrounddown srcva + pgsize + i = srcva + (n + i) by omega]
        exact mapped (n + i) (by omega)
      · have rest_eq := exact_bytes (by have := touched.supply; omega)
        rw [same, readBytes_congr fun va aligned => touched.faults.accessible aligned false] at rest_eq
        rw [if_pos access]
        dsimp only
        rw [← rest_eq]

/-- Where the pages are mapped, `copyin` reads all bytes and allocates nothing. -/
theorem copyin_mapped {srcva : ℕ} (space : Space s proc.pagetable) (small : proc.sz ≤ maxva)
    (mapped : ∀ i < len, UserPage s proc.pagetable (srcva + i)) : (copyin proc proc.pagetable srcva len).run s =
      .ok (((range len).map fun i => view s proc.pagetable (srcva + i), true), s) := by
  refine Ensures.run_eq ((copyinLoop_ensures len space small srcva len).mono ?_)
  rintro r s' ⟨-, -, whole, bytes, still, -⟩
  obtain ⟨done, same⟩ := still mapped
  rw [whole done le_rfl] at bytes
  exact ⟨Prod.ext bytes done, same⟩

/-- The loop of `copyout` over a memory of bytes, some of which may be written. -/
def writeBytes (access : ℕ → Bool) (memory : ℕ → UInt8) (dstva : ℕ) (src : List UInt8) : ℕ → (ℕ → UInt8) × Bool
  | 0 => (memory, true)
  | rounds + 1 =>
      if src.length = 0 then (memory, true)
      else if access (pgrounddown dstva) then
        let n := min (pgsize - (dstva - pgrounddown dstva)) src.length
        writeBytes access (fun va => if dstva ≤ va ∧ va < dstva + n then src.getD (va - dstva) 0 else memory va)
          (pgrounddown dstva + pgsize) (src.drop n) rounds
      else (memory, false)

theorem writeBytes_congr {memory' : ℕ → UInt8}
    (same : ∀ va, va % pgsize = 0 → access va = access' va) (bytes : ∀ va < maxva, memory va = memory' va)
    (dstva : ℕ) (src : List UInt8) (rounds : ℕ) :
    (writeBytes access memory dstva src rounds).2 = (writeBytes access' memory' dstva src rounds).2 ∧
      ∀ va < maxva, (writeBytes access memory dstva src rounds).1 va =
      (writeBytes access' memory' dstva src rounds).1 va := by
  induction rounds generalizing memory memory' dstva src with
  | zero => exact ⟨rfl, bytes⟩
  | succ rounds ih =>
    unfold writeBytes
    rw [same _ (Vm.pgrounddown_mod _)]
    split_ifs
    · exact ⟨rfl, bytes⟩
    · exact ih (fun va below => by rw [bytes va below]) _ _
    · exact ⟨rfl, bytes⟩

end Process

/-- What a process can do to memory by `copyout`: pages are allocated, and pages of the user are written. -/
structure Acts (root sz : ℕ) (s s' : Phys) : Prop where
  space : Space s' root
  subset : ∀ a ∈ s'.freelist, a ∈ s.freelist
  tables : ∀ a, InTable s'.ram root a → InTable s.ram root a ∨ a ∈ s.freelist
  leaf : ∀ v w, leaf? s.ram root v = some w → leaf? s'.ram root v = some w
  fresh : ∀ v w, leaf? s.ram root v = none → leaf? s'.ram root v = some w → vaddr v < sz ∧ ∃ mem ∈ s.freelist,
    w = lazyWord mem
  frame : ∀ a, ¬ InTable s.ram root a → a ∉ s.freelist →
    (∀ v w, leaf? s.ram root v = some w → w &&& pteU ≠ 0 → pte2pa w ≠ a) → s'.ram a = s.ram a
  kernelEnd : s'.kernelEnd = s.kernelEnd

theorem Faults.acts (faults : Faults root sz s s') : Acts root sz s s' where
  space := faults.space
  subset := faults.subset
  tables := faults.tables
  leaf := faults.leaf
  fresh v w vacant found := by
    obtain ⟨below, mem, listed, word, -⟩ := faults.fresh v w vacant found
    exact ⟨below, mem, listed, word⟩
  frame a outside used _ := faults.frame a outside used
  kernelEnd := faults.kernelEnd

theorem Acts.trans (space : Space s root) (first : Acts root sz s s') (second : Acts root sz s' s'') :
    Acts root sz s s'' where
  space := second.space
  subset a listed := first.subset a (second.subset a listed)
  tables a inside := by
    rcases second.tables a inside with old | free
    · exact first.tables a old
    · exact .inr (first.subset a free)
  leaf v w found := second.leaf v w (first.leaf v w found)
  fresh v w vacant found := by
    cases between : leaf? s'.ram root v with
    | none =>
      obtain ⟨below, mem, listed, word⟩ := second.fresh v w between found
      exact ⟨below, mem, first.subset mem listed, word⟩
    | some w' =>
      cases (second.leaf v w' between).symm.trans found
      exact first.fresh v w vacant between
  frame a outside used unmapped := by
    rw [second.frame a, first.frame a outside used unmapped]
    · exact fun inside => (first.tables a inside).elim outside used
    · exact fun listed => used (first.subset a listed)
    · intro v w found user
      cases before : leaf? s.ram root v with
      | some w' =>
        cases (first.leaf v w' before).symm.trans found
        exact unmapped v w before user
      | none =>
        obtain ⟨-, mem, listed, rfl⟩ := first.fresh v w before found
        rw [space.toFree.lazyWord_page listed]
        rintro rfl
        exact used listed
  kernelEnd := second.kernelEnd.trans first.kernelEnd

/-- Pages of the user have been written. -/
structure Fills (root : ℕ) (s s' : Phys) : Prop where
  freelist : s'.freelist = s.freelist
  refusals : s'.refusals = s.refusals
  kernelEnd : s'.kernelEnd = s.kernelEnd
  frame : ∀ a, (∀ v w, leaf? s.ram root v = some w → w &&& pteU ≠ 0 → pte2pa w ≠ a) → s'.ram a = s.ram a

namespace Fills

theorem refl : Fills root s s := ⟨rfl, rfl, rfl, fun _ _ => rfl⟩

theorem tables (space : Space s root) (fills : Fills root s s') (a : ℕ) (inside : InTable s.ram root a) :
    s'.ram a = s.ram a := by
  refine fills.frame a fun v w found _ same => ?_
  exact (space.mapped v w found).2.2 (same.symm ▸ inside)

theorem leaf (space : Space s root) (fills : Fills root s s') : leaf? s'.ram root = leaf? s.ram root :=
  leaf?_same (fills.tables space)

theorem supply (fills : Fills root s s') : s'.supply = s.supply := by
  rw [Phys.supply, Phys.supply, fills.refusals, fills.freelist]

theorem trans (space : Space s root) (first : Fills root s s') (second : Fills root s' s'') : Fills root s s'' where
  freelist := second.freelist.trans first.freelist
  refusals := second.refusals.trans first.refusals
  kernelEnd := second.kernelEnd.trans first.kernelEnd
  frame a unmapped := by rw [second.frame a (by rw [first.leaf space]; exact unmapped), first.frame a unmapped]

theorem page (found : leaf? s.ram root v = some w) (user : w &&& pteU ≠ 0) (page : Page) :
    Fills root s (s.setPage (pte2pa w) page) where
  freelist := rfl
  refusals := rfl
  kernelEnd := rfl
  frame _ unmapped := Phys.setPage_of_ne (unmapped v w found user).symm

theorem space (space : Space s root) (fills : Fills root s s') : Space s' root := by
  have same := fills.tables space
  refine ⟨space.toWellFormed.of_same ⟨fills.freelist ▸ space.nodup, ?_⟩ same ?_, fills.kernelEnd.symm ▸ space.kernel,
    fun v w found => ?_, ?_⟩
  · rw [fills.freelist, fills.kernelEnd]
    exact space.pages
  · rw [fills.freelist]
    exact space.apart
  · rw [fills.leaf space] at found
    rw [fills.freelist, inTable_same same]
    exact space.mapped v w found
  · rw [fills.leaf space]
    exact space.distinct

theorem acts (space : Space s root) (fills : Fills root s s') : Acts root sz s s' where
  space := fills.space space
  subset _ := by rw [fills.freelist]; exact id
  tables _ inside := .inl ((inTable_same (fills.tables space)).mp inside)
  leaf := by rw [fills.leaf space]; exact fun _ _ => id
  fresh v w vacant found := by cases vacant.symm.trans (fills.leaf space ▸ found)
  frame a _ _ unmapped := fills.frame a unmapped
  kernelEnd := fills.kernelEnd

end Fills

theorem leaf?_valid (found : leaf? s.ram root v = some w) :
    w &&& pteV ≠ 0 := by
  obtain ⟨low, -, entry⟩ := Option.bind_eq_some_iff.mp found
  rw [pte?] at entry
  split_ifs at entry with valid
  exact Option.some.inj entry ▸ valid

theorem slot_of_leaf? (found : leaf? s.ram root (path va) = some w) :
    ∃ p, slot? s.ram root va = some p ∧ s.load p = w := by
  cases slot : slot? s.ram root va with
  | none =>
    rw [leaf?_path, slot] at found
    cases found
  | some p =>
    rw [load_of_leaf? slot] at found
    split_ifs at found
    exact ⟨p, rfl, Option.some.inj found⟩

/-- The user sees the bytes that a round of `copyout` writes to a page, and no other change. -/
theorem view_write (space : Space s root) (inside : pgrounddown dstva < maxva)
    (found : leaf? s.ram root (path (pgrounddown dstva)) = some w) (user : w &&& pteU ≠ 0)
    (round : min (pgsize - (dstva - pgrounddown dstva)) src.length = n) (below : va < maxva) :
    view (s.setPage (pte2pa w) ((s.ram (pte2pa w)).write (dstva - pgrounddown dstva) (src.take n))) root va =
      if dstva ≤ va ∧ va < dstva + n then src.getD (va - dstva) 0 else view s root va := by
  have aligned := Vm.pgrounddown_mod dstva
  have down := pgrounddown_le dstva
  have page : vaddr (path va) = va / pgsize * pgsize := by
    rw [← path_pgrounddown, vaddr_path (Vm.pgrounddown_mod va) ((Nat.div_mul_le_self _ _).trans_lt below)]
    rfl
  have small : va % pgsize < 4096 := Nat.mod_lt _ (by decide)
  have size : (src.take n).length = n := by
    rw [length_take]
    omega
  unfold view
  rw [(Fills.page found user _).leaf space]
  by_cases here : path va = path (pgrounddown dstva)
  · -- an address in the page that is written
    have start : va / pgsize * pgsize = pgrounddown dstva := by rw [← page, here, vaddr_path aligned inside]
    have split := Nat.div_add_mod va pgsize
    rw [here, found, Option.elim_some, Option.elim_some, Phys.setPage_self, Page.byte_write _ _ _ small, size]
    unfold pgsize at *
    refine if_ctx_congr (by omega) (fun within => ?_) fun _ => rfl
    rw [getD_eq_getElem?_getD, getD_eq_getElem?_getD, getElem?_take_of_lt (by omega),
      show va % 4096 - (dstva - pgrounddown dstva) = va - dstva by omega]
  · have outside : ¬ (dstva ≤ va ∧ va < dstva + n) := by
      intro within
      refine here ((eq_path_iff aligned inside).mpr ?_)
      rw [page]
      unfold pgsize at *
      omega
    rw [if_neg outside]
    cases other : leaf? s.ram root (path va) with
    | none => rw [Option.elim_none, Option.elim_none]
    | some w' =>
      have apart : pte2pa w' ≠ pte2pa w := fun same => here (space.distinct _ _ w' w other found same)
      rw [Option.elim_some, Option.elim_some, Phys.setPage_of_ne apart]

theorem accessible_eq (inside : va < maxva) (found : leaf? s.ram proc.pagetable (path va) = some w) (writes : Bool) :
    accessible s proc writes va = decide (w &&& pteU ≠ 0 ∧ (writes → w &&& pteW ≠ 0)) := by
  simp [accessible, inside, found]

theorem accessible_of_write (denied : accessible s proc false va = false) :
    accessible s proc true va = false := by
  unfold accessible at *
  cases found : leaf? s.ram proc.pagetable (path va) with
  | none => simpa [found] using denied
  | some w =>
    simp only [found, Option.elim_some, Bool.and_eq_false_iff, decide_eq_false_iff_not] at denied ⊢
    exact denied.imp_right fun refused allowed => refused ⟨allowed.1, nofun⟩

/-- What `copyout` has done when it returns, however many pages there are: the first `k` bytes are stored, in pages that
the user may write. A failure comes at the start of a page. -/
structure Stored (proc : Process) (dstva : ℕ) (src : List UInt8) (rounds : ℕ) (s : Phys) (done : Bool)
    (s' : Phys) (k : ℕ) :
    Prop where
  within : k ≤ src.length
  finished : done = true → src.length ≤ rounds → k = src.length
  stopped : done = false → k < src.length ∧ (k = 0 ∨ (dstva + k) % pgsize = 0)
  allowed : ∀ i < k, accessible s proc true (pgrounddown (dstva + i)) = true
  present : ∀ i < k, dstva + i < maxva ∧
    ∃ w, leaf? s'.ram proc.pagetable (path (dstva + i)) = some w ∧ w &&& pteU ≠ 0 ∧ w &&& pteW ≠ 0
  seen : ∀ va < maxva, view s' proc.pagetable va =
    if dstva ≤ va ∧ va < dstva + k then src.getD (va - dstva) 0 else view s proc.pagetable va

theorem Stored.nothing
    (same : ∀ va, view s' proc.pagetable va = view s proc.pagetable va) (ended : done = true → src.length ≤ rounds →
      src.length = 0)
    (stopped : done = false → 0 < src.length) : Stored proc dstva src rounds s done s' 0 where
  within := Nat.zero_le _
  finished all enough := (ended all enough).symm
  stopped failed := ⟨stopped failed, .inl rfl⟩
  allowed i low := absurd low (Nat.not_lt_zero i)
  present i low := absurd low (Nat.not_lt_zero i)
  seen va _ := by rw [if_neg (by omega), same]

/-- Two parts that are stored one after the other. -/
theorem getD_store {k next : ℕ} (joined : k = 0 ∨ dstva + n = next) (byte : UInt8) :
    (if next ≤ va ∧ va < next + k then (src.drop n).getD (va - next) 0
      else if dstva ≤ va ∧ va < dstva + n then src.getD (va - dstva) 0 else byte) =
      if dstva ≤ va ∧ va < dstva + (n + k) then src.getD (va - dstva) 0 else byte := by
  rcases joined with rfl | rfl
  · rw [if_neg (by omega), Nat.add_zero]
  · by_cases second : dstva + n ≤ va ∧ va < dstva + n + k
    · rw [if_pos second, if_pos (by omega), getD_eq_getElem?_getD, getD_eq_getElem?_getD, getElem?_drop,
        show n + (va - (dstva + n)) = va - dstva by omega]
    · rw [if_neg second]
      exact if_congr (by omega) rfl rfl

theorem Stored.page {n k : ℕ} (round : n = min (pgsize - (dstva - pgrounddown dstva)) src.length)
    (below : pgrounddown dstva < maxva) (acts : Acts proc.pagetable proc.sz s' s'')
    (writable : accessible s proc true (pgrounddown dstva) = true)
    (mapped : leaf? s'.ram proc.pagetable (path (pgrounddown dstva)) = some w) (user : w &&& pteU ≠ 0)
    (writes : w &&& pteW ≠ 0)
    (access : ∀ va, va % pgsize = 0 → accessible s' proc true va = accessible s proc true va)
    (bytes : ∀ va < maxva, view s' proc.pagetable va =
      if dstva ≤ va ∧ va < dstva + n then src.getD (va - dstva) 0 else view s proc.pagetable va)
    (rest : Stored proc (pgrounddown dstva + pgsize) (src.drop n) rounds s' done s'' k) :
    Stored proc dstva src (rounds + 1) s done s'' (n + k) := by
  have down := pgrounddown_le dstva
  have within := rest.within
  rw [length_drop] at within
  -- the rest is empty, or it starts where this page ends
  have full : n = src.length ∧ k = 0 ∨ dstva + n = pgrounddown dstva + pgsize := by omega
  have same (i : ℕ) (small : i < n) : pgrounddown (dstva + i) = pgrounddown dstva := by
    unfold pgrounddown pgsize at *
    omega
  have later {i : ℕ} (high : n ≤ i) (small : i < n + k) : dstva + i = pgrounddown dstva + pgsize + (i - n) := by omega
  refine ⟨by omega, fun all enough => ?_, fun failed => ?_, fun i small => ?_, fun i small => ?_, fun va inside => ?_⟩
  · have := rest.finished all (by rw [length_drop]; omega)
    rw [length_drop] at this
    omega
  · obtain ⟨short, boundary⟩ := rest.stopped failed
    rw [length_drop] at short
    have aligned := Vm.pgrounddown_mod dstva
    refine ⟨by omega, .inr ?_⟩
    rcases full with ⟨last, -⟩ | last
    · omega
    · rw [← Nat.add_assoc, last]
      rcases boundary with rfl | boundary
      · unfold pgsize at *
        omega
      · exact boundary
  · by_cases here : i < n
    · rw [same i here]
      exact writable
    · rw [later (by omega) small, ← access _ (Vm.pgrounddown_mod _)]
      exact rest.allowed _ (by omega)
  · by_cases here : i < n
    · rw [← path_pgrounddown (dstva + i), same i here]
      refine ⟨?_, w, acts.leaf _ w mapped, user, writes⟩
      have top : maxva % pgsize = 0 := by decide
      have aligned := Vm.pgrounddown_mod dstva
      unfold pgsize at *
      omega
    · rw [later (by omega) small]
      exact rest.present _ (by omega)
  · rw [rest.seen va inside, bytes va inside]
    exact getD_store (by omega) _

/-- `copyout` writes what the user sees; given enough pages, it writes as far as the user may. -/
theorem copyoutLoop_ensures (rounds : ℕ) (space : Space s proc.pagetable) (small : proc.sz ≤ maxva) (dstva : ℕ)
    (src : List UInt8) : Ensures (copyoutLoop proc proc.pagetable dstva src rounds) s
    (fun done s' => Acts proc.pagetable proc.sz s s' ∧ (∃ k, Stored proc dstva src rounds s done s' k) ∧
      (3 * spanned dstva src.length ≤ s.supply →
      done = (writeBytes (accessible s proc true) (view s proc.pagetable) dstva src rounds).2 ∧ ∀ va < maxva,
        view s' proc.pagetable va =
        (writeBytes (accessible s proc true) (view s proc.pagetable) dstva src rounds).1 va))
    fails := by
  induction rounds generalizing s dstva src with
  | zero =>
    exact .pure ⟨(Faults.refl space).acts, ⟨0, .nothing (fun _ => rfl) (fun _ => Nat.le_zero.mp) (by rintro ⟨⟩)⟩,
      fun _ => ⟨rfl, fun _ _ => rfl⟩⟩
  | succ rounds ih =>
    unfold copyoutLoop writeBytes
    refine .ite (fun zero => .pure ⟨(Faults.refl space).acts,
      ⟨0, .nothing (fun _ => rfl) (fun _ _ => zero) (by rintro ⟨⟩)⟩, fun _ => by simp [zero]⟩) fun some_left => ?_
    have more := Nat.pos_of_ne_zero some_left
    rw [if_neg some_left]
    have next := spanned_next dstva some_left
    have aligned := Vm.pgrounddown_mod dstva
    refine .ite (fun outside => ?_) fun inside => ?_
    · have denied : accessible s proc true (pgrounddown dstva) = false := by simp [accessible, not_lt.mpr outside]
      exact .pure ⟨(Faults.refl space).acts, ⟨0, .nothing (fun _ => rfl) (by rintro ⟨⟩) fun _ => more⟩,
        fun _ => by simp [denied]⟩
    refine (touch_ensures space small _).bind ?_
    rintro (_ | pa) s₁ touched
    · refine .pure ⟨touched.faults.acts, ⟨0, .nothing (touched.faults.view space) (by rintro ⟨⟩) fun _ => more⟩,
        fun enough => ?_⟩
      have denied := accessible_of_write ((touched.failed rfl).resolve_right (by omega))
      rw [if_neg (by simp [denied])]
      exact ⟨rfl, fun va _ => touched.faults.view space va⟩
    · obtain ⟨below, access, w, mapped, rfl⟩ := touched.found _ rfl
      obtain ⟨p, slot, loaded⟩ := slot_of_leaf? mapped
      refine .run_bind (walk_false below) ?_
      rw [slot]
      refine load_bind ?_
      rw [loaded]
      have user : w &&& pteU ≠ 0 := by
        rw [← touched.faults.accessible aligned, accessible_eq below mapped] at access
        simpa using access
      have writable : accessible s proc true (pgrounddown dstva) = decide (w &&& pteW ≠ 0) := by
        rw [← touched.faults.accessible aligned, accessible_eq below mapped]
        simp [user]
      refine .ite (fun read_only => ?_) fun writes => ?_
      · refine .pure ⟨touched.faults.acts, ⟨0, .nothing (touched.faults.view space) (by rintro ⟨⟩) fun _ => more⟩,
          fun _ => ?_⟩
        rw [if_neg (by simp [writable, read_only])]
        exact ⟨rfl, fun va _ => touched.faults.view space va⟩
      · rw [if_pos (by simp [writable, writes])]
        dsimp only
        generalize round : min (pgsize - (dstva - pgrounddown dstva)) src.length = n at *
        refine .modify_bind ?_
        have fills : Fills proc.pagetable s₁ (s₁.setPage (pte2pa w)
            ((s₁.ram (pte2pa w)).write (dstva - pgrounddown dstva) (src.take n))) := .page mapped user _
        have seen (va : ℕ) (inside : va < maxva) := view_write touched.faults.space below mapped user round inside
        generalize s₁.setPage (pte2pa w) ((s₁.ram (pte2pa w)).write (dstva - pgrounddown dstva) (src.take n)) = s₂ at *
        have leaf := fills.leaf touched.faults.space
        have acts : Acts proc.pagetable proc.sz s₁ s₂ := fills.acts touched.faults.space
        refine (ih acts.space _ _).mono ?_
        rintro done s₃ ⟨acts₁, ⟨k, rest⟩, exact_bytes⟩
        have access' (va : ℕ) (start : va % pgsize = 0) : accessible s₂ proc true va = accessible s proc true va := by
          rw [← touched.faults.accessible start, accessible, leaf]
          rfl
        have bytes (va : ℕ) (inside : va < maxva) : view s₂ proc.pagetable va =
            if dstva ≤ va ∧ va < dstva + n then src.getD (va - dstva) 0 else view s proc.pagetable va := by
          rw [seen va inside, touched.faults.view space]
        have found : leaf? s₂.ram proc.pagetable (path (pgrounddown dstva)) = some w := by rw [leaf, mapped]
        refine ⟨(touched.faults.acts.trans space acts).trans space acts₁, ⟨n + k, .page round.symm below acts₁
          (by simp [writable, writes]) found user writes access' bytes rest⟩, fun enough => ?_⟩
        obtain ⟨same_done, same_view⟩ := exact_bytes (by rw [length_drop, fills.supply]; have := touched.supply; omega)
        obtain ⟨first, second⟩ := writeBytes_congr access' bytes (pgrounddown dstva + pgsize) (src.drop n) rounds
        exact ⟨same_done.trans first, fun va inside => (same_view va inside).trans (second va inside)⟩

end Xv6.Sv39
