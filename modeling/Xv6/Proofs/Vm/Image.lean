import Mathlib.Data.Finset.Card
import Xv6.Proofs.Vm.Freewalk

/-! # The image that `kexec` builds

While `kexec` works, the pages that were free when it began are still free, or they make up the new image: its
table and its user pages, which fill the addresses from 0 up to a size. Nothing else has changed.
-/

namespace Xv6.Sv39

open Machine
open Vm (pgsize maxva pgroundup path vaddr Within Kept)

variable {base s s' s'' : Phys} {root sz : ℕ} {fails : Panic → Prop}

/-- An image of the given size, made of pages that were free in the state `base`. -/
structure Image (base : Phys) (root sz : ℕ) (s : Phys) : Prop extends Space s root where
  origin : Free base
  pointers : Pointers s.ram root
  sameEnd : s.kernelEnd = base.kernelEnd
  conserved : ∀ a, a ∈ base.freelist ↔ a ∈ s.freelist ∨ Holds s.ram root a
  unchanged : ∀ a ∉ base.freelist, s.ram a = base.ram a
  below : ∀ v w, ¬ Kept v → leaf? s.ram root v = some w → vaddr v < pgroundup sz
  full : ∀ v, ¬ Kept v → vaddr v < pgroundup sz → leaf? s.ram root v ≠ none
  kernelOnly : ∀ v w, Kept v → leaf? s.ram root v = some w → w &&& pteU = 0

namespace Image

variable {v : Fin 512 × Fin 512 × Fin 512} {sz' mem : ℕ} {word : UInt64} (image : Image base root sz s)

include image

theorem of_page {w : UInt64} (user : ¬ Kept v) (found : leaf? s.ram root v = some w) : pte2pa w ∈ base.freelist :=
  (image.conserved _).mpr (.inr (.inr ⟨v, w, user, found, rfl⟩))

theorem small : pgroundup sz ≤ phystop := by
  have mapped (k : ℕ) (low : k < pgroundup sz / pgsize) (inside : k < Vm.trapframe / pgsize) :
      ∃ w, leaf? s.ram root (path (k * pgsize)) = some w ∧ pte2pa w % pgsize = 0 ∧ pte2pa w < phystop := by
    have user : ¬ Kept (path (k * pgsize)) := Vm.not_kept_of_lt (by
      have : Vm.trapframe = Vm.trapframe / pgsize * pgsize := rfl
      unfold pgsize at *
      omega)
    have start : vaddr (path (k * pgsize)) = k * pgsize := Vm.vaddr_path (Nat.mul_mod_left _ _) (by
      have : maxva = Vm.trapframe / pgsize * pgsize + 2 * pgsize := rfl
      unfold pgsize at *
      omega)
    have below : vaddr (path (k * pgsize)) < pgroundup sz := by
      rw [start]
      unfold pgsize at *
      omega
    obtain ⟨w, found⟩ := Option.ne_none_iff_exists'.mp (image.full _ user below)
    obtain ⟨aligned, -, high⟩ := image.origin.pages _ (image.of_page user found)
    exact ⟨w, found, aligned, high⟩
  have count : (Finset.range (min (pgroundup sz / pgsize) (Vm.trapframe / pgsize))).card ≤
      (Finset.range (phystop / pgsize)).card := by
    refine Finset.card_le_card_of_injOn
      (fun k => (leaf? s.ram root (path (k * pgsize))).elim 0 fun w => pte2pa w / pgsize) (fun k listed => ?_) ?_
    · obtain ⟨low, inside⟩ := lt_min_iff.mp (Finset.mem_range.mp (Finset.mem_coe.mp listed))
      obtain ⟨w, found, -, high⟩ := mapped k low inside
      simp only [Finset.coe_range, Set.mem_Iio, found, Option.elim_some]
      have : phystop = phystop / pgsize * pgsize := rfl
      unfold pgsize at *
      omega
    · intro k listed k' listed' same
      obtain ⟨low, inside⟩ := lt_min_iff.mp (Finset.mem_range.mp (Finset.mem_coe.mp listed))
      obtain ⟨low', inside'⟩ := lt_min_iff.mp (Finset.mem_range.mp (Finset.mem_coe.mp listed'))
      obtain ⟨w, found, aligned, -⟩ := mapped k low inside
      obtain ⟨w', found', aligned', -⟩ := mapped k' low' inside'
      dsimp only at same
      rw [found, found', Option.elim_some, Option.elim_some] at same
      have paths := image.distinct _ _ w w' found found' (by
        unfold pgsize at *
        omega)
      have top : maxva = Vm.trapframe / pgsize * pgsize + 2 * pgsize := rfl
      have first := Vm.vaddr_path (Nat.mul_mod_left k pgsize) (by unfold pgsize at *; omega)
      have second := Vm.vaddr_path (Nat.mul_mod_left k' pgsize) (by unfold pgsize at *; omega)
      rw [paths, second] at first
      unfold pgsize at first
      omega
  rw [Finset.card_range, Finset.card_range] at count
  have numbers : phystop / pgsize = 557056 ∧ Vm.trapframe / pgsize = 67108862 ∧ phystop = 557056 * pgsize := by decide
  have whole := Vm.pgroundup_mod sz
  unfold pgsize at *
  omega

theorem below_trapframe : pgroundup sz < Vm.trapframe := image.small.trans_lt (by decide)

theorem not_kept (low : vaddr v < pgroundup sz) : ¬ Kept v :=
  fun kept => absurd (Vm.trapframe_le_of_kept kept) (by have := image.below_trapframe; omega)

theorem resident : Resident s root sz where
  toSpace := image.toSpace
  pointers := image.pointers
  managed a held := by
    rw [image.sameEnd]
    exact image.origin.pages a ((image.conserved a).mpr (.inr held))
  below := image.below
  bound := image.below_trapframe.le

theorem restored (frees : Frees (Holds s.ram root) s s') : Frees (fun _ => False) base s' where
  free := frees.free
  kernelEnd := frees.kernelEnd.trans image.sameEnd
  listed a := by rw [frees.listed, ← image.conserved, or_false]
  frame a used := by
    rw [frees.frame a used, image.unchanged a]
    rw [image.conserved, ← frees.listed]
    exact used

theorem resize (same : pgroundup sz' = pgroundup sz) : Image base root sz' s where
  __ := image
  below := by rw [same]; exact image.below
  full := by rw [same]; exact image.full

theorem adds (adds : Adds root s s') (pointers : Pointers s'.ram root)
    (spent : ∀ a ∈ s.freelist, a ∈ s'.freelist ∨ Holds s'.ram root a) (tables : ∀ a, InTable s.ram root a →
      InTable s'.ram root a)
    (leaf : ∀ v w, leaf? s.ram root v = some w → leaf? s'.ram root v = some w)
    (leaves : ∀ v w, leaf? s'.ram root v = some w →
      leaf? s.ram root v = some w ∨ ¬ Kept v ∧ pte2pa w ∈ s.freelist ∧ vaddr v < pgroundup sz')
    (le : pgroundup sz ≤ pgroundup sz') (full : ∀ v, ¬ Kept v → vaddr v < pgroundup sz' → leaf? s'.ram root v ≠ none) :
    Image base root sz' s' where
  toSpace := adds.space
  origin := image.origin
  pointers := pointers
  sameEnd := adds.kernelEnd.trans image.sameEnd
  conserved a := by
    rw [image.conserved]
    refine ⟨?_, ?_⟩
    · rintro (listed | inside | ⟨v, w, user, found, page⟩)
      · exact spent a listed
      · exact .inr (.inl (tables a inside))
      · exact .inr (.inr ⟨v, w, user, leaf v w found, page⟩)
    · rintro (listed | inside | ⟨v, w, user, found, rfl⟩)
      · exact .inl (adds.subset a listed)
      · exact (adds.tables a inside).symm.imp_right .inl
      · rcases leaves v w found with old | ⟨-, listed, -⟩
        · exact .inr (.inr ⟨v, w, user, old, rfl⟩)
        · exact .inl listed
  unchanged a other := by
    rw [adds.frame a, image.unchanged a other]
    · exact fun inside => other ((image.conserved a).mpr (.inr (.inl inside)))
    · exact fun listed => other ((image.conserved a).mpr (.inl listed))
  below v w user found := by
    rcases leaves v w found with old | ⟨-, -, low⟩
    · exact (image.below v w user old).trans_le le
    · exact low
  full := full
  kernelOnly v w kept found := by
    rcases leaves v w found with old | ⟨user, -⟩
    · exact image.kernelOnly v w kept old
    · exact absurd kept user

theorem of_same (ram : s'.ram = s.ram) (free : s'.freelist = s.freelist)
    (kernelEnd : s'.kernelEnd = s.kernelEnd) : Image base root sz s' := by
  refine image.adds (.of_same image.toSpace ram free kernelEnd) (ram ▸ image.pointers) ?_ ?_ ?_ ?_ le_rfl ?_
  · exact fun a listed => .inl (free ▸ listed)
  · rw [ram]
    exact fun _ => id
  · rw [ram]
    exact fun _ _ => id
  · rw [ram]
    exact fun _ _ => .inl
  · rw [ram]
    exact image.full

theorem map (taken : Taken mem s s') (grows : Grows root s' s'') (page : pte2pa word = mem)
    (leaf : ∀ v, leaf? s''.ram root v = if v = path (pgroundup sz) then some word else leaf? s.ram root v) :
    Image base root (pgroundup sz + pgsize) s'' := by
  have top := image.below_trapframe
  have inside : pgroundup sz < maxva := top.trans (by decide)
  have aligned := Vm.pgroundup_mod sz
  have user : ¬ Kept (path (pgroundup sz)) := Vm.not_kept_of_lt top
  have start : vaddr (path (pgroundup sz)) = pgroundup sz := Vm.vaddr_path aligned inside
  have grown : pgroundup (pgroundup sz + pgsize) = pgroundup sz + pgsize :=
    Vm.pgroundup_of_mod (by rw [Nat.add_mod_right, aligned])
  have vacant : leaf? s.ram root (path (pgroundup sz)) = none := by
    cases found : leaf? s.ram root (path (pgroundup sz)) with
    | none => rfl
    | some w => exact absurd (image.below _ w user found) (by rw [start]; exact lt_irrefl _)
  have mapped : leaf? s''.ram root (path (pgroundup sz)) = some word := by rw [leaf, if_pos rfl]
  have same := taken.same image.toWellFormed
  obtain ⟨adds, -⟩ := Adds.map image.toSpace taken grows page leaf
  refine image.adds adds ?_ (fun a listed => ?_) (fun a at_a => grows.kept a ((inTable_same same).mpr at_a))
    (fun v w found => ?_)
    (fun v w found => ?_) (by rw [grown]; exact Nat.le_add_right _ _) fun v free low => ?_
  · exact grows.pointers (image.pointers.of_same (fun p short => node?_same same (by omega))
      fun p a short at_p => same a ⟨p, by omega, at_p⟩)
  · rw [taken.free] at listed
    rcases List.mem_cons.mp listed with rfl | later
    · exact .inr (.inr ⟨_, word, user, mapped, page⟩)
    · exact (grows.spent a later).imp_right .inl
  · rw [leaf, if_neg, found]
    rintro rfl
    cases vacant.symm.trans found
  · rw [leaf] at found
    split_ifs at found with here
    · cases found
      refine .inr ⟨here ▸ user, page ▸ taken.mem_freelist, ?_⟩
      rw [here, start, grown]
      exact Nat.lt_add_of_pos_right (by decide)
    · exact .inl found
  · rw [leaf]
    split_ifs with here
    · exact Option.some_ne_none _
    · refine image.full v free ?_
      have page := Vm.vaddr_mod v
      have other : vaddr v ≠ pgroundup sz := fun eq => here (by rw [← eq, Vm.path_vaddr])
      rw [grown] at low
      unfold pgsize at *
      omega

theorem undo (taken : Taken mem s s') (grows : Grows root s' s'')
    (leaf : leaf? s''.ram root = leaf? s.ram root) : Image base root sz (s''.kfree mem) := by
  have same := taken.same image.toWellFormed
  obtain ⟨adds, leaf'⟩ := Adds.undo image.toSpace taken grows leaf
  have outside : ¬ InTable s''.ram root mem := fun inside =>
    (grows.taken mem inside).elim (taken.outside image.toWellFormed) (taken.not_listed image.toFree)
  have same' (a : ℕ) (inside : InTable s''.ram root a) : (s''.kfree mem).ram a = s''.ram a := by
    refine Phys.setPage_of_ne ?_
    rintro rfl
    exact outside inside
  have tables (a : ℕ) (inside : InTable s''.ram root a) : InTable (s''.kfree mem).ram root a :=
    (inTable_same same').mpr inside
  refine image.adds adds ?_ (fun a listed => ?_) (fun a at_a =>
    tables a (grows.kept a ((inTable_same same).mpr at_a))) ?_ ?_
    le_rfl ?_
  · have pointers := grows.pointers (image.pointers.of_same (fun p short => node?_same same (by omega))
      fun p a short at_p => same a ⟨p, by omega, at_p⟩)
    exact pointers.of_same (fun p short => node?_same same' (by omega)) fun p a short at_p =>
      same' a ⟨p, by omega, at_p⟩
  · rw [taken.free] at listed
    rcases List.mem_cons.mp listed with rfl | later
    · exact .inl List.mem_cons_self
    · rcases grows.spent a later with still | new
      · exact .inl (List.mem_cons_of_mem _ still)
      · exact .inr (.inl (tables a new))
  · rw [leaf']
    exact fun _ _ => id
  · rw [leaf']
    exact fun _ _ => .inl
  · rw [leaf']
    exact image.full

theorem shrink {npages : ℕ} (le : pgroundup sz' ≤ pgroundup sz)
    (range : npages = (pgroundup sz - pgroundup sz') / pgsize)
    (unmaps : Unmaps root (pgroundup sz') npages true s s') : Image base root sz' s' := by
  have within (v) : Within (pgroundup sz') npages v ↔ pgroundup sz' ≤ vaddr v ∧ vaddr v < pgroundup sz := by
    rw [range]
    exact Vm.within_pgroundup v le
  have user {v} (inside : Within (pgroundup sz') npages v) : ¬ Kept v := image.not_kept ((within v).mp inside).2
  have leaf {v w} : leaf? s'.ram root v = some w ↔ ¬ Within (pgroundup sz') npages v ∧ leaf? s.ram root v = some w := by
    rw [unmaps.leaf]
    split_ifs with inside <;> simp [inside]
  have listed (a : ℕ) : a ∈ s'.freelist ↔ a ∈ s.freelist ∨ ∃ v w, Within (pgroundup sz') npages v ∧
      leaf? s.ram root v = some w ∧
      pte2pa w = a := by
    refine ⟨unmaps.freed a, ?_⟩
    rintro (old | ⟨v, w, inside, found, rfl⟩)
    · exact unmaps.kept a old
    · exact unmaps.released rfl v w inside found
  have conserved (a : ℕ) : a ∈ base.freelist ↔ a ∈ s'.freelist ∨ Holds s'.ram root a := by
    rw [image.conserved, listed]
    simp only [Holds, unmaps.tables, leaf]
    refine ⟨?_, ?_⟩
    · rintro (old | inside | ⟨v, w, free, found, page⟩)
      · exact .inl (.inl old)
      · exact .inr (.inl inside)
      · by_cases removed : Within (pgroundup sz') npages v
        · exact .inl (.inr ⟨v, w, removed, found, page⟩)
        · exact .inr (.inr ⟨v, w, free, ⟨removed, found⟩, page⟩)
    · rintro ((old | ⟨v, w, removed, found, page⟩) | inside | ⟨v, w, free, ⟨-, found⟩, page⟩)
      · exact .inl old
      · exact .inr (.inr ⟨v, w, user removed, found, page⟩)
      · exact .inr (.inl inside)
      · exact .inr (.inr ⟨v, w, free, found, page⟩)
  refine ⟨⟨unmaps.wf, unmaps.kernelEnd.symm ▸ image.kernel, fun v w found => ?_, fun v v' w w' found found' => ?_⟩,
    image.origin, unmaps.pointers image.pointers, unmaps.kernelEnd.trans image.sameEnd, conserved, fun a other => ?_,
    fun v w free found => ?_,
    fun v free low => ?_, fun v w kept found => image.kernelOnly v w kept (leaf.mp found).2⟩
  · obtain ⟨stays, there⟩ := leaf.mp found
    obtain ⟨nonzero, used, outside⟩ := image.mapped v w there
    refine ⟨nonzero, ?_, fun inside => outside ((unmaps.tables _).mp inside)⟩
    rw [listed]
    rintro (old | ⟨v', w', removed, found', same_page⟩)
    · exact used old
    · exact stays (image.distinct v' v w' w found' there same_page ▸ removed)
  · exact image.distinct v v' w w' (leaf.mp found).2 (leaf.mp found').2
  · rw [unmaps.frame a, image.unchanged a other]
    · exact fun inside => other ((image.conserved a).mpr (.inr (.inl inside)))
    · exact fun free => other ((conserved a).mpr (.inl free))
  · obtain ⟨stays, there⟩ := leaf.mp found
    have low := image.below v w free there
    by_contra high
    exact stays ((within v).mpr ⟨not_lt.mp high, low⟩)
  · obtain ⟨w, found⟩ := Option.ne_none_iff_exists'.mp (image.full v free (low.trans_le le))
    rw [leaf.mpr ⟨fun inside => absurd ((within v).mp inside).1 (not_le.mpr low), found⟩]
    exact Option.some_ne_none _

theorem mapKept {done : Bool} {va : ℕ} (kept : Kept (path va))
    (grows : Grows root s s') (vacant : leaf? s.ram root (path va) = none)
    (leaf : ∀ v, leaf? s'.ram root v = if done = true ∧ v = path va then some word else leaf? s.ram root v)
    (outside : pte2pa word ∉ base.freelist) (nonzero : pte2pa word ≠ 0)
    (apart : ∀ v w, leaf? s.ram root v = some w → pte2pa w ≠ pte2pa word) (flags : word &&& pteU = 0) :
    Image base root sz s' := by
  have cases_of {v w} (found : leaf? s'.ram root v = some w) :
      v = path va ∧ w = word ∨ leaf? s.ram root v = some w := by
    rw [leaf] at found
    split_ifs at found with here
    · exact .inl ⟨here.2, (Option.some.inj found).symm⟩
    · exact .inr found
  have stays {v w} (found : leaf? s.ram root v = some w) : leaf? s'.ram root v = some w := by
    rw [leaf, if_neg, found]
    rintro ⟨-, rfl⟩
    cases vacant.symm.trans found
  have listed {a} (free : a ∈ s'.freelist) : a ∈ base.freelist :=
    (image.conserved a).mpr (.inl (grows.suffix.subset free))
  have tables {a} (inside : InTable s'.ram root a) : a ∈ base.freelist :=
    (image.conserved a).mpr ((grows.taken a inside).symm.imp_right .inl)
  refine ⟨⟨grows.wf, grows.kernelEnd.symm ▸ image.kernel, fun v w found => ?_, fun v v' w w' found found' same => ?_⟩,
    image.origin,
    grows.pointers image.pointers, grows.kernelEnd.trans image.sameEnd, fun a => ⟨?_, ?_⟩, fun a other => ?_,
    fun v w user found => ?_, fun v user low => ?_, fun v w top found => ?_⟩
  · rcases cases_of found with ⟨-, rfl⟩ | old
    · exact ⟨nonzero, fun free => outside (listed free), fun inside => outside (tables inside)⟩
    · obtain ⟨nonnull, used, away⟩ := image.mapped v w old
      exact ⟨nonnull, fun free => used (grows.suffix.subset free), fun inside => (grows.taken _ inside).elim away used⟩
  · rcases cases_of found with ⟨rfl, rfl⟩ | old <;> rcases cases_of found' with ⟨rfl, rfl⟩ | old'
    · rfl
    · exact absurd same.symm (apart v' w' old')
    · exact absurd same (apart v w old)
    · exact image.distinct v v' w w' old old' same
  · rw [image.conserved]
    rintro (free | inside | ⟨v, w, user, found, page⟩)
    · exact (grows.spent a free).imp_right .inl
    · exact .inr (.inl (grows.kept a inside))
    · exact .inr (.inr ⟨v, w, user, stays found, page⟩)
  · rintro (free | inside | ⟨v, w, user, found, rfl⟩)
    · exact listed free
    · exact tables inside
    · rcases cases_of found with ⟨rfl, -⟩ | old
      · exact absurd kept user
      · exact image.of_page user old
  · rw [grows.frame a, image.unchanged a other]
    · exact fun inside => other ((image.conserved a).mpr (.inr (.inl inside)))
    · exact fun free => other ((image.conserved a).mpr (.inl free))
  · rcases cases_of found with ⟨rfl, -⟩ | old
    · exact absurd kept user
    · exact image.below v w user old
  · obtain ⟨w, found⟩ := Option.ne_none_iff_exists'.mp (image.full v user low)
    rw [stays found]
    exact Option.some_ne_none w
  · rcases cases_of found with ⟨-, rfl⟩ | old
    · exact flags
    · exact image.kernelOnly v w top old

end Image

/-! ## Allocation -/

variable {pa newsz a b : ℕ} {perm xperm : UInt64}

theorem leafWord_mask {mask : UInt64} (bound : pa < phystop) (small : perm.toNat < 1024)
    (low : mask.toNat < 1024) : leafWord pa perm &&& mask = (perm ||| pteV) &&& mask := by
  rw [leafWord, UInt64.or_assoc]
  exact pa2pte_or_and (lt_size_of_lt_phystop bound) (or_pteV_lt small) low

theorem Image.dealloc (image : Image base root sz s) (le : newsz ≤ sz) :
    Ensures (uvmdealloc root sz newsz) s (fun _ s' => Image base root newsz s') fails := by
  unfold uvmdealloc
  have rounded := Vm.pgroundup_mono le
  refine .ite (fun ge => .pure ?_) fun _ => .ite (fun fewer => ?_) fun equal => .pure ?_
  · rw [le_antisymm le ge]
    exact image
  · refine (uvmunmap_ensures true image.toWellFormed (Vm.pgroundup_mod newsz) ?_ fun _ => ?_).bind fun _ s₁ unmaps =>
      .pure ?_
    · have := Nat.div_mul_le_self (pgroundup sz - pgroundup newsz) pgsize
      have := image.below_trapframe
      have : Vm.trapframe < maxva := by decide
      omega
    · refine ⟨fun v w within found => ?_, fun v v' w w' _ _ => image.distinct v v' w w'⟩
      obtain ⟨-, used, outside⟩ := image.mapped v w found
      have user := image.not_kept ((Vm.within_pgroundup v rounded).mp within).2
      obtain ⟨-, low, high⟩ := image.origin.pages _ (image.of_page user found)
      exact ⟨image.sameEnd ▸ low, high, outside, used⟩
    · exact image.shrink rounded rfl unmaps
  · exact image.resize (by omega)

/-- Pages have been mapped in a range of addresses. -/
structure Allocated (root a b : ℕ) (perm : UInt64) (s s' : Phys) : Prop where
  old : ∀ v, ¬ (a ≤ vaddr v ∧ vaddr v < b) → leaf? s'.ram root v = leaf? s.ram root v
  new : ∀ v, a ≤ vaddr v → vaddr v < b → ∃ mem, leaf? s'.ram root v = some (leafWord mem perm)

theorem Allocated.nothing (empty : b ≤ a) (ram : s'.ram = s.ram) : Allocated root a b perm s s' where
  old v _ := by rw [ram]
  new v low high := by omega

theorem Allocated.cons {mem : ℕ} (aligned : a % pgsize = 0) (inside : a < maxva) (le : a + pgsize ≤ b)
    (leaf : ∀ v, leaf? s'.ram root v = if v = path a then some (leafWord mem perm) else leaf? s.ram root v)
    (rest : Allocated root (a + pgsize) b perm s' s'') : Allocated root a b perm s s'' where
  old v outside := by
    rw [rest.old v (by omega), leaf, if_neg]
    rintro rfl
    rw [Vm.vaddr_path aligned inside] at outside
    unfold pgsize at le
    omega
  new v low high := by
    by_cases here : vaddr v = a
    · refine ⟨mem, ?_⟩
      rw [rest.old v (by unfold pgsize at *; omega), leaf, if_pos ((Vm.eq_path_iff aligned inside).mpr here)]
    · refine rest.new v ?_ high
      have := Vm.vaddr_mod v
      unfold pgsize at *
      omega

/-- The loop of `uvmalloc` maps all pages, or leaves none. -/
theorem uvmallocLoop_ensures (rounds : ℕ) {oldsz : ℕ} (image : Image base root sz s) (start : oldsz ≤ sz)
    (aligned : sz % pgsize = 0) (flags : (pteR ||| pteU ||| xperm).toNat < 1024) :
    Ensures (uvmallocLoop root oldsz sz xperm rounds) s (fun done s' => (done = false → Image base root oldsz s' ∧
      s.supply < 3 * rounds) ∧
      (done = true → Image base root (sz + rounds * pgsize) s' ∧ s.supply ≤ s'.supply + 3 * rounds ∧
        Allocated root sz (sz + rounds * pgsize) (pteR ||| pteU ||| xperm) s s')) fails := by
  induction rounds generalizing s sz with
  | zero =>
    refine .pure ⟨by rintro ⟨⟩, fun _ => ?_⟩
    rw [Nat.zero_mul, Nat.add_zero]
    exact ⟨image, by omega, .nothing le_rfl rfl⟩
  | succ rounds ih =>
    have whole := Vm.pgroundup_of_mod aligned
    have inside : sz < maxva := by
      have := image.below_trapframe
      have : Vm.trapframe < maxva := by decide
      omega
    have next : sz + (rounds + 1) * pgsize = sz + pgsize + rounds * pgsize := by rw [Nat.succ_mul]; omega
    unfold uvmallocLoop
    refine kalloc_ensures.bind ?_
    rintro (_ | mem) s₁ ⟨kernelEnd, supply, failed, allocated⟩
    · obtain ⟨ram, free, none_left⟩ := failed rfl
      refine ((image.of_same ram free kernelEnd).dealloc start).bind fun _ s₂ image₂ =>
        .pure ⟨fun _ => ⟨image₂, by omega⟩, by rintro ⟨⟩⟩
    · obtain ⟨free, ram⟩ := allocated mem rfl
      refine memset_bind ?_
      have taken : Taken mem s (s₁.setPage mem (.filled 0)) := ⟨free, fun a other => by
        simp [Phys.setPage, ram, other], kernelEnd⟩
      have supply' : (s₁.setPage mem (.filled 0)).supply = s₁.supply := rfl
      generalize s₁.setPage mem (.filled 0) = s₂ at *
      have same := taken.same image.toWellFormed
      have vacant : leaf? s₂.ram root (path sz) = none := by
        rw [leaf?_same same]
        cases found : leaf? s.ram root (path sz) with
        | none => rfl
        | some w =>
          have low := image.below _ w (Vm.not_kept_of_lt (whole ▸ image.below_trapframe)) found
          rw [Vm.vaddr_path aligned inside, whole] at low
          exact absurd low (lt_irrefl _)
      obtain ⟨page_aligned, low, high⟩ := image.pages mem taken.mem_freelist
      refine (mappages_page (taken.wellFormed image.toWellFormed) aligned inside vacant).bind ?_
      rintro (_ | _) s₃ ⟨grows, supply₁, leaf, few⟩
      · have kept : leaf? s₃.ram root = leaf? s.ram root := by
          funext v
          rw [leaf, if_neg (by simp), leaf?_same same]
        have end₃ : s₃.kernelEnd = s.kernelEnd := grows.kernelEnd.trans taken.kernelEnd
        refine .run_bind (kfree_run page_aligned (end₃ ▸ low) high) ?_
        refine ((image.undo taken grows kept).dealloc start).bind fun _ s₄ image₄ =>
          .pure ⟨fun _ => ⟨image₄, ?_⟩, by rintro ⟨⟩⟩
        have := few rfl
        omega
      · have leaf' (v) :
            leaf? s₃.ram root v = if v = path sz then
            some (leafWord mem (pteR ||| pteU ||| xperm)) else leaf? s.ram root v := by
          rw [leaf, leaf?_same same, if_congr (and_iff_right rfl) rfl rfl]
        have grown := image.map taken grows (leafWord_page page_aligned high flags) (by rw [whole]; exact leaf')
        rw [whole] at grown
        refine (ih grown (by omega) (by rw [Nat.add_mod_right, aligned])).mono ?_
        rintro done s₄ ⟨stopped, finished⟩
        refine ⟨fun failed => ?_, fun success => ?_⟩
        · obtain ⟨image₄, few⟩ := stopped failed
          exact ⟨image₄, by omega⟩
        · obtain ⟨image₄, left, rest⟩ := finished success
          rw [next]
          exact ⟨image₄, by omega, .cons aligned inside (by omega) leaf' rest⟩

/-- The number of pages below a size. -/
def pageCount (sz : ℕ) : ℕ := pgroundup sz / pgsize

theorem uvmalloc_ensures (image : Image base root sz s)
    (flags : (pteR ||| pteU ||| xperm).toNat < 1024) : Ensures (uvmalloc root sz newsz xperm) s (fun r s' =>
      (r = 0 → Image base root sz s' ∧ (max sz newsz = 0 ∨ s.supply + 3 * pageCount sz < 3 * pageCount newsz)) ∧
      (r ≠ 0 → r = max sz newsz ∧ Image base root r s' ∧ s.supply + 3 * pageCount sz ≤ s'.supply + 3 * pageCount r ∧
        Allocated root (pgroundup sz) (pgroundup r) (pteR ||| pteU ||| xperm) s s')) fails := by
  unfold uvmalloc
  refine .ite (fun less => .pure ⟨fun zero => absurd zero (by omega), fun _ => ?_⟩) fun grows => ?_
  · rw [max_eq_left less.le]
    exact ⟨rfl, image, le_rfl, .nothing le_rfl rfl⟩
  rw [max_eq_right (not_lt.mp grows)]
  have rounds := Vm.pgroundup_add_pages (not_lt.mp grows)
  have pages : pageCount newsz = pageCount sz + (newsz - pgroundup sz + pgsize - 1) / pgsize := by
    have := Vm.pgroundup_mod sz
    unfold pageCount pgsize at *
    omega
  dsimp only
  generalize (newsz - pgroundup sz + pgsize - 1) / pgsize = n at *
  have whole := Vm.pgroundup_of_mod (Vm.pgroundup_mod sz)
  refine (uvmallocLoop_ensures n (image.resize whole) le_rfl (Vm.pgroundup_mod sz) flags).bind ?_
  rintro (_ | _) s₁ ⟨stopped, finished⟩
  · obtain ⟨image₁, few⟩ := stopped rfl
    exact .pure ⟨fun _ => ⟨image₁.resize whole.symm, .inr (by omega)⟩, fun wrong => absurd rfl wrong⟩
  · obtain ⟨image₁, left, allocated⟩ := finished rfl
    rw [rounds] at image₁ allocated
    have image₂ : Image base root newsz s₁ := image₁.resize (Vm.pgroundup_of_mod (Vm.pgroundup_mod newsz)).symm
    refine .pure ⟨fun zero => ⟨?_, .inl zero⟩, fun _ => ⟨rfl, image₂, by omega, allocated⟩⟩
    obtain rfl : sz = newsz := by omega
    exact image₂

end Xv6.Sv39
