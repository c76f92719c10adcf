import Xv6.Machine.Ensures
import Xv6.Model.Vm.Address

/-! # The pages of the address space

The address of the page that a leaf of a page table stands for, the leaves of a range of pages, and the rounding of
sizes to pages.
-/

namespace Xv6.Vm

/-- The indices of the leaf for an address. -/
def path (va : ℕ) : Fin 512 × Fin 512 × Fin 512 := (px 2 va, px 1 va, px 0 va)

/-- The leaves of the trampoline and of the trapframe. -/
def Kept (v : Fin 512 × Fin 512 × Fin 512) : Prop := v = path trampoline ∨ v = path trapframe

instance : DecidablePred Kept := fun v => inferInstanceAs (Decidable (v = path trampoline ∨ v = path trapframe))

variable {va a b : ℕ} {v : Fin 512 × Fin 512 × Fin 512}

theorem not_kept_of_lt (below : va < trapframe) : ¬ Kept (path va) := by
  simp only [trapframe, trampoline, maxva, pgsize] at below
  simp only [Kept, path, px, trapframe, trampoline, maxva, pgsize, Prod.mk.injEq, Fin.mk.injEq,
    Nat.shiftRight_eq_div_pow]
  omega

theorem le_pgroundup (sz : ℕ) : sz ≤ pgroundup sz := by
  unfold pgroundup pgsize
  omega

theorem pgroundup_mod (sz : ℕ) : pgroundup sz % pgsize = 0 := Nat.mul_mod_left _ _

/-- The address of the page that a leaf stands for. -/
def vaddr (v : Fin 512 × Fin 512 × Fin 512) : ℕ := ((v.1.val * 512 + v.2.1.val) * 512 + v.2.2.val) * pgsize

theorem vaddr_path (aligned : va % pgsize = 0) (below : va < maxva) : vaddr (path va) = va := by
  simp only [vaddr, path, px, Nat.shiftRight_eq_div_pow]
  unfold pgsize maxva at *
  omega

theorem path_vaddr (v : Fin 512 × Fin 512 × Fin 512) : path (vaddr v) = v := by
  obtain ⟨i, j, k⟩ := v
  have := i.isLt
  have := j.isLt
  have := k.isLt
  simp only [vaddr, path, px, Nat.shiftRight_eq_div_pow, pgsize, Prod.mk.injEq, Fin.ext_iff]
  omega

theorem eq_path_iff (aligned : va % pgsize = 0) (below : va < maxva) :
    v = path va ↔ vaddr v = va :=
  ⟨fun same => same ▸ vaddr_path aligned below, fun same => same ▸ (path_vaddr v).symm⟩

theorem vaddr_mod (v : Fin 512 × Fin 512 × Fin 512) : vaddr v % pgsize = 0 := Nat.mul_mod_left _ _

theorem kept_iff : Kept v ↔ vaddr v = trampoline ∨ vaddr v = trapframe := by
  rw [Kept, eq_path_iff (by decide) (by decide), eq_path_iff (by decide) (by decide)]

theorem trapframe_le_of_kept (kept : Kept v) : trapframe ≤ vaddr v := by
  rcases kept_iff.mp kept with same | same
  · rw [same]
    decide
  · rw [same]

/-- The leaf stands for one of the pages from address `a` on. -/
def Within (a npages : ℕ) (v : Fin 512 × Fin 512 × Fin 512) : Prop := a ≤ vaddr v ∧ vaddr v < a + npages * pgsize

instance (a npages : ℕ) : DecidablePred (Within a npages) := fun _ => inferInstanceAs (Decidable (_ ∧ _))

theorem not_within_zero (a : ℕ) (v : Fin 512 × Fin 512 × Fin 512) : ¬ Within a 0 v := by
  unfold Within
  omega

theorem within_succ {npages : ℕ} (aligned : a % pgsize = 0) :
    Within a (npages + 1) v ↔ vaddr v = a ∨ Within (a + pgsize) npages v := by
  have gap := vaddr_mod v
  unfold Within pgsize at *
  omega

theorem within_one (aligned : a % pgsize = 0) :
    Within a 1 v ↔ vaddr v = a := by
  rw [within_succ aligned, or_iff_left (not_within_zero _ v)]

theorem pgroundup_mono (le : a ≤ b) : pgroundup a ≤ pgroundup b := by
  unfold pgroundup pgsize
  omega

theorem pgrounddown_mod (a : ℕ) : pgrounddown a % pgsize = 0 := Nat.mul_mod_left _ _

theorem pgroundup_of_mod (aligned : a % pgsize = 0) : pgroundup a = a := by
  unfold pgroundup pgsize at *
  omega

/-- The number of pages that `uvmalloc` maps. -/
theorem pgroundup_add_pages {oldsz newsz : ℕ} (le : oldsz ≤ newsz) :
    pgroundup oldsz + (newsz - pgroundup oldsz + pgsize - 1) / pgsize * pgsize = pgroundup newsz := by
  unfold pgroundup pgsize
  omega

theorem within_pgroundup (v : Fin 512 × Fin 512 × Fin 512) (le : pgroundup a ≤ pgroundup b) :
    Within (pgroundup a) ((pgroundup b - pgroundup a) / pgsize) v ↔ pgroundup a ≤ vaddr v ∧ vaddr v < pgroundup b := by
  have first := pgroundup_mod a
  have second := pgroundup_mod b
  unfold Within pgsize at *
  omega

end Xv6.Vm
