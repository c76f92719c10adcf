import Xv6.Machine.Trie
import Xv6.Model.Vm.Sv39
import Xv6.Proofs.Vm.Layout

/-! # Page tables as trees and as maps

The page-table pages that a root leads to are the nodes of a tree; `leaf?` is the map from pages of virtual
addresses to the words in the last layer. Each function on page tables is described by what it does to that
map, and by which pages of physical memory it leaves alone.
-/

namespace Xv6.Sv39

open Machine
open Vm (pgsize maxva px path vaddr Within vaddr_path path_vaddr eq_path_iff not_within_zero within_one within_succ)

/-! ## Page-table entries -/

theorem or_valid (pte : UInt64) : (pte ||| pteV) &&& pteV ≠ 0 := by
  have one : (pte ||| pteV) &&& pteV = 1 := by
    unfold pteV
    apply UInt64.toBitVec_inj.mp
    ext i
    simp
    grind
  rw [one]
  decide

variable {pa a table va npages : ℕ} {flags perm : UInt64} {i : Fin 512} {ram : ℕ → Page} {p : PtePtr} {page : Page}
  {doFree : Bool}

theorem pa2pte_or_toNat (bound : pa < UInt64.size) (small : flags.toNat < 1024) :
    (pa2pte pa ||| flags).toNat = pa / 4096 * 1024 + flags.toNat := by
  have shifted : (pa2pte pa).toNat = pa / 4096 * 1024 := by
    rw [pa2pte, UInt64.toNat_shiftLeft, UInt64.toNat_shiftRight, UInt64.toNat_ofNat', Nat.mod_eq_of_lt bound]
    change (pa >>> 12) <<< 10 % 2 ^ 64 = _
    rw [Nat.shiftRight_eq_div_pow, Nat.shiftLeft_eq]
    unfold UInt64.size at bound
    omega
  rw [UInt64.toNat_or, shifted, show 1024 = 2 ^ 10 from rfl, ← Nat.shiftLeft_eq, Nat.shiftLeft_add_eq_or_of_lt small]

/-- The address of a page is read back from an entry, whatever the flags. -/
theorem pte2pa_or (aligned : pa % pgsize = 0) (bound : pa < UInt64.size)
    (small : flags.toNat < 1024) : pte2pa (pa2pte pa ||| flags) = pa := by
  rw [pte2pa, UInt64.toNat_shiftLeft, UInt64.toNat_shiftRight, pa2pte_or_toNat bound small]
  change ((pa / 4096 * 1024 + flags.toNat) >>> 10) <<< 12 % 2 ^ 64 = pa
  rw [Nat.shiftRight_eq_div_pow, Nat.shiftLeft_eq]
  unfold UInt64.size at bound
  unfold pgsize at aligned
  omega

theorem pteFlags_or (bound : pa < UInt64.size) (small : flags.toNat < 1024) :
    pteFlags (pa2pte pa ||| flags) = flags := by
  apply UInt64.toNat_inj.mp
  rw [pteFlags, UInt64.toNat_and, pa2pte_or_toNat bound small]
  change _ &&& (2 ^ 10 - 1) = _
  rw [Nat.and_two_pow_sub_one_eq_mod]
  omega

theorem pa2pte_or_and {mask : UInt64} (bound : pa < UInt64.size) (small : flags.toNat < 1024)
    (low : mask.toNat < 1024) : (pa2pte pa ||| flags) &&& mask = flags &&& mask := by
  apply UInt64.toNat_inj.mp
  rw [UInt64.toNat_and, UInt64.toNat_and, pa2pte_or_toNat bound small]
  have cut (x : ℕ) : x &&& mask.toNat = x % 2 ^ 10 &&& mask.toNat := by
    have whole : (x &&& mask.toNat) % 2 ^ 10 = x &&& mask.toNat := Nat.mod_eq_of_lt (Nat.and_le_right.trans_lt low)
    rw [← whole, Nat.and_mod_two_pow, Nat.mod_eq_of_lt (show mask.toNat < 2 ^ 10 from low)]
  rw [cut]
  congr 1
  omega

theorem pte2pa_mod (pte : UInt64) : pte2pa pte % pgsize = 0 := by
  rw [pte2pa, UInt64.toNat_shiftLeft]
  change (_ <<< 12) % 2 ^ 64 % 4096 = 0
  rw [Nat.shiftLeft_eq]
  omega

/-! ## The tree -/

/-- An entry that is valid. -/
def pte? (page : Page) (i : Fin 512) : Option UInt64 :=
  if page.word64 i &&& pteV ≠ 0 then some (page.word64 i) else none

/-- The page that an entry refers to. -/
def child (ram : ℕ → Page) (table : ℕ) (i : Fin 512) : Option ℕ := (pte? (ram table) i).map pte2pa

/-- The word for a page of virtual addresses, if it is valid. -/
def leaf? (ram : ℕ → Page) (root : ℕ) (v : Fin 512 × Fin 512 × Fin 512) : Option UInt64 :=
  (node? (child ram) root [v.1, v.2.1]).bind fun low => pte? (ram low) v.2.2

/-- The page-table pages. -/
def InTable (ram : ℕ → Page) (root pa : ℕ) : Prop := ∃ path, path.length ≤ 2 ∧ node? (child ram) root path = some pa

theorem pte?_zero (i : Fin 512) : pte? (.filled 0) i = none := by
  rw [pte?, Page.filled, Vector.word64_replicate_zero]
  rfl

theorem pte?_setWord64_self (page : Page) (i : Fin 512) (pte : UInt64) :
    pte? (page.setWord64 i pte) i = if pte &&& pteV ≠ 0 then some pte else none := by
  have := i.isLt
  rw [pte?, Vector.word64_setWord64_self _ _ (by omega)]

theorem pte?_setWord64_of_ne (page : Page) {j : Fin 512} (pte : UInt64) (other : j ≠ i) :
    pte? (page.setWord64 i pte) j = pte? page j := by
  rw [pte?, pte?, Vector.word64_setWord64_of_ne _ _ (fun same => other (Fin.ext same.symm))]

section Congr

variable {ram ram' : ℕ → Page} {root : ℕ}

theorem child_congr {table : ℕ} (same : ram' table = ram table) : child ram' table = child ram table := by
  funext i
  rw [child, child, same]

theorem node?_same (same : ∀ a, InTable ram root a → ram' a = ram a) {path : List (Fin 512)} (short : path.length ≤ 2) :
    node? (child ram') root path = node? (child ram) root path :=
  node?_congr fun p a shorter found => child_congr (same a ⟨p, by omega, found⟩)

theorem inTable_same (same : ∀ a, InTable ram root a → ram' a = ram a) {a : ℕ} :
    InTable ram' root a ↔ InTable ram root a := by
  constructor <;> rintro ⟨path, short, found⟩ <;> refine ⟨path, short, ?_⟩
  · rwa [node?_same same short] at found
  · rwa [node?_same same short]

theorem leaf?_same (same : ∀ a, InTable ram root a → ram' a = ram a) : leaf? ram' root = leaf? ram root := by
  funext v
  rw [leaf?, leaf?, node?_same same (by simp)]
  cases found : node? (child ram) root [v.1, v.2.1] with
  | none => rw [Option.bind_none, Option.bind_none]
  | some low => rw [Option.bind_some, Option.bind_some, same low ⟨_, by simp, found⟩]

end Congr

/-- The entries above the last layer refer to pages of the table: they have no permissions. -/
def Pointers (ram : ℕ → Page) (root : ℕ) : Prop :=
  ∀ path table i w, path.length ≤ 1 → node? (child ram) root path = some table → pte? (ram table) i = some w →
    w &&& (pteR ||| pteW ||| pteX) = 0

theorem Pointers.of_same {ram' : ℕ → Page} {root : ℕ} (pointers : Pointers ram root)
    (nodes : ∀ p : List (Fin 512), p.length ≤ 1 → node? (child ram') root p = node? (child ram) root p)
    (same : ∀ p a, p.length ≤ 1 → node? (child ram) root p = some a → ram' a = ram a) : Pointers ram' root := by
  intro path table i w short found entry
  rw [nodes path short] at found
  rw [same path table short found] at entry
  exact pointers path table i w short found entry

/-- The free list: pages of the memory that `kalloc` manages, each of them once. -/
structure Free (s : Phys) : Prop where
  nodup : s.freelist.Nodup
  pages : ∀ a ∈ s.freelist, a % pgsize = 0 ∧ s.kernelEnd ≤ a ∧ a < phystop

/-- A table without sharing, none of whose pages is free. -/
structure WellFormed (s : Phys) (root : ℕ) : Prop extends Free s where
  aligned : root % pgsize = 0
  unshared : Unshared (child s.ram) root 2
  apart : ∀ a, InTable s.ram root a → a ∉ s.freelist

theorem WellFormed.of_same {s s' : Phys} {root : ℕ} (wf : WellFormed s root) (free : Free s')
    (same : ∀ a, InTable s.ram root a → s'.ram a = s.ram a) (apart : ∀ a, InTable s.ram root a → a ∉ s'.freelist) :
    WellFormed s' root where
  toFree := free
  aligned := wf.aligned
  unshared p q a bound bound' at_p at_q := by
    rw [node?_same same bound] at at_p
    rw [node?_same same bound'] at at_q
    exact wf.unshared p q a bound bound' at_p at_q
  apart a inside := apart a ((inTable_same same).mp inside)

/-- A page of zeros is a table without mappings. -/
theorem node?_zeroed {root : ℕ} {path : List (Fin 512)} (zero : ram root = .filled 0)
    (found : node? (child ram) root path = some a) : path = [] ∧ a = root := by
  cases path with
  | nil => exact ⟨rfl, (Option.some.inj found).symm⟩
  | cons i rest =>
    rw [node?, List.foldlM_cons, child, zero, pte?_zero] at found
    cases found

theorem leaf?_zeroed {root : ℕ} (zero : ram root = .filled 0) (v : Fin 512 × Fin 512 × Fin 512) :
    leaf? ram root v = none := by
  cases found : leaf? ram root v with
  | none => rfl
  | some w =>
    obtain ⟨low, at_low, -⟩ := Option.bind_eq_some_iff.mp found
    cases (node?_zeroed zero at_low).1

theorem inTable_zeroed {root : ℕ} (zero : ram root = .filled 0) (inside : InTable ram root a) : a = root := by
  obtain ⟨p, -, at_p⟩ := inside
  exact (node?_zeroed zero at_p).2

theorem WellFormed.zeroed {s : Phys} {root : ℕ} (free : Free s) (aligned : root % pgsize = 0)
    (zero : s.ram root = .filled 0)
    (used : root ∉ s.freelist) : WellFormed s root where
  toFree := free
  aligned := aligned
  unshared p q a _ _ at_p at_q := by rw [(node?_zeroed zero at_p).1, (node?_zeroed zero at_q).1]
  apart a inside := by
    rw [inTable_zeroed zero inside]
    exact used

theorem lt_size_of_lt_phystop (below : a < phystop) : a < UInt64.size := below.trans (by decide)

/-- What a function does that adds pages to a table, besides the changes to its map. -/
structure Grows (root : ℕ) (s s' : Phys) : Prop where
  wf : WellFormed s' root
  suffix : s'.freelist <:+ s.freelist
  kept : ∀ a, InTable s.ram root a → InTable s'.ram root a
  taken : ∀ a, InTable s'.ram root a → InTable s.ram root a ∨ a ∈ s.freelist
  frame : ∀ a, ¬ InTable s.ram root a → a ∉ s.freelist → s'.ram a = s.ram a
  kernelEnd : s'.kernelEnd = s.kernelEnd
  spent : ∀ a ∈ s.freelist, a ∈ s'.freelist ∨ InTable s'.ram root a
  pointers : Pointers s.ram root → Pointers s'.ram root

variable {root : ℕ} {s s' s'' : Phys} {fails : Panic → Prop}

theorem Grows.refl (wf : WellFormed s root) : Grows root s s :=
  ⟨wf, List.suffix_rfl, fun _ => id, fun _ => .inl, fun _ _ _ => rfl, rfl, fun _ => .inl, id⟩

theorem Grows.of_same (wf : WellFormed s root) (ram : s'.ram = s.ram) (free : s'.freelist = s.freelist)
    (kernelEnd : s'.kernelEnd = s.kernelEnd) : Grows root s s' where
  wf := ⟨⟨free ▸ wf.nodup, by rw [free, kernelEnd]; exact wf.pages⟩, wf.aligned, ram ▸ wf.unshared, by
    rw [ram, free]
    exact wf.apart⟩
  suffix := free ▸ List.suffix_rfl
  kept _ := by rw [ram]; exact id
  taken _ := by rw [ram]; exact .inl
  frame _ _ _ := by rw [ram]
  kernelEnd := kernelEnd
  spent a listed := .inl (free ▸ listed)
  pointers := by rw [ram]; exact id

theorem Grows.trans (first : Grows root s s') (second : Grows root s' s'') : Grows root s s'' where
  wf := second.wf
  suffix := second.suffix.trans first.suffix
  kept a inside := second.kept a (first.kept a inside)
  taken a inside := by
    rcases second.taken a inside with old | free
    · exact first.taken a old
    · exact .inr (first.suffix.subset free)
  frame a outside used := by
    rw [second.frame a, first.frame a outside used]
    · exact fun inside => (first.taken a inside).elim outside used
    · exact fun free => used (first.suffix.subset free)
  kernelEnd := second.kernelEnd.trans first.kernelEnd
  spent a listed := (first.spent a listed).elim (second.spent a) fun inside => .inr (second.kept a inside)
  pointers before := second.pointers (first.pointers before)

/-! ## Allocation -/

/-- The number of allocations that are certain to succeed. -/
def Phys.supply (s : Phys) : ℕ := if s.refusals = [] then s.freelist.length else 0

theorem kalloc_ensures : Ensures kalloc s (fun r s' => s'.kernelEnd = s.kernelEnd ∧ s.supply ≤ s'.supply + 1 ∧
    (r = none → s'.ram = s.ram ∧ s'.freelist = s.freelist ∧ s.supply = 0) ∧
    (∀ a, r = some a → s.freelist = a :: s'.freelist ∧ s'.ram = Function.update s.ram a (.filled 5))) fails := by
  refine .modifyGet ?_
  unfold Phys.kalloc Phys.supply
  split
  · next refused =>
    have some_left : s.refusals ≠ [] := fun none_left => by simp [none_left] at refused
    simp [some_left]
  · next empty _ => simp [empty]
  · next r next taken _ =>
    refine ⟨rfl, ?_, nofun, ?_⟩
    · by_cases willing : s.refusals = [] <;> simp [willing, taken, Phys.setPage]
    · rintro _ ⟨⟩
      exact ⟨taken, rfl⟩

/-- A page from the free list is in place of an invalid entry of the table at a path. -/
structure Attached (root : ℕ) (path : List (Fin 512)) (table b : ℕ) (i : Fin 512) (s s' : Phys) : Prop where
  wf : WellFormed s root
  short : path.length ≤ 1
  found : node? (child s.ram) root path = some table
  vacant : pte? (s.ram table) i = none
  free : s.freelist = b :: s'.freelist
  kernelEnd : s'.kernelEnd = s.kernelEnd
  fresh : s'.ram b = .filled 0
  entry : s'.ram table = (s.ram table).setWord64 i (pa2pte b ||| pteV)
  others : ∀ a, a ≠ table → a ≠ b → s'.ram a = s.ram a

namespace Attached

variable {path : List (Fin 512)} {table b : ℕ} {i : Fin 512}

section

variable (attached : Attached root path table b i s s')
include attached

theorem mem_freelist : b ∈ s.freelist := by
  rw [attached.free]
  exact List.mem_cons_self

theorem of_mem {a : ℕ} (listed : a ∈ s'.freelist) : a ∈ s.freelist := by
  rw [attached.free]
  exact List.mem_cons_of_mem _ listed

theorem not_table (p : List (Fin 512)) (bound : p.length ≤ 2) :
    node? (child s.ram) root p ≠ some b := fun at_b => attached.wf.apart b ⟨p, bound, at_b⟩ attached.mem_freelist

theorem child_eq_none : child s.ram table i = none := by
  rw [child, attached.vacant]
  rfl

theorem nodes (p : List (Fin 512)) (bound : p.length ≤ 2) :
    node? (child s'.ram) root p = if p = path ++ [i] then some b else node? (child s.ram) root p := by
  have short := attached.short
  obtain ⟨aligned, -, high⟩ := attached.wf.pages b attached.mem_freelist
  refine attached.wf.unshared.node?_attach (by omega) attached.found attached.child_eq_none ?_ ?_ ?_ ?_
    attached.not_table (by omega)
  · rw [child, attached.entry, pte?_setWord64_self, if_pos (or_valid _), Option.map_some,
      pte2pa_or aligned (lt_size_of_lt_phystop high) (by decide)]
  · intro j other
    rw [child, child, attached.entry, pte?_setWord64_of_ne _ _ other]
  · intro j
    rw [child, attached.fresh, pte?_zero]
    rfl
  · exact fun a away apart => child_congr (attached.others a away apart)

theorem node?_new : node? (child s'.ram) root (path ++ [i]) = some b := by
  rw [attached.nodes _ (by simpa using attached.short), if_pos rfl]

theorem node?_old {p : List (Fin 512)} {a : ℕ} (bound : p.length ≤ 2)
    (at_p : node? (child s.ram) root p = some a) : node? (child s'.ram) root p = some a := by
  rw [attached.nodes p bound, if_neg, at_p]
  rintro rfl
  rw [node?_concat, attached.found, Option.bind_some, attached.child_eq_none] at at_p
  cases at_p

theorem inTable_iff (a : ℕ) :
    InTable s'.ram root a ↔ InTable s.ram root a ∨ a = b := by
  constructor
  · rintro ⟨p, bound, at_p⟩
    rw [attached.nodes p bound] at at_p
    split_ifs at at_p
    · exact .inr (Option.some.inj at_p).symm
    · exact .inl ⟨p, bound, at_p⟩
  · rintro (⟨p, bound, at_p⟩ | rfl)
    · exact ⟨p, bound, attached.node?_old bound at_p⟩
    · exact ⟨path ++ [i], by simpa using attached.short, attached.node?_new⟩

theorem pointers (pointers : Pointers s.ram root) : Pointers s'.ram root := by
  obtain ⟨-, -, high⟩ := attached.wf.pages b attached.mem_freelist
  intro p t j w bound at_p there
  rw [attached.nodes p (by omega)] at at_p
  split_ifs at at_p
  · cases at_p
    rw [attached.fresh, pte?_zero] at there
    cases there
  · have not_new : t ≠ b := by
      rintro rfl
      exact attached.not_table p (by omega) at_p
    by_cases here : t = table
    · subst here
      rw [attached.entry] at there
      by_cases same : j = i
      · rw [same, pte?_setWord64_self, if_pos (or_valid _)] at there
        cases there
        exact pa2pte_or_and (lt_size_of_lt_phystop high) (by decide) (by decide)
      · rw [pte?_setWord64_of_ne _ _ same] at there
        exact pointers p t j w bound at_p there
    · rw [attached.others t here not_new] at there
      exact pointers p t j w bound at_p there

theorem leaf?_eq : leaf? s'.ram root = leaf? s.ram root := by
  have short := attached.short
  funext v
  rw [leaf?, leaf?, attached.nodes _ (by simp)]
  split_ifs with new
  · rw [Option.bind_some, attached.fresh, pte?_zero, new, node?_concat, attached.found, Option.bind_some,
      attached.child_eq_none]
    rfl
  · cases low_table : node? (child s.ram) root [v.1, v.2.1] with
    | none => rw [Option.bind_none, Option.bind_none]
    | some low =>
      rw [Option.bind_some, Option.bind_some, attached.others low]
      · rintro rfl
        have same := attached.wf.unshared _ _ low (by simp) (by omega) low_table attached.found
        rw [← same] at short
        simp at short
      · rintro rfl
        exact attached.not_table _ (by simp) low_table

theorem wellFormed : WellFormed s' root := by
  have wf := attached.wf
  obtain ⟨unlisted, nodup⟩ := List.nodup_cons.mp (attached.free ▸ wf.nodup)
  refine ⟨⟨nodup, fun a listed => ?_⟩, wf.aligned, wf.unshared.attach attached.not_table attached.nodes,
    fun a at_a listed => ?_⟩
  · rw [attached.kernelEnd]
    exact wf.pages a (attached.of_mem listed)
  · rcases (attached.inTable_iff a).mp at_a with old | rfl
    · exact wf.apart a old (attached.of_mem listed)
    · exact unlisted listed

theorem grows : Grows root s s' where
  wf := attached.wellFormed
  suffix := by
    rw [attached.free]
    exact List.suffix_cons _ _
  kept a inside := (attached.inTable_iff a).mpr (.inl inside)
  taken a inside := by
    rcases (attached.inTable_iff a).mp inside with old | rfl
    · exact .inl old
    · exact .inr attached.mem_freelist
  frame a outside used := by
    have short := attached.short
    refine attached.others a ?_ ?_
    · rintro rfl
      exact outside ⟨path, by omega, attached.found⟩
    · rintro rfl
      exact used attached.mem_freelist
  kernelEnd := attached.kernelEnd
  spent a listed := by
    rw [attached.free] at listed
    rcases List.mem_cons.mp listed with rfl | later
    · exact .inr ((attached.inTable_iff a).mpr (.inr rfl))
    · exact .inl later
  pointers := attached.pointers

end

end Attached

/-! ## `walk` -/

variable {β : Type} {post : β → Phys → Prop} {f : Unit → Mem β}

theorem load_bind {f : UInt64 → Mem β}
    (rest : Ensures (f (s.load p)) s post fails) : Ensures (load p >>= f) s post fails := by
  rw [load, bind_assoc]
  exact .get_bind (.pure_bind rest)

theorem memset_bind {c : UInt8}
    (rest : Ensures (f ()) (s.setPage pa (.filled c)) post fails) : Ensures (memset pa c >>= f) s post fails := rest

theorem store_bind {value : UInt64}
    (rest : Ensures (f ()) (s.store p value) post fails) : Ensures (store p value >>= f) s post fails := rest

theorem pte?_of_load :
    pte? (s.ram table) i = if s.load ⟨table, i⟩ &&& pteV ≠ 0 then some (s.load ⟨table, i⟩) else none := rfl

theorem descend_false (table : ℕ) (i : Fin 512) : (descend table i false).run s = .ok (child s.ram table i, s) := by
  rw [child, pte?_of_load, descend]
  by_cases invalid : s.load ⟨table, i⟩ &&& pteV = 0 <;> simp [invalid, load] <;> rfl

theorem descend_true {path : List (Fin 512)} (wf : WellFormed s root) (short : path.length ≤ 1)
    (found : node? (child s.ram) root path = some table) (i : Fin 512) : Ensures (descend table i true) s
    (fun r s' => Grows root s s' ∧ leaf? s'.ram root = leaf? s.ram root ∧ s.supply ≤ s'.supply + 1 ∧
      (r = none → s.supply = 0) ∧ (∀ p a, p.length ≤ 2 → node? (child s.ram) root p = some a →
        node? (child s'.ram) root p = some a) ∧
      ∀ a, r = some a → node? (child s'.ram) root (path ++ [i]) = some a) fails := by
  unfold descend
  refine load_bind ?_
  refine .ite (fun valid => ?_) fun invalid => ?_
  · refine .pure ⟨.refl wf, rfl, Nat.le_succ _, nofun, fun p a _ => id, ?_⟩
    rintro _ ⟨⟩
    rw [node?_concat, found, Option.bind_some, child, pte?_of_load, if_pos valid, Option.map_some]
  · have vacant : pte? (s.ram table) i = none := by rw [pte?_of_load, if_neg invalid]
    refine kalloc_ensures.bind ?_
    rintro (_ | b) s₁ ⟨kernelEnd, supply, failed, taken⟩
    · obtain ⟨same, free, none_left⟩ := failed rfl
      exact .pure
        ⟨.of_same wf same free kernelEnd, by rw [same], supply, fun _ => none_left, by rw [same]; exact fun _ _ _ => id,
        nofun⟩
    · obtain ⟨free, ram⟩ := taken b rfl
      have apart : table ≠ b := by
        rintro rfl
        exact wf.apart table ⟨path, by omega, found⟩ (by rw [free]; exact List.mem_cons_self)
      refine memset_bind (store_bind ?_)
      have attached :
          Attached root path table b i s ((s₁.setPage b (.filled 0)).store ⟨table, i⟩ (pa2pte b ||| pteV)) :=
        ⟨wf, short, found, vacant, free, kernelEnd, by simp [Phys.store, Phys.setPage, apart.symm],
          by simp [Phys.store, Phys.setPage, apart, ram], fun a away other => by
          simp [Phys.store, Phys.setPage, away, other, ram]⟩
      refine .pure ⟨attached.grows, attached.leaf?_eq, supply, nofun, fun p a => attached.node?_old, ?_⟩
      rintro _ ⟨⟩
      exact attached.node?_new

/-- The entry that `walk` finds without allocation. -/
def slot? (ram : ℕ → Page) (root va : ℕ) : Option PtePtr :=
  (node? (child ram) root [px 2 va, px 1 va]).map (⟨·, px 0 va⟩)

theorem walk_false (inside : va < maxva) : (walk root va false).run s = .ok (slot? s.ram root va, s) := by
  have two : node? (child s.ram) root [px 2 va, px 1 va] =
      (child s.ram root (px 2 va)).bind fun middle => child s.ram middle (px 1 va) := by
    simp [node?]
  rw [walk, if_neg (not_le.mpr inside), slot?, two]
  refine Ensures.run_eq (.run_bind (descend_false root _) ?_)
  cases child s.ram root (px 2 va) with
  | none => exact .pure ⟨rfl, rfl⟩
  | some middle =>
    refine .run_bind (descend_false middle _) ?_
    rw [Option.bind_some]
    cases child s.ram middle (px 1 va) with
    | none | some => exact .pure ⟨rfl, rfl⟩

theorem leaf?_path :
    leaf? ram root (path va) = (slot? ram root va).bind fun p => pte? (ram p.table) p.index := by
  rw [leaf?, slot?, Option.bind_map]
  rfl

/-- `walk` makes the page-table pages that are missing, unless there are not two to be had. -/
theorem walk_true (wf : WellFormed s root) : Ensures (walk root va true) s
    (fun r s' => va < maxva ∧ Grows root s s' ∧ leaf? s'.ram root = leaf? s.ram root ∧ s.supply ≤ s'.supply + 2 ∧
      (r = none → s.supply < 2) ∧ ∀ p, r = some p → slot? s'.ram root va = some p)
    (fun e => e = .walk ∧ maxva ≤ va) := by
  unfold walk
  refine .ite (fun outside => .throw ⟨rfl, outside⟩) fun inside => ?_
  refine (descend_true wf (by simp) node?_nil _).bind ?_
  rintro (_ | middle) s₁ ⟨grows, leaf, supply, failed, _, found⟩
  · exact .pure ⟨not_le.mp inside, grows, leaf, by omega, fun _ => by have := failed rfl; omega, nofun⟩
  · refine (descend_true grows.wf (by simp) (found middle rfl) _).bind ?_
    rintro (_ | low) s₂ ⟨grows₁, leaf₁, supply₁, failed₁, _, found₁⟩
    · exact .pure ⟨not_le.mp inside, grows.trans grows₁, leaf₁.trans leaf, by omega,
        fun _ => by have := failed₁ rfl; omega, nofun⟩
    · refine .pure ⟨not_le.mp inside, grows.trans grows₁, leaf₁.trans leaf, by omega, nofun, ?_⟩
      rintro _ ⟨⟩
      rw [slot?, show [px 2 va, px 1 va] = [] ++ [px 2 va] ++ [px 1 va] from rfl, found₁ low rfl]
      rfl

/-! ## `mappages` and `uvmunmap` -/

theorem Grows.store (wf : WellFormed s root) (found : slot? s.ram root va = some p) (value : UInt64) :
    Grows root s (s.store p value) ∧ (∀ v, leaf? (s.store p value).ram root v =
      if v = path va then if value &&& pteV ≠ 0 then some value else none else leaf? s.ram root v) ∧
      (∀ a, InTable (s.store p value).ram root a ↔ InTable s.ram root a) := by
  obtain ⟨low, at_low, rfl⟩ := Option.map_eq_some_iff.mp found
  have inside : InTable s.ram root low := ⟨_, by simp, at_low⟩
  have others (a : ℕ) (away : a ≠ low) : (s.store ⟨low, px 0 va⟩ value).ram a = s.ram a := by
    simp [Phys.store, Phys.setPage, away]
  have nodes (q : List (Fin 512)) (bound : q.length ≤ 2) :
      node? (child (s.store ⟨low, px 0 va⟩ value).ram) root q = node? (child s.ram) root q :=
    wf.unshared.node?_bottom rfl at_low (fun a away => child_congr (others a away)) bound
  have tables (a : ℕ) : InTable (s.store ⟨low, px 0 va⟩ value).ram root a ↔ InTable s.ram root a := by
    constructor <;> rintro ⟨q, bound, at_q⟩ <;> refine ⟨q, bound, ?_⟩
    · rwa [nodes q bound] at at_q
    · rwa [nodes q bound]
  refine ⟨⟨⟨⟨wf.nodup, wf.pages⟩, wf.aligned, ?_, fun a at_a => wf.apart a ((tables a).mp at_a)⟩, List.suffix_rfl,
    fun a => (tables a).mpr, fun a at_a => .inl ((tables a).mp at_a), fun a outside _ => others a ?_, rfl,
    fun _ => .inl,
    fun pointers => ?_⟩, fun v => ?_, tables⟩
  · intro q q' a bound bound' at_q at_q'
    rw [nodes q bound] at at_q
    rw [nodes q' bound'] at at_q'
    exact wf.unshared q q' a bound bound' at_q at_q'
  · rintro rfl
    exact outside inside
  · refine pointers.of_same (fun p short => nodes p (by omega)) fun p a short at_p => others a ?_
    rintro rfl
    have same := wf.unshared p _ a (by omega) (by simp) at_p at_low
    simp [same] at short
  · rw [leaf?, leaf?, nodes _ (by simp)]
    obtain ⟨i, j, k⟩ := v
    cases at_ij : node? (child s.ram) root [i, j] with
    | none =>
      rw [if_neg]
      · rw [Option.bind_none, Option.bind_none]
      rintro ⟨⟩
      cases at_low.symm.trans at_ij
    | some table =>
      rw [Option.bind_some, Option.bind_some]
      rcases eq_or_ne table low with rfl | away
      · -- the same table, so the same first two indices
        obtain ⟨rfl, rfl⟩ : i = px 2 va ∧ j = px 1 va := by
          simpa using wf.unshared _ _ table (by simp) (by simp) at_ij at_low
        rcases eq_or_ne k (px 0 va) with rfl | other
        · rw [if_pos (show (px 2 va, px 1 va, px 0 va) = path va from rfl)]
          simp only [Phys.store, Phys.setPage, Function.update_self]
          exact pte?_setWord64_self _ _ _
        · rw [if_neg fun same => other (by simpa [path] using same)]
          simp only [Phys.store, Phys.setPage, Function.update_self]
          exact pte?_setWord64_of_ne _ _ other
      · rw [others table away, if_neg]
        rintro ⟨⟩
        exact away (Option.some.inj (at_ij.symm.trans at_low))

/-- The entry that `mappages` stores. -/
def leafWord (pa : ℕ) (perm : UInt64) : UInt64 := pa2pte pa ||| perm ||| pteV

theorem leafWord_valid (pa : ℕ) (perm : UInt64) : leafWord pa perm &&& pteV ≠ 0 := or_valid _

theorem load_of_leaf? (found : slot? s.ram root va = some p) :
    leaf? s.ram root (path va) = if s.load p &&& pteV ≠ 0 then some (s.load p) else none := by
  rw [leaf?_path, found, Option.bind_some, pte?_of_load]

/-- One round of `mappages`: it goes on in a state with the new leaf, or stops for lack of a page. -/
theorem mappagesLoop_succ {rounds : ℕ} {post : Bool → Phys → Prop} (wf : WellFormed s root)
    (vacant : a < maxva → leaf? s.ram root (path a) = none) (beyond : maxva ≤ a → fails .walk)
    (stop : ∀ s₁, Grows root s s₁ → leaf? s₁.ram root = leaf? s.ram root → s.supply ≤ s₁.supply + 2 → s.supply < 2 →
      post false s₁)
    (rest : ∀ s₁, a < maxva → Grows root s s₁ →
      (∀ v, leaf? s₁.ram root v = if v = path a then some (leafWord pa perm) else leaf? s.ram root v) →
      s.supply ≤ s₁.supply + 2 → Ensures (mappagesLoop root perm (a + pgsize) (pa + pgsize) rounds) s₁ post fails) :
    Ensures (mappagesLoop root perm a pa (rounds + 1)) s post fails := by
  unfold mappagesLoop
  refine ((walk_true wf).allow ?_).bind ?_
  · rintro _ ⟨rfl, outside⟩
    exact beyond outside
  rintro (_ | p) s₁ ⟨inside, grows, leaf, supply, failed, found⟩
  · exact .pure (stop s₁ grows leaf supply (failed rfl))
  · have slot := found p rfl
    refine load_bind (.ite (fun valid => ?_) fun _ => store_bind ?_)
    · have mapped := load_of_leaf? slot
      rw [leaf, vacant inside, if_pos valid] at mapped
      cases mapped
    · obtain ⟨stored, leaf₁, -⟩ := Grows.store grows.wf slot (leafWord pa perm)
      refine rest _ inside (grows.trans stored) (fun v => ?_) supply
      change leaf? (s₁.store p (leafWord pa perm)).ram root v = _
      rw [leaf₁, leaf, if_pos (leafWord_valid pa perm)]

theorem mappages_page (wf : WellFormed s root) (aligned : va % pgsize = 0)
    (inside : va < maxva) (vacant : leaf? s.ram root (path va) = none) : Ensures (mappages root va pgsize pa perm) s
    (fun done s' => Grows root s s' ∧ s.supply ≤ s'.supply + 2 ∧
      (∀ v, leaf? s'.ram root v = if done = true ∧ v = path va then some (leafWord pa perm) else leaf? s.ram root v) ∧
      (done = false → s.supply < 2)) fails := by
  unfold mappages
  rw [if_neg (not_not.mpr aligned)]
  refine .ite (fun wrong => absurd rfl wrong) fun _ => .ite (fun zero => absurd zero (by decide)) fun _ => ?_
  refine mappagesLoop_succ wf (fun _ => vacant) (fun outside => absurd inside (not_lt.mpr outside)) ?_ ?_
  · exact fun s₁ grows leaf supply failed => ⟨grows, supply, fun v => by rw [leaf, if_neg (by simp)], fun _ => failed⟩
  · intro s₁ _ grows leaf supply
    exact .pure ⟨grows, supply, fun v => by rw [leaf]; simp, nofun⟩

theorem within_one_iff {v : Fin 512 × Fin 512 × Fin 512} (aligned : a % pgsize = 0) (inside : a < maxva) :
    Within a 1 v ↔ v = path a := by
  rw [within_one aligned, eq_path_iff aligned inside]

/-- The leaves of a range refer to pages that can be freed: pages of the memory that `kalloc` manages, which
are not free and not in the table, each mapped once. -/
structure Freeable (s : Phys) (root a npages : ℕ) : Prop where
  pages : ∀ v w, Within a npages v → leaf? s.ram root v = some w →
    s.kernelEnd ≤ pte2pa w ∧ pte2pa w < phystop ∧ ¬ InTable s.ram root (pte2pa w) ∧ pte2pa w ∉ s.freelist
  distinct : ∀ v v' w w', Within a npages v → Within a npages v' → leaf? s.ram root v = some w →
    leaf? s.ram root v' = some w' → pte2pa w = pte2pa w' → v = v'

/-- What `uvmunmap` does. -/
structure Shrinks (root a npages : ℕ) (s s' : Phys) : Prop where
  wf : WellFormed s' root
  leaf : ∀ v, leaf? s'.ram root v = if Within a npages v then none else leaf? s.ram root v
  tables : ∀ x, InTable s'.ram root x ↔ InTable s.ram root x
  freed : ∀ x ∈ s'.freelist, x ∈ s.freelist ∨ ∃ v w, Within a npages v ∧ leaf? s.ram root v = some w ∧ pte2pa w = x
  frame : ∀ x, ¬ InTable s.ram root x → x ∉ s'.freelist → s'.ram x = s.ram x
  kernelEnd : s'.kernelEnd = s.kernelEnd
  kept : ∀ x ∈ s.freelist, x ∈ s'.freelist
  pointers : Pointers s.ram root → Pointers s'.ram root

theorem Phys.setPage_of_ne (other : a ≠ pa) : (s.setPage pa page).ram a = s.ram a :=
  Function.update_of_ne other _ _

theorem Phys.setPage_self : (s.setPage pa page).ram pa = page := Function.update_self ..

theorem Phys.kfree_of_ne (other : a ≠ pa) : (s.kfree pa).ram a = s.ram a := by
  rw [Phys.kfree]
  exact setPage_of_ne other

/-- Freeing a page leaves a table alone that it is not part of. -/
theorem WellFormed.kfree (wf : WellFormed s root) (aligned : pa % pgsize = 0) (low : s.kernelEnd ≤ pa)
    (high : pa < phystop) (outside : ¬ InTable s.ram root pa) (used : pa ∉ s.freelist) :
    WellFormed (s.kfree pa) root ∧ ∀ a, InTable s.ram root a → (s.kfree pa).ram a = s.ram a := by
  have same (a : ℕ) (inside : InTable s.ram root a) : (s.kfree pa).ram a = s.ram a := by
    refine Phys.kfree_of_ne ?_
    rintro rfl
    exact outside inside
  refine ⟨wf.of_same ⟨List.nodup_cons.mpr ⟨used, wf.nodup⟩, fun a listed => ?_⟩ same fun a inside listed => ?_, same⟩
  · rcases List.mem_cons.mp listed with rfl | old
    · exact ⟨aligned, low, high⟩
    · exact wf.pages a old
  · rcases List.mem_cons.mp listed with rfl | old
    · exact outside inside
    · exact wf.apart a inside old

theorem kfree_run (aligned : pa % pgsize = 0) (low : s.kernelEnd ≤ pa) (high : pa < phystop) :
    (kfree pa).run s = .ok ((), s.kfree pa) := by
  unfold kfree
  rw [StateT.run_bind]
  change StateT.run (if pa % pgsize ≠ 0 ∨ pa < s.kernelEnd ∨ phystop ≤ pa then _ else _) s = _
  rw [if_neg (by omega)]
  rfl

/-- One round of `uvmunmap`: the page is freed, and the leaf removed. -/
theorem Freeable.step {w : UInt64} (wf : WellFormed s root)
    (freeable : Freeable s root a (npages + 1)) (aligned : a % pgsize = 0) (inside : a < maxva)
    (slot : slot? s.ram root a = some p) (found : leaf? s.ram root (path a) = some w) :
    Shrinks root a 1 s ((s.kfree (pte2pa w)).store p 0) ∧
      Freeable ((s.kfree (pte2pa w)).store p 0) root (a + pgsize) npages := by
  have here : Within a (npages + 1) (path a) := (within_succ aligned).mpr (.inl (vaddr_path aligned inside))
  obtain ⟨low, high, outside, used⟩ := freeable.pages _ w here found
  obtain ⟨wf₁, same⟩ := wf.kfree (pte2pa_mod w) low high outside used
  have top (pointers : Pointers s.ram root) : Pointers (s.kfree (pte2pa w)).ram root :=
    pointers.of_same (fun p short => node?_same same (by omega)) fun p a short at_p => same a ⟨p, by omega, at_p⟩
  have slot₁ : slot? (s.kfree (pte2pa w)).ram root a = some p := by
    rw [slot?, node?_same same (by simp)]
    exact slot
  obtain ⟨stored, leaf, tables⟩ := Grows.store wf₁ slot₁ 0
  have tables' (x : ℕ) : InTable ((s.kfree (pte2pa w)).store p 0).ram root x ↔ InTable s.ram root x :=
    (tables x).trans (inTable_same same)
  have leaf' (v) : leaf? ((s.kfree (pte2pa w)).store p 0).ram root v = if v = path a then
      none else leaf? s.ram root v := by
    rw [leaf, leaf?_same same]
    rfl
  refine ⟨⟨stored.wf, fun v => ?_, tables', fun x listed => ?_, fun x away free => ?_, rfl, fun x listed =>
    List.mem_cons_of_mem _ listed, fun pointers => stored.pointers (top pointers)⟩, ?_, ?_⟩
  · rw [leaf', if_congr (within_one_iff aligned inside) rfl rfl]
  · rcases List.mem_cons.mp listed with rfl | old
    · exact .inr ⟨path a, w, (within_one_iff aligned inside).mpr rfl, found, rfl⟩
    · exact .inl old
  · rw [stored.frame x (fun inside => away ((inTable_same same).mp inside)) free]
    refine Phys.kfree_of_ne ?_
    rintro rfl
    exact free List.mem_cons_self
  · intro v w' within mapped
    rw [leaf'] at mapped
    split_ifs at mapped with first
    have old : Within a (npages + 1) v := (within_succ aligned).mpr (.inr within)
    obtain ⟨low', high', outside', used'⟩ := freeable.pages v w' old mapped
    refine ⟨low', high', fun inside => outside' ((tables' _).mp inside), fun listed => ?_⟩
    rcases List.mem_cons.mp listed with same_page | listed
    · exact first (freeable.distinct v _ w' w old here mapped found same_page)
    · exact used' listed
  · intro v v' w₁ w₂ within within' mapped mapped' same_page
    rw [leaf'] at mapped mapped'
    split_ifs at mapped mapped'
    exact freeable.distinct v v' w₁ w₂ ((within_succ aligned).mpr (.inr within))
      ((within_succ aligned).mpr (.inr within'))
      mapped mapped' same_page

theorem Freeable.tail (freeable : Freeable s root a (npages + 1)) (aligned : a % pgsize = 0) :
    Freeable s root (a + pgsize) npages where
  pages v w within := freeable.pages v w ((within_succ aligned).mpr (.inr within))
  distinct v v' w w' within within' := freeable.distinct v v' w w' ((within_succ aligned).mpr (.inr within))
    ((within_succ aligned).mpr (.inr within'))

theorem Shrinks.skip (wf : WellFormed s root) (aligned : a % pgsize = 0) (inside : a < maxva)
    (vacant : leaf? s.ram root (path a) = none) : Shrinks root a 1 s s where
  wf := wf
  leaf v := by
    split_ifs with within
    · rw [(within_one_iff aligned inside).mp within, vacant]
    · rfl
  tables _ := Iff.rfl
  freed _ := .inl
  frame _ _ _ := rfl
  kernelEnd := rfl
  kept _ := id
  pointers := id

theorem Shrinks.clear (wf : WellFormed s root) (aligned : a % pgsize = 0) (inside : a < maxva)
    (slot : slot? s.ram root a = some p) : Shrinks root a 1 s (s.store p 0) := by
  obtain ⟨stored, leaf, tables⟩ := Grows.store wf slot 0
  refine ⟨stored.wf, fun v => ?_, tables, fun _ => .inl, fun x away free => stored.frame x away free, rfl, fun _ => id,
    stored.pointers⟩
  rw [leaf, if_congr (within_one_iff aligned inside) rfl rfl]
  rfl

theorem Shrinks.cons (aligned : a % pgsize = 0) (first : Shrinks root a 1 s s')
    (rest : Shrinks root (a + pgsize) npages s' s'') : Shrinks root a (npages + 1) s s'' := by
  have split (v) : Within a (npages + 1) v ↔ Within a 1 v ∨ Within (a + pgsize) npages v := by
    rw [within_succ aligned, within_one aligned]
  refine ⟨rest.wf, fun v => ?_, fun x => (rest.tables x).trans (first.tables x), fun x listed => ?_,
    fun x away free => ?_, rest.kernelEnd.trans first.kernelEnd, fun x listed => rest.kept x (first.kept x listed),
    fun pointers => rest.pointers (first.pointers pointers)⟩
  · rw [rest.leaf, first.leaf, if_congr (split v) rfl rfl]
    split_ifs <;> simp_all
  · rcases rest.freed x listed with before | ⟨v, w, within, mapped, same⟩
    · rcases first.freed x before with old | ⟨v, w, within, mapped, same⟩
      · exact .inl old
      · exact .inr ⟨v, w, (split v).mpr (.inl within), mapped, same⟩
    · rw [first.leaf] at mapped
      split_ifs at mapped
      exact .inr ⟨v, w, (split v).mpr (.inr within), mapped, same⟩
  · rw [rest.frame x (fun inside => away ((first.tables x).mp inside)) free,
      first.frame x away fun listed => free (rest.kept x listed)]

/-- The pages of the range have become free, or none has. -/
structure Unmaps (root a npages : ℕ) (doFree : Bool) (s s' : Phys) : Prop extends Shrinks root a npages s s' where
  released : doFree = true → ∀ v w, Within a npages v → leaf? s.ram root v = some w → pte2pa w ∈ s'.freelist
  unfreed : doFree = false → s'.freelist = s.freelist

theorem Unmaps.nothing (wf : WellFormed s root) : Unmaps root a 0 doFree s s := by
  refine ⟨⟨wf, fun v => ?_, fun _ => Iff.rfl, fun _ => .inl, fun _ _ _ => rfl, rfl, fun _ => id, id⟩,
    fun _ v _ within => absurd within (not_within_zero a v), fun _ => rfl⟩
  rw [if_neg (not_within_zero a v)]

theorem Unmaps.cons (aligned : a % pgsize = 0) (first : Unmaps root a 1 doFree s s')
    (rest : Unmaps root (a + pgsize) npages doFree s' s'') : Unmaps root a (npages + 1) doFree s s'' where
  toShrinks := first.toShrinks.cons aligned rest.toShrinks
  released free v w within found := by
    by_cases here : Within a 1 v
    · exact rest.kept _ (first.released free v w here found)
    · refine rest.released free v w ?_ (by rw [first.leaf, if_neg here, found])
      rw [within_succ aligned, ← within_one aligned] at within
      exact within.resolve_left here
  unfreed keep := (rest.unfreed keep).trans (first.unfreed keep)

theorem uvmunmapLoop_ensures (rounds : ℕ) (doFree : Bool) (wf : WellFormed s root) (aligned : a % pgsize = 0)
    (freeable : doFree = true → Freeable s root a rounds) : Ensures (uvmunmapLoop root doFree a rounds) s
    (fun _ s' => Unmaps root a rounds doFree s s') (fun e => e = .walk ∧ maxva < a + rounds * pgsize) := by
  induction rounds generalizing s a with
  | zero => exact .pure (.nothing wf)
  | succ rounds ih =>
    have next : (a + pgsize) % pgsize = 0 := by rw [Nat.add_mod_right, aligned]
    have rest (s₁ : Phys) (first : Unmaps root a 1 doFree s s₁) (freeable₁ : doFree = true →
        Freeable s₁ root (a + pgsize) rounds) :
        Ensures (uvmunmapLoop root doFree (a + pgsize) rounds) s₁ (fun _ s' => Unmaps root a (rounds + 1) doFree s s')
          (fun e => e = .walk ∧ maxva < a + (rounds + 1) * pgsize) := by
      refine ((ih first.wf next freeable₁).mono fun _ s₂ later => first.cons aligned later).allow ?_
      rintro _ ⟨rfl, outside⟩
      rw [Nat.succ_mul]
      exact ⟨rfl, by omega⟩
    rcases lt_or_ge a maxva with inside | outside
    · unfold uvmunmapLoop
      refine .run_bind (walk_false inside) ?_
      have skip (vacant : leaf? s.ram root (path a) = none) := by
        refine rest s ⟨.skip wf aligned inside vacant, fun _ v w within found => ?_, fun _ => rfl⟩
          fun free => (freeable free).tail aligned
        rw [(within_one_iff aligned inside).mp within, vacant] at found
        cases found
      cases slot : slot? s.ram root a with
      | none => exact skip (by rw [leaf?_path, slot]; rfl)
      | some p =>
        have leaf := load_of_leaf? slot
        refine load_bind (.ite (fun invalid => ?_) fun valid => ?_)
        · exact skip (by rw [leaf, if_neg (not_not.mpr invalid)])
        rw [if_pos valid] at leaf
        cases doFree with
        | false => exact store_bind (rest _ ⟨.clear wf aligned inside slot, by rintro ⟨⟩, fun _ => rfl⟩ nofun)
        | true =>
          obtain ⟨low, high, -, -⟩ :=
            (freeable rfl).pages _ _ ((within_succ aligned).mpr (.inl (vaddr_path aligned inside))) leaf
          obtain ⟨shrinks, freeable₁⟩ := (freeable rfl).step wf aligned inside slot leaf
          refine .run_bind (kfree_run (pte2pa_mod _) low high)
            (store_bind (rest _ ⟨shrinks, fun _ v w within found => ?_, by rintro ⟨⟩⟩ fun _ => freeable₁))
          rw [(within_one_iff aligned inside).mp within, leaf] at found
          cases found
          exact List.mem_cons_self
    · unfold uvmunmapLoop walk
      rw [if_pos outside]
      have := Nat.succ_mul rounds pgsize
      refine Ensures.throw (ε := Panic) ⟨rfl, ?_⟩
      unfold pgsize at *
      omega

theorem uvmunmap_ensures (doFree : Bool) (wf : WellFormed s root) (aligned : va % pgsize = 0)
    (bound : va + npages * pgsize ≤ maxva) (freeable : doFree = true → Freeable s root va npages) :
    Ensures (uvmunmap root va npages doFree) s (fun _ s' => Unmaps root va npages doFree s s') fails := by
  have fits : va + npages * pgsize < UInt64.size := bound.trans_lt (by decide)
  have rounds : ((va + npages * pgsize) % UInt64.size - va) / pgsize = npages := by
    rw [Nat.mod_eq_of_lt fits, Nat.add_sub_cancel_left, Nat.mul_div_cancel _ (by decide)]
  unfold uvmunmap
  rw [if_neg (not_not.mpr aligned), rounds]
  exact (uvmunmapLoop_ensures npages doFree wf aligned freeable).allow fun _ panic => absurd panic.2 (not_lt.mpr bound)

end Xv6.Sv39
