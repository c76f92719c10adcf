import Xv6.Proofs.Vm.Image

/-! # Loading a program

`procPagetable` makes an empty image. The loop over the program headers extends it, and fills its pages with bytes
of the file, whatever the headers say. What the file has to be for that to succeed is stated without memory.
-/

namespace Xv6.Sv39

open Machine
open Vm (pgsize maxva pgroundup path vaddr Within Kept)

variable {base s s' s'' : Phys} {root sz : ℕ} {fails : Panic → Prop}

/-! ## `procPagetable` -/

/-- The pages of the trampoline and of the trapframe: one of the kernel, and one that is in use. -/
structure Fixed (s : Phys) (trampoline frame : ℕ) : Prop where
  aligned : trampoline % pgsize = 0
  nonzero : trampoline ≠ 0
  kernel : trampoline < s.kernelEnd
  memory : trampoline < phystop
  managed : Managed s.kernelEnd frame
  used : frame ∉ s.freelist

theorem Image.fresh (free : Free base) (kernel : 0 < base.kernelEnd) (taken : Taken root base s)
    (zero : s.ram root = .filled 0) :
    Image base root 0 s := by
  obtain ⟨aligned, -, -⟩ := free.pages root taken.mem_freelist
  have pages : Free s := by
    refine ⟨(List.nodup_cons.mp (taken.free ▸ free.nodup)).2, fun a listed => ?_⟩
    rw [taken.kernelEnd]
    exact free.pages a (taken.of_mem listed)
  have bare {v w} : leaf? s.ram root v ≠ some w := by
    rw [leaf?_zeroed zero]
    exact nofun
  refine ⟨⟨.zeroed pages aligned zero (taken.not_listed free), taken.kernelEnd.symm ▸ kernel,
    fun v w found => absurd found bare,
    fun v v' w w' found => absurd found bare⟩, free, fun p t i w short at_p found => ?_, taken.kernelEnd, fun a => ?_,
    fun a other => taken.others a ?_, fun v w _ found => absurd found bare,
    fun v _ low => absurd low (Nat.not_lt_zero _),
    fun v w _ found => absurd found bare⟩
  · rw [(node?_zeroed zero at_p).2, zero, pte?_zero] at found
    cases found
  · rw [taken.free, List.mem_cons, or_comm]
    refine or_congr_right ⟨?_, ?_⟩
    · rintro rfl
      exact .inl ⟨[], Nat.zero_le _, node?_nil⟩
    · rintro (inside | ⟨v, w, -, found, -⟩)
      · exact inTable_zeroed zero inside
      · exact absurd found bare
  · rintro rfl
    exact other taken.mem_freelist

theorem uvmcreate_ensures (free : Free base) (kernel : 0 < base.kernelEnd) : Ensures uvmcreate base (fun r s' =>
    (r = none → Frees (fun _ => False) base s' ∧ base.supply = 0) ∧
    ∀ root, r = some root → Image base root 0 s' ∧ (∀ v, leaf? s'.ram root v = none) ∧ base.supply ≤ s'.supply +
    1) fails := by
  unfold uvmcreate
  refine kalloc_ensures.bind ?_
  rintro (_ | root) s₁ ⟨kernelEnd, supply, failed, allocated⟩
  · obtain ⟨ram, same, none_left⟩ := failed rfl
    refine .pure ⟨fun _ => ⟨⟨⟨same ▸ free.nodup, ?_⟩, kernelEnd, fun a => ?_, fun a _ => by rw [ram]⟩,
      none_left⟩, by rintro _ ⟨⟩⟩
    · rw [same, kernelEnd]
      exact free.pages
    · rw [same, or_false]
  · obtain ⟨list, ram⟩ := allocated root rfl
    have taken : Taken root base (s₁.setPage root (.filled 0)) := ⟨list, fun a other => by
      simp [Phys.setPage, ram, other], kernelEnd⟩
    refine memset_bind (.pure ⟨by rintro ⟨⟩, ?_⟩)
    rintro _ ⟨⟩
    exact ⟨.fresh free kernel taken Phys.setPage_self, leaf?_zeroed Phys.setPage_self, supply⟩

theorem procPagetable_ensures {trampoline frame : ℕ} (free : Free base) (fixed : Fixed base trampoline frame) :
    Ensures (procPagetable trampoline frame) base (fun r s' => (r = none → Frees (fun _ => False) base s' ∧
      base.supply < 5) ∧ ∀ root, r = some root → Image base root 0 s' ∧ base.supply ≤ s'.supply + 5 ∧
        ∀ v w, Kept v → leaf? s'.ram root v = some w → pte2pa w = trampoline ∨ pte2pa w = frame) fails := by
  have paths : path Vm.trapframe ≠ path Vm.trampoline := by decide
  have first_page : pte2pa (leafWord trampoline (pteR ||| pteX)) = trampoline :=
    leafWord_page fixed.aligned fixed.memory (by decide)
  obtain ⟨frame_aligned, frame_low, frame_high⟩ := fixed.managed
  have second_page : pte2pa (leafWord frame (pteR ||| pteW)) = frame :=
    leafWord_page frame_aligned frame_high (by decide)
  have outside : trampoline ∉ base.freelist := fun listed => absurd (free.pages _ listed).2.1 (not_le.mpr fixed.kernel)
  unfold procPagetable
  refine (uvmcreate_ensures free ((Nat.zero_le _).trans_lt fixed.kernel)).bind ?_
  rintro (_ | root) s₂ ⟨failed, created⟩
  · obtain ⟨same, none_left⟩ := failed rfl
    exact .pure ⟨fun _ => ⟨same, by omega⟩, by rintro _ ⟨⟩⟩
  obtain ⟨image, bare, supply⟩ := created root rfl
  refine (mappages_page image.toWellFormed (by decide) (by decide) (bare _)).bind ?_
  rintro done s₃ ⟨grows, supply₃, leaf, few⟩
  have image₃ :=
    image.mapKept (.inl rfl) grows (bare _) leaf (first_page.symm ▸ outside) (first_page.symm ▸ fixed.nonzero)
    (fun v w found => by cases (bare v).symm.trans found)
      ((leafWord_mask fixed.memory (by decide) (by decide)).trans (by decide))
  cases done with
  | false =>
    have none_there (v) (_ : Kept v) : leaf? s₃.ram root v = none := by rw [leaf, if_neg (by simp), bare]
    refine ((image₃.resident.uvmfree (.refl image₃.toWellFormed none_there)).bind fun _ s₄ frees => .pure
      ⟨fun _ => ⟨image₃.restored frees, ?_⟩, by rintro _ ⟨⟩⟩)
    have := few rfl
    omega
  | true =>
    have vacant : leaf? s₃.ram root (path Vm.trapframe) = none := by rw [leaf, if_neg (fun here => paths here.2), bare]
    refine (mappages_page image₃.toWellFormed (by decide) (by decide) vacant).bind ?_
    rintro done s₄ ⟨grows₄, supply₄, leaf₄, few₄⟩
    have image₄ := image₃.mapKept (.inr rfl) grows₄ vacant leaf₄ (second_page.symm ▸ fixed.used) (by
      have := fixed.kernel
      omega) (fun v w found => by
        rw [leaf] at found
        split_ifs at found
        · cases found
          rw [first_page, second_page]
          have := fixed.kernel
          omega
        · cases (bare v).symm.trans found)
      ((leafWord_mask frame_high (by decide) (by decide)).trans (by decide))
    cases done with
    | false =>
      have still : leaf? s₄.ram root (path Vm.trapframe) = none := by rw [leaf₄, if_neg (by simp), vacant]
      refine (uvmunmap_ensures false image₄.toWellFormed (by decide) (by decide) nofun).bind fun _ s₅ unmaps => ?_
      refine ((image₄.resident.uvmfree (.one unmaps still)).bind fun _ s₆ frees => .pure
        ⟨fun _ => ⟨image₄.restored frees, ?_⟩, by rintro _ ⟨⟩⟩)
      have := few₄ rfl
      omega
    | true =>
      refine .pure ⟨by rintro ⟨⟩, ?_⟩
      rintro _ ⟨⟩
      refine ⟨image₄, by omega, fun v w _ found => ?_⟩
      rw [leaf₄] at found
      split_ifs at found
      · cases found
        exact .inr second_page
      · rw [leaf] at found
        split_ifs at found
        · cases found
          exact .inl first_page
        · cases (bare v).symm.trans found

/-! ## Writes to pages of the user -/

theorem Image.fills (image : Image base root sz s) (fills : Fills root s s') : Image base root sz s' := by
  have same := fills.tables image.toSpace
  have leaf := fills.leaf image.toSpace
  refine ⟨fills.space image.toSpace, image.origin, ?_, fills.kernelEnd.trans image.sameEnd, fun a => ?_,
    fun a other => ?_, ?_, ?_, ?_⟩
  · exact image.pointers.of_same (fun p short => node?_same same (by omega)) fun p a short at_p =>
      same a ⟨p, by omega, at_p⟩
  · rw [image.conserved, fills.freelist, Holds, Holds, leaf, inTable_same same]
  · rw [fills.frame a, image.unchanged a other]
    rintro v w found user rfl
    refine other (image.of_page (fun kept => ?_) found)
    exact user (image.kernelOnly v w kept found)
  · rw [leaf]
    exact image.below
  · rw [leaf]
    exact image.full
  · rw [leaf]
    exact image.kernelOnly

/-- The user may access all pages below the size. -/
def Open (s : Phys) (root sz : ℕ) : Prop :=
  ∀ v w, vaddr v < pgroundup sz → leaf? s.ram root v = some w → w &&& pteU ≠ 0

theorem Open.allocated {sz' : ℕ} {xperm : UInt64} (all : Open s root sz)
    (allocated : Allocated root (pgroundup sz) (pgroundup sz') (pteR ||| pteU ||| xperm) s s') : Open s' root sz' := by
  intro v w low found
  by_cases new : pgroundup sz ≤ vaddr v
  · obtain ⟨mem, there⟩ := allocated.new v new low
    cases there.symm.trans found
    refine leafWord_and ?_
    rw [UInt64.or_comm]
    exact or_and_ne_zero (or_and_ne_zero (by decide))
  · rw [allocated.old v (by omega)] at found
    exact all v w (not_le.mp new) found

/-! ## Segments -/

/-- Every page of a segment can be read from the file. -/
def segmentReads (file : List UInt8) (offset sz i : UInt32) : (rounds : ℕ) → Bool
  | 0 => false
  | rounds + 1 =>
      if sz ≤ i then true
      else
        let n := if sz - i < 4096 then sz - i else 4096
        decide ((readi file (offset + i) n).length = n.toNat) && segmentReads file offset sz (i + 4096) rounds

variable {va : ℕ} {file : List UInt8} {offset size off : UInt32}

theorem loadsegLoop_ensures (rounds : ℕ) {i : UInt32} (image : Image base root sz s)
    (all : Open s root sz) (aligned : va % pgsize = 0) (fits : va + size.toNat ≤ sz) (start : i.toNat % 4096 = 0)
    (close : i.toNat < size.toNat + 4096) (enough : size.toNat + 4096 ≤ i.toNat + rounds * 4096) :
    Ensures (loadsegLoop root va file offset size i rounds) s
      (fun done s' => Fills root s s' ∧ done = segmentReads file offset size i rounds) fails := by
  induction rounds generalizing s i with
  | zero => omega
  | succ rounds ih =>
    unfold loadsegLoop segmentReads
    refine .ite (fun ended => ?_) fun more => ?_
    · rw [if_pos ended]
      exact .pure ⟨.refl, rfl⟩
    rw [if_neg more]
    have inside : i.toNat < size.toNat := UInt32.lt_iff_toNat_lt.mp (UInt32.not_le.mp more)
    have small := image.small
    have le := Vm.le_pgroundup sz
    have bounds : phystop < maxva ∧ phystop + 4096 < UInt32.size ∧ maxva < UInt64.size := by decide
    have next : (i + 4096).toNat = i.toNat + 4096 := by
      rw [UInt32.toNat_add]
      exact Nat.mod_eq_of_lt (show i.toNat + 4096 < UInt32.size by omega)
    -- the page is mapped, since the image has no holes
    have page : vaddr (path (va + i.toNat)) = va + i.toNat := Vm.vaddr_path (by unfold pgsize at *; omega) (by omega)
    have low : vaddr (path (va + i.toNat)) < pgroundup sz := by omega
    obtain ⟨w, found⟩ := Option.ne_none_iff_exists'.mp (image.full _ (image.not_kept low) low)
    have user := all _ w low found
    have walked : (walkaddr root (va + i.toNat)).run s = _ := walkaddr_run (va + i.toNat)
    rw [if_neg (by omega), found, Option.bind_some, if_neg user, nonnull, if_neg (image.mapped _ w found).1] at walked
    rw [Nat.mod_eq_of_lt (show va + i.toNat < UInt64.size by omega)]
    refine .run_bind walked (.modify_bind ?_)
    generalize (if size - i < 4096 then size - i else 4096) = n
    dsimp only
    generalize readi file (offset + i) n = bytes
    have filled : Fills root s (s.setPage (pte2pa w) ((s.ram (pte2pa w)).write 0 bytes)) := .page found user _
    generalize s.setPage (pte2pa w) ((s.ram (pte2pa w)).write 0 bytes) = s₁ at *
    refine .ite (fun short => ?_) fun complete => ?_
    · exact .pure ⟨filled, by rw [decide_eq_false short, Bool.false_and]⟩
    · have open₁ : Open s₁ root sz := by
        unfold Open
        rw [filled.leaf image.toSpace]
        exact all
      refine (ih (image.fills filled) open₁ (by omega) (by omega) (by omega)).mono ?_
      rintro done s₂ ⟨rest, outcome⟩
      exact ⟨filled.trans image.toSpace rest, by rw [decide_eq_true (not_not.mp complete), Bool.true_and, outcome]⟩

theorem loadseg_ensures (image : Image base root sz s)
    (all : Open s root sz) (aligned : va % pgsize = 0) (fits : va + size.toNat ≤ sz) :
    Ensures (loadseg root va file offset size) s
      (fun done s' => Fills root s s' ∧ done = segmentReads file offset size 0 (2 ^ 20 + 1)) fails := by
  have bound := size.toNat_lt
  exact loadsegLoop_ensures (2 ^ 20 + 1) image all aligned fits rfl (by simp) (by simp; omega)

/-! ## Program headers -/

theorem le_lt (bytes : List UInt8) : le bytes < 256 ^ bytes.length := by
  induction bytes with
  | nil => exact Nat.one_pos
  | cons b rest ih =>
    have byte := b.toNat_lt
    rw [le, List.foldr_cons, ← le, List.length_cons, pow_succ]
    omega

theorem field_lt (bytes : List UInt8) (off size : ℕ) : field bytes off size < 256 ^ size := by
  refine (le_lt _).trans_le (Nat.pow_le_pow_right (by decide) ?_)
  rw [List.length_take]
  exact Nat.min_le_left _ _

theorem flags2perm_lt (flags : ℕ) : (pteR ||| pteU ||| flags2perm flags).toNat < 1024 := by
  unfold flags2perm
  split_ifs <;> decide

/-- The size of the image after the program headers, unless one of them is refused or cannot be read. -/
def programSize (file : List UInt8) (off : UInt32) (sz : ℕ) : (headers : ℕ) → Option ℕ
  | 0 => some sz
  | headers + 1 =>
      let bytes := readi file off 56
      let ph := Proghdr.decode bytes
      if bytes.length ≠ 56 then none
      else if ph.type ≠ elfProgLoad then programSize file (off + 56) sz headers
      else if ph.memsz < ph.filesz ∨ UInt64.size ≤ ph.vaddr + ph.memsz ∨ ph.vaddr % pgsize ≠ 0 then none
      else if max sz (ph.vaddr + ph.memsz) = 0 then none
      else if segmentReads file (UInt32.ofNat ph.off) (UInt32.ofNat ph.filesz) 0 (2 ^ 20 + 1) then
        programSize file (off + 56) (max sz (ph.vaddr + ph.memsz)) headers
      else none

theorem le_programSize {headers final : ℕ} (found : programSize file off sz headers = some final) :
    sz ≤ final := by
  induction headers generalizing off sz with
  | zero => exact (Option.some.inj found).le
  | succ headers ih =>
    unfold programSize at found
    dsimp only at found
    split_ifs at found
    · exact ih found
    · exact (le_max_left _ _).trans (ih found)

/-- The headers are loaded as far as the memory goes. -/
structure Loaded (base : Phys) (root sz : ℕ) (target : Option ℕ) (s : Phys) (r : ℕ × Bool) (s' : Phys) : Prop where
  image : Image base root r.1 s'
  all : r.2 = true → Open s' root r.1
  size : r.2 = true → target = some r.1
  supply : r.2 = true → s.supply + 3 * pageCount sz ≤ s'.supply + 3 * pageCount r.1
  failed : r.2 = false → ∀ final, target = some final → s.supply + 3 * pageCount sz < 3 * pageCount final
  top : r.2 = true → ∀ v, Kept v → leaf? s'.ram root v = leaf? s.ram root v

theorem Loaded.refused {target : Option ℕ} (image : Image base root sz s) (none_there : target = none) :
    Loaded base root sz target s (sz, false) s where
  image := image
  all := by rintro ⟨⟩
  size := by rintro ⟨⟩
  supply := by rintro ⟨⟩
  failed _ final found := by cases none_there.symm.trans found
  top := by rintro ⟨⟩

theorem pageCount_mono {a b : ℕ} (le : a ≤ b) : pageCount a ≤ pageCount b := Nat.div_le_div_right (Vm.pgroundup_mono le)

theorem loadSegments_ensures (headers : ℕ) (image : Image base root sz s) (all : Open s root sz) :
    Ensures (loadSegments root file off sz headers) s
    (Loaded base root sz (programSize file off sz headers) s) fails := by
  induction headers generalizing s off sz with
  | zero => exact .pure ⟨image, fun _ => all, fun _ => rfl, fun _ => le_rfl, by rintro ⟨⟩, fun _ _ _ => rfl⟩
  | succ headers ih =>
    unfold loadSegments programSize
    dsimp only
    have vaddr_lt : (Proghdr.decode (readi file off 56)).vaddr < UInt64.size := field_lt _ 16 8
    have memsz_lt : (Proghdr.decode (readi file off 56)).memsz < UInt64.size := field_lt _ 40 8
    generalize Proghdr.decode (readi file off 56) = ph at *
    refine .ite (fun short => .pure (.refused image (if_pos short))) fun complete => ?_
    rw [if_neg complete]
    refine .ite (fun other => ?_) fun load => ?_
    · rw [if_pos other]
      exact ih image all
    rw [if_neg load]
    refine .ite (fun large => .pure (.refused image (if_pos (.inl large)))) fun fits => ?_
    -- the sum has wrapped around just when it is less than one of the terms
    have wraps : (ph.vaddr + ph.memsz) % UInt64.size < ph.vaddr ↔ UInt64.size ≤ ph.vaddr + ph.memsz := by
      unfold UInt64.size at *
      omega
    refine .ite (fun wrapped => .pure (.refused image (if_pos (.inr (.inl (wraps.mp wrapped)))))) fun straight => ?_
    have sum : (ph.vaddr + ph.memsz) % UInt64.size = ph.vaddr + ph.memsz :=
      Nat.mod_eq_of_lt (not_le.mp (mt wraps.mpr straight))
    refine .ite (fun unaligned => .pure (.refused image (if_pos (.inr (.inr unaligned))))) fun aligned => ?_
    rw [if_neg (by simpa using ⟨not_lt.mp fits, not_le.mp (mt wraps.mpr straight), not_not.mp aligned⟩), sum]
    have within : ph.vaddr + ph.filesz ≤ ph.vaddr + ph.memsz := by omega
    generalize ph.vaddr + ph.memsz = newsz at *
    refine (uvmalloc_ensures image (flags2perm_lt _)).bind ?_
    rintro r s₁ ⟨stopped, finished⟩
    refine .ite (fun zero => .pure ?_) fun grown => ?_
    · obtain ⟨image₁, few⟩ := stopped zero
      refine ⟨image₁, by rintro ⟨⟩, by rintro ⟨⟩, by rintro ⟨⟩, fun _ final found => ?_, by rintro ⟨⟩⟩
      split_ifs at found with nothing
      have := pageCount_mono ((le_max_right _ _).trans (le_programSize found))
      omega
    obtain ⟨rfl, image₁, left, allocated⟩ := finished grown
    rw [if_neg grown]
    have open₁ := all.allocated allocated
    have size : (UInt32.ofNat ph.filesz).toNat ≤ ph.filesz := by
      rw [UInt32.toNat_ofNat']
      exact Nat.mod_le _ _
    refine (loadseg_ensures image₁ open₁ (not_not.mp aligned) (by omega)).bind ?_
    rintro _ s₂ ⟨fills, rfl⟩
    have image₂ := image₁.fills fills
    have same := fills.supply
    refine .ite (fun reads => ?_) fun stops => .pure ?_
    · have open₂ : Open s₂ root (max sz newsz) := by
        unfold Open
        rw [fills.leaf image₁.toSpace]
        exact open₁
      rw [if_pos reads]
      refine (ih image₂ open₂).mono fun r s₃ loaded => ⟨loaded.image, loaded.all, loaded.size, fun success => ?_,
        fun failed final found => ?_, fun success v kept => ?_⟩
      · have := loaded.supply success
        omega
      · have := loaded.failed failed final found
        omega
      · rw [loaded.top success v kept, fills.leaf image₁.toSpace, allocated.old]
        have := Vm.trapframe_le_of_kept kept
        have := image₁.below_trapframe
        omega
    · refine ⟨image₂, by rintro ⟨⟩, by rintro ⟨⟩, by rintro ⟨⟩, fun _ final found => ?_, by rintro ⟨⟩⟩
      rw [if_neg stops] at found
      cases found

/-- The size of the program in a file, if the file can be loaded. -/
def imageSize (file : List UInt8) : Option ℕ :=
  let header := readi file 0 64
  let elf := Elfhdr.decode header
  if header.length ≠ 64 ∨ elf.magic ≠ elfMagic then none else programSize file (UInt32.ofNat elf.phoff) 0 elf.phnum

end Xv6.Sv39
