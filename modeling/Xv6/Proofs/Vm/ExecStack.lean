import Mathlib.Algebra.Ring.Nat
import Xv6.Proofs.Vm.Exec

/-! # The stack of a new image

`kexec` adds two pages to the image, makes the lower one inaccessible, and copies the arguments into the other one:
the strings from the top down, each at a multiple of 16, and below them the array of their addresses.
-/

namespace Xv6.Sv39

open Machine List
open Vm (pgsize maxva pgroundup pgrounddown path vaddr Kept maxarg userstack)

variable {base s s' s'' : Phys} {root sz : ℕ} {proc : Process} {fails : Panic → Prop}

/-! ## `copyout` to mapped pages -/

/-- The user may write to all addresses of a range. -/
def Writable (s : Phys) (root low high : ℕ) : Prop :=
  ∀ va, low ≤ va → va < high → va < maxva ∧ ∃ w, leaf? s.ram root (path va) = some w ∧ w &&& pteU ≠ 0 ∧ w &&& pteW ≠ 0

variable {low high a n i sp stackbase va : ℕ} {memory : ℕ → UInt8} {values ustack : List ℕ} {w : UInt64}
  {argv : List (List UInt8)}

theorem Writable.fills (writable : Writable s root low high) (space : Space s root) (fills : Fills root s s') :
    Writable s' root low high := by
  unfold Writable
  rw [fills.leaf space]
  exact writable

theorem Writable.mono {low' high' : ℕ} (writable : Writable s root low high) (le : low ≤ low') (le' : high' ≤ high) :
    Writable s root low' high' :=
  fun va above below => writable va (le.trans above) (below.trans_le le')

theorem copyoutLoop_mapped (rounds : ℕ) {dst : ℕ} {src : List UInt8} (space : Space s root)
    (enough : src.length ≤ rounds)
    (writable : Writable s root dst (dst + src.length)) : Ensures (copyoutLoop proc root dst src rounds) s
    (fun done s' => done = true ∧ Fills root s s' ∧ ∀ va < maxva, view s' root va =
      if dst ≤ va ∧ va < dst + src.length then src.getD (va - dst) 0 else view s root va) fails := by
  induction rounds generalizing s dst src with
  | zero => exact .pure ⟨rfl, .refl, fun va _ => by rw [if_neg (by omega)]⟩
  | succ rounds ih =>
    unfold copyoutLoop
    refine .ite (fun zero => .pure ⟨rfl, .refl, fun va _ => by rw [if_neg (by omega)]⟩) fun some_left => ?_
    have down := pgrounddown_le dst
    obtain ⟨inside, w, found, user, writes⟩ := writable dst le_rfl (by omega)
    rw [← path_pgrounddown] at found
    have below : pgrounddown dst < maxva := down.1.trans_lt inside
    obtain ⟨p, slot, loaded⟩ := slot_of_leaf? found
    refine .ite (fun outside => absurd below (not_lt.mpr outside)) fun _ => ?_
    refine .run_bind (touch_mapped space below found user) (.run_bind (walk_false below) ?_)
    rw [slot]
    refine load_bind (.ite (fun read_only => absurd (loaded ▸ read_only) writes) fun _ => ?_)
    dsimp only
    generalize round : min (pgsize - (dst - pgrounddown dst)) src.length = n at *
    refine .modify_bind ?_
    have filled : Fills root s (s.setPage (pte2pa w) ((s.ram (pte2pa w)).write (dst - pgrounddown dst) (src.take n))) :=
      .page found user _
    have seen (va : ℕ) (low : va < maxva) := view_write space below found user round low
    generalize s.setPage (pte2pa w) ((s.ram (pte2pa w)).write (dst - pgrounddown dst) (src.take n)) = s₁ at *
    have rest_length : (src.drop n).length = src.length - n := length_drop
    refine (ih (filled.space space) (by omega) fun va above under =>
      writable.fills space filled va (by omega) (by omega)).mono ?_
    rintro done s₂ ⟨finished, rest, bytes⟩
    refine ⟨finished, filled.trans space rest, fun va low => ?_⟩
    -- the rest is empty, or it starts where this page ends
    rw [bytes va low, seen va low, getD_store (by omega), rest_length, Nat.add_sub_cancel' (by omega)]

/-! ## Bytes and words -/

/-- The bytes of a range. -/
def bytesAt (memory : ℕ → UInt8) (a n : ℕ) : List UInt8 := (List.range n).map fun i => memory (a + i)

theorem bytesAt_eq {bytes : List UInt8} (size : bytes.length = n)
    (same : ∀ i < n, memory (a + i) = bytes.getD i 0) : bytesAt memory a n = bytes := by
  refine ext_getElem (by rw [bytesAt, length_map, length_range, size]) fun i first second => ?_
  simp only [bytesAt, getElem_map, getElem_range]
  rw [same i (by omega), getD_eq_getElem?_getD, getElem?_eq_getElem second, Option.getD_some]

/-- The word at an address. -/
def wordAt (memory : ℕ → UInt8) (a : ℕ) : ℕ := le (bytesAt memory a 8)

theorem le_digits (n value : ℕ) : le ((range n).map fun k => UInt8.ofNat (value / 256 ^ k)) = value % 256 ^ n := by
  induction n generalizing value with
  | zero => rw [pow_zero, Nat.mod_one]; rfl
  | succ n ih =>
    have shift :
        (fun k => UInt8.ofNat (value / 256 ^ k)) ∘ Nat.succ = fun k => UInt8.ofNat (value / 256 / 256 ^ k) := by
      funext k
      rw [Function.comp_apply, Nat.succ_eq_add_one, pow_succ', Nat.div_div_eq_div_mul]
    rw [range_succ_eq_map, map_cons, map_map, shift, le, foldr_cons, ← le, ih, UInt8.toNat_ofNat',
      pow_zero, Nat.div_one, pow_succ' 256 n, Nat.mod_mul]

theorem le_wordBytes {value : ℕ} (small : value < UInt64.size) : le (wordBytes value) = value := by
  rw [wordBytes, le_digits]
  exact Nat.mod_eq_of_lt small

theorem length_wordBytes (value : ℕ) : (wordBytes value).length = 8 := by rw [wordBytes, length_map, length_range]

theorem length_words (values : List ℕ) : (values.flatMap wordBytes).length = values.length * 8 := by
  induction values with
  | nil => rfl
  | cons value rest ih => rw [flatMap_cons, length_append, length_wordBytes, ih, length_cons]; omega

theorem drop_words (values : List ℕ) (inside : i < values.length) :
    ((values.flatMap wordBytes).drop (8 * i)).take 8 = wordBytes (values.getD i 0) := by
  induction values generalizing i with
  | nil => exact absurd inside (Nat.not_lt_zero _)
  | cons value rest ih =>
    rw [flatMap_cons]
    cases i with
    | zero =>
      rw [Nat.mul_zero, drop_zero, take_append_of_le_length (length_wordBytes value).ge,
        take_of_length_le (length_wordBytes value).le, getD_cons_zero]
    | succ i =>
      rw [drop_append, drop_eq_nil_of_le (by rw [length_wordBytes]; omega), nil_append, length_wordBytes,
        show 8 * (i + 1) - 8 = 8 * i by omega, getD_cons_succ]
      exact ih (Nat.lt_of_succ_lt_succ inside)

theorem wordAt_words (inside : i < values.length)
    (small : values.getD i 0 < UInt64.size) (there : bytesAt memory a (values.length * 8) = values.flatMap wordBytes) :
    wordAt memory (a + 8 * i) = values.getD i 0 := by
  have piece : bytesAt memory (a + 8 * i) 8 = ((bytesAt memory a (values.length * 8)).drop (8 * i)).take 8 := by
    refine bytesAt_eq ?_ fun k low => ?_
    · rw [length_take, length_drop, bytesAt, length_map, length_range]
      omega
    · rw [getD_eq_getElem?_getD, getElem?_take_of_lt low, getElem?_drop, bytesAt, getElem?_map,
        getElem?_range (by omega), Option.map_some, Option.getD_some, Nat.add_assoc]
  rw [wordAt, piece, there, drop_words values inside, le_wordBytes small]

/-! ## Arguments -/

/-- The room for `n` bytes on the stack. -/
def round16 (n : ℕ) : ℕ := (n + 15) / 16 * 16

/-- The room for the argument strings. -/
def stringsSize (args : List (List UInt8)) : ℕ := (args.map fun arg => round16 (arg.length + 1)).sum

theorem push_eq (aligned : sp % 16 = 0) (fits : n ≤ sp) (small : sp < UInt64.size) :
    Vm.push sp n + round16 n = sp := by
  have difference : Vm.sub64 sp n = sp - n := by
    unfold Vm.sub64
    rw [show sp + UInt64.size - n = sp - n + UInt64.size by omega, Nat.add_mod_right, Nat.mod_eq_of_lt (by omega)]
  rw [Vm.push, difference, round16]
  omega

/-- The addresses of the strings, with their sizes. -/
def regions (ptrs : List ℕ) (args : List (List UInt8)) : List (ℕ × ℕ) := ptrs.zip (args.map fun arg => arg.length + 1)

/-- A copy of a string in a range, with its terminator. -/
def Copy (memory : ℕ → UInt8) (low high a : ℕ) (arg : List UInt8) : Prop :=
  a % 16 = 0 ∧ low ≤ a ∧ a + (arg.length + 1) ≤ high ∧ bytesAt memory a (arg.length + 1) = arg ++ [0]

/-- Strings on the stack, each below the one before. -/
structure Pushed (memory : ℕ → UInt8) (low high : ℕ) (args : List (List UInt8)) (ptrs : List ℕ) : Prop where
  copies : List.Forall₂ (Copy memory low high) ptrs args
  apart : (regions ptrs args).Pairwise fun r q => q.1 + q.2 ≤ r.1

namespace Pushed

variable {memory memory' : ℕ → UInt8} {low middle high : ℕ} {arg : List UInt8} {args : List (List UInt8)}
  {ptrs : List ℕ}

theorem nil : Pushed memory low high [] [] := ⟨.nil, .nil⟩

theorem inside (pushed : Pushed memory low high args ptrs) : ∀ r ∈ regions ptrs args, low ≤ r.1 ∧ r.1 + r.2 ≤ high := by
  obtain ⟨copies, -⟩ := pushed
  induction copies with
  | nil => exact fun r listed => absurd listed not_mem_nil
  | cons copy _ ih =>
    intro r listed
    rw [regions, map_cons, zip_cons_cons] at listed
    rcases mem_cons.mp listed with rfl | later
    · exact ⟨copy.2.1, copy.2.2.1⟩
    · exact ih r later

theorem lt (pushed : Pushed memory low high args ptrs) : ∀ a ∈ ptrs, a < high := by
  obtain ⟨copies, -⟩ := pushed
  induction copies with
  | nil => exact fun a listed => absurd listed not_mem_nil
  | cons copy _ ih =>
    intro a listed
    rcases mem_cons.mp listed with rfl | later
    · have := copy.2.2.1
      omega
    · exact ih a later

theorem cons (copy : Copy memory low high middle arg) (rest : Pushed memory low middle args ptrs) :
    Pushed memory low high (arg :: args) (middle :: ptrs) where
  copies := by
    have fits := copy.2.2.1
    refine .cons copy (rest.copies.imp ?_)
    rintro a arg' ⟨aligned, above, below, bytes⟩
    exact ⟨aligned, above, by omega, bytes⟩
  apart := by
    rw [regions, map_cons, zip_cons_cons]
    exact .cons (fun q later => (rest.inside q later).2) rest.apart

theorem congr (pushed : Pushed memory low high args ptrs) (same : ∀ va, low ≤ va → va < high → memory' va = memory va) :
    Pushed memory' low high args ptrs where
  copies := by
    refine pushed.copies.imp ?_
    rintro a arg ⟨aligned, above, below, bytes⟩
    refine ⟨aligned, above, below, bytes ▸ map_congr_left fun i listed => ?_⟩
    exact same (a + i) (by omega) (by have := mem_range.mp listed; omega)
  apart := pushed.apart

end Pushed

/-- What a push leaves alone. -/
def Untouched (s : Phys) (root low high : ℕ) (s' : Phys) : Prop :=
  ∀ va < maxva, ¬ (low ≤ va ∧ va < high) → view s' root va = view s root va

/-- Bytes that are written within the stack, below what was pushed before. -/
theorem copyout_pushed {dst : ℕ} {src : List UInt8} (space : Space s root) (writable : Writable s root stackbase sp)
    (above : stackbase ≤ dst) (below : dst + src.length ≤ sp) (top : sp ≤ maxva) :
    Ensures (copyout proc root dst src) s (fun done s' => done = true ∧ Fills root s s' ∧
      Untouched s root dst sp s' ∧ ∀ i < src.length, view s' root (dst + i) = src.getD i 0) fails := by
  refine (copyoutLoop_mapped _ space le_rfl (writable.mono above below)).mono ?_
  rintro done s' ⟨success, fills, bytes⟩
  refine ⟨success, fills, fun va inside outside => ?_, fun i small => ?_⟩
  · rw [bytes va inside, if_neg (by omega)]
  · rw [bytes (dst + i) (by omega), if_pos (by omega), Nat.add_sub_cancel_left]

theorem pushArgs_ensures (args : List (List UInt8)) (space : Space s root)
    (writable : Writable s root stackbase sp) (aligned : sp % 16 = 0) (low : pgsize ≤ stackbase) (le : stackbase ≤ sp)
    (top : sp ≤ maxva) (few : ustack.length + args.length < maxarg) (short : ∀ arg ∈ args, arg.length < pgsize) :
    Ensures (pushArgs proc root stackbase sp ustack args) s (fun r s' => Fills root s s' ∧
      (r = none ↔ sp < stackbase + stringsSize args) ∧ ∀ sp' us, r = some (sp', us) → sp' + stringsSize args = sp ∧
        Untouched s root sp' sp s' ∧ ∃ ptrs, us = ustack ++ ptrs ∧ Pushed (view s' root) sp' sp args ptrs) fails := by
  induction args generalizing s sp ustack with
  | nil =>
    refine .pure ⟨.refl, ⟨by rintro ⟨⟩, fun less => absurd less (not_lt.mpr le)⟩, ?_⟩
    rintro _ _ ⟨⟩
    exact ⟨rfl, fun _ _ _ => rfl, [], (append_nil _).symm, .nil⟩
  | cons arg rest ih =>
    have size : stringsSize (arg :: rest) = round16 (arg.length + 1) + stringsSize rest := by
      rw [stringsSize, map_cons, sum_cons]
      rfl
    have bound : arg.length + 1 ≤ pgsize := short arg mem_cons_self
    have moved := push_eq aligned (by omega) (top.trans_lt (by decide)) (n := arg.length + 1)
    have room : arg.length + 1 ≤ round16 (arg.length + 1) ∧ round16 (arg.length + 1) % 16 = 0 := by
      unfold round16
      omega
    unfold pushArgs
    rw [length_cons] at few
    refine .ite (fun many => absurd many (by omega)) fun _ => ?_
    dsimp only
    generalize Vm.push sp (arg.length + 1) = sp₁ at *
    refine .ite (fun less => .pure ⟨.refl, ⟨fun _ => by omega, fun _ => rfl⟩, by rintro _ _ ⟨⟩⟩) fun fits => ?_
    have length : (arg ++ [0]).length = arg.length + 1 := by rw [length_append, length_singleton]
    refine (copyout_pushed space writable (not_lt.mp fits) (by omega) top).bind ?_
    rintro _ s₁ ⟨rfl, fills, outside₁, bytes⟩
    refine (ih (fills.space space) ((writable.fills space fills).mono le_rfl (by omega)) (by omega)
      (by omega) (by omega)
      (by rw [length_append, length_singleton]; omega) fun a listed => short a (mem_cons_of_mem _ listed)).mono ?_
    rintro r s₂ ⟨fills₁, failed, done⟩
    refine ⟨fills.trans space fills₁, by rw [failed, size]; omega, fun sp' us success => ?_⟩
    obtain ⟨total, same, ptrs, rfl, pushed⟩ := done sp' us success
    refine ⟨by omega, fun va inside outside => ?_, sp₁ :: ptrs, by rw [append_assoc, singleton_append],
      pushed.cons ⟨by omega, by omega, by omega, bytesAt_eq length fun i small => ?_⟩⟩
    · rw [same va inside (by omega), outside₁ va inside (by omega)]
    · -- the strings after this one are below it
      rw [same (sp₁ + i) (by omega) (by omega), bytes i (by omega)]

theorem pushUstack_ensures (space : Space s root) (writable : Writable s root stackbase sp)
    (aligned : sp % 16 = 0) (low : pgsize ≤ stackbase) (le : stackbase ≤ sp) (top : sp ≤ maxva)
    (few : ustack.length < maxarg) :
    Ensures (pushUstack proc root stackbase sp ustack) s (fun r s' => Fills root s s' ∧
      (r = none ↔ sp < stackbase + round16 ((ustack.length + 1) * 8)) ∧ ∀ sp', r = some sp' →
        sp' + round16 ((ustack.length + 1) * 8) = sp ∧ Untouched s root sp' sp s' ∧
        bytesAt (view s' root) sp' ((ustack ++ [0]).length * 8) = (ustack ++ [0]).flatMap wordBytes) fails := by
  have bound : (ustack.length + 1) * 8 ≤ pgsize := by
    unfold maxarg at few
    unfold pgsize
    omega
  have moved := push_eq aligned (by omega) (top.trans_lt (by decide)) (n := (ustack.length + 1) * 8)
  have length : ((ustack ++ [0]).flatMap wordBytes).length = (ustack.length + 1) * 8 := by
    rw [length_words, length_append, length_singleton]
  have room : (ustack.length + 1) * 8 ≤ round16 ((ustack.length + 1) * 8) := by
    unfold round16
    omega
  unfold pushUstack
  dsimp only
  generalize Vm.push sp ((ustack.length + 1) * 8) = sp₁ at *
  refine .ite (fun less => .pure ⟨.refl, ⟨fun _ => by omega, fun _ => rfl⟩, by rintro _ ⟨⟩⟩) fun fits => ?_
  refine (copyout_pushed space writable (not_lt.mp fits) (by omega) top).bind ?_
  rintro _ s₁ ⟨rfl, fills, untouched, bytes⟩
  refine .pure ⟨fills, ⟨by rintro ⟨⟩, fun less => absurd less (by omega)⟩, ?_⟩
  rintro _ ⟨⟩
  exact ⟨moved, untouched, bytesAt_eq (length_words _) (length_words (ustack ++ [0]) ▸ bytes)⟩

/-! ## The stack -/

theorem pte2pa_clear (w : UInt64) : pte2pa (w &&& ~~~pteU) = pte2pa w := by
  -- the mask has all bits above the flags
  have high : ∀ j : Fin 64, 10 ≤ j.val → (~~~pteU).toBitVec.getLsbD j.val = true := by decide
  generalize ~~~pteU = mask at high
  have shifted : (w &&& mask) >>> 10 = w >>> 10 := by
    apply UInt64.toBitVec_inj.mp
    ext i _
    simpa using fun set => high ⟨10 + i, BitVec.lt_of_getLsbD set⟩ (Nat.le_add_right _ _)
  rw [pte2pa, pte2pa, shifted]

theorem clear_and_pteU (w : UInt64) : w &&& ~~~pteU &&& pteU = 0 := by
  rw [UInt64.and_assoc, show ~~~pteU &&& pteU = 0 by decide, UInt64.and_zero]

theorem clear_and_pteV (w : UInt64) : w &&& ~~~pteU &&& pteV = w &&& pteV := by
  rw [UInt64.and_assoc, show ~~~pteU &&& pteV = pteV by decide]

theorem Image.clear {p : PtePtr} (image : Image base root sz s) (user : ¬ Kept (path va))
    (slot : slot? s.ram root va = some p) (found : leaf? s.ram root (path va) = some w) :
    Image base root sz (s.store p (w &&& ~~~pteU)) ∧ ∀ v, leaf? (s.store p (w &&& ~~~pteU)).ram root v =
      if v = path va then some (w &&& ~~~pteU) else leaf? s.ram root v := by
  obtain ⟨stored, leaf, tables⟩ := Grows.store image.toWellFormed slot (w &&& ~~~pteU)
  have valid : w &&& ~~~pteU &&& pteV ≠ 0 := by
    rw [clear_and_pteV]
    exact leaf?_valid found
  rw [if_pos valid] at leaf
  have before {v w'} (there : leaf? (s.store p (w &&& ~~~pteU)).ram root v = some w') :
      ∃ w₀, leaf? s.ram root v = some w₀ ∧ pte2pa w' = pte2pa w₀ ∧ (Kept v → w' = w₀) := by
    rw [leaf] at there
    split_ifs at there with here
    · cases there
      exact ⟨w, here ▸ found, pte2pa_clear w, fun kept => absurd (here ▸ kept) user⟩
    · exact ⟨w', there, rfl, fun _ => rfl⟩
  have after {v w₀} (there : leaf? s.ram root v = some w₀) :
      ∃ w', leaf? (s.store p (w &&& ~~~pteU)).ram root v = some w' ∧ pte2pa w' = pte2pa w₀ := by
    rw [leaf]
    split_ifs with here
    · rw [here, found] at there
      cases there
      exact ⟨_, rfl, pte2pa_clear w⟩
    · exact ⟨w₀, there, rfl⟩
  refine ⟨⟨⟨stored.wf, image.kernel, fun v w' there => ?_, fun v v' w₁ w₂ first second same => ?_⟩, image.origin,
    stored.pointers image.pointers, image.sameEnd, fun a => ?_, fun a other => ?_, fun v w' free there => ?_,
    fun v free low => ?_,
    fun v w' kept there => ?_⟩, leaf⟩
  · obtain ⟨w₀, old, page, -⟩ := before there
    rw [page, tables]
    exact image.mapped v w₀ old
  · obtain ⟨w₁', old, page, -⟩ := before first
    obtain ⟨w₂', old', page', -⟩ := before second
    exact image.distinct v v' w₁' w₂' old old' (page.symm.trans (same.trans page'))
  · rw [image.conserved]
    refine or_congr Iff.rfl (or_congr (tables a).symm ⟨?_, ?_⟩)
    · rintro ⟨v, w₀, free, old, rfl⟩
      obtain ⟨w', there, page⟩ := after old
      exact ⟨v, w', free, there, page⟩
    · rintro ⟨v, w', free, there, rfl⟩
      obtain ⟨w₀, old, page, -⟩ := before there
      exact ⟨v, w₀, free, old, page.symm⟩
  · rw [stored.frame a, image.unchanged a other]
    · exact fun inside => other ((image.conserved a).mpr (.inr (.inl inside)))
    · exact fun listed => other ((image.conserved a).mpr (.inl listed))
  · obtain ⟨w₀, old, -, -⟩ := before there
    exact image.below v w₀ free old
  · obtain ⟨w₀, old⟩ := Option.ne_none_iff_exists'.mp (image.full v free low)
    obtain ⟨w', there, -⟩ := after old
    rw [there]
    exact Option.some_ne_none w'
  · obtain ⟨w₀, old, -, same⟩ := before there
    rw [same kept]
    exact image.kernelOnly v w₀ kept old

theorem uvmclear_ensures (image : Image base root sz s) (inside : va < maxva) (user : ¬ Kept (path va))
    (found : leaf? s.ram root (path va) = some w) : Ensures (uvmclear root va) s (fun _ s' => Image base root sz s' ∧
      s'.supply = s.supply ∧ ∀ v, leaf? s'.ram root v = if v = path va then
      some (w &&& ~~~pteU) else leaf? s.ram root v) fails := by
  obtain ⟨p, slot, loaded⟩ := slot_of_leaf? found
  obtain ⟨cleared, leaf⟩ := image.clear user slot found
  unfold uvmclear
  refine .run_bind (walk_false inside) ?_
  rw [slot]
  refine load_bind ?_
  rw [loaded]
  exact .modify ⟨cleared, rfl, leaf⟩

/-- The stack of a new image: the argument strings, and the array of their addresses. -/
structure Arguments (memory : ℕ → UInt8) (low high : ℕ) (argv : List (List UInt8)) (sp : ℕ) (ptrs : List ℕ) : Prop where
  aligned : sp % 16 = 0
  copies : List.Forall₂ (Copy memory low high) ptrs argv
  words : ∀ i ≤ argv.length, wordAt memory (sp + 8 * i) = (ptrs ++ [0]).getD i 0
  inside : low ≤ sp ∧ sp + 8 * (argv.length + 1) ≤ high
  apart : ((sp, 8 * (argv.length + 1)) :: regions ptrs argv).Pairwise fun r q => r.1 + r.2 ≤ q.1 ∨ q.1 + q.2 ≤ r.1

/-- The room for the arguments. -/
def argumentsSize (argv : List (List UInt8)) : ℕ := stringsSize argv + round16 (8 * (argv.length + 1))

theorem stringsSize_mod (args : List (List UInt8)) : stringsSize args % 16 = 0 := by
  induction args with
  | nil => rfl
  | cons arg rest ih =>
    rw [stringsSize, map_cons, sum_cons, ← stringsSize]
    unfold round16
    omega

theorem getD_lt {bound : ℕ} (positive : 0 < bound) (small : ∀ a ∈ values, a < bound) (i : ℕ) :
    values.getD i 0 < bound := by
  rw [getD_eq_getElem?_getD]
  cases found : values[i]? with
  | none => exact positive
  | some a => exact small a (mem_of_getElem? found)

theorem Pushed.arguments {memory' : ℕ → UInt8} {middle : ℕ} {ptrs : List ℕ}
    (pushed : Pushed memory middle high argv ptrs) (aligned : sp % 16 = 0) (above : low ≤ sp)
    (room : sp + (argv.length + 1) * 8 ≤ middle) (le : middle ≤ high) (top : high ≤ maxva)
    (same : ∀ va, middle ≤ va → va < high → memory' va = memory va)
    (words : bytesAt memory' sp ((ptrs ++ [0]).length * 8) = (ptrs ++ [0]).flatMap wordBytes) :
    Arguments memory' low high argv sp ptrs := by
  have strings := pushed.congr same
  have length := strings.copies.length_eq
  have small : ∀ a ∈ ptrs ++ [0], a < UInt64.size := by
    have bound : maxva < UInt64.size := by decide
    intro a listed
    rcases mem_append.mp listed with pointer | last
    · have := strings.lt a pointer
      omega
    · rw [mem_singleton.mp last]
      decide
  refine ⟨aligned, strings.copies.imp ?_, fun i last => ?_, ⟨above, by omega⟩, .cons (fun q listed => .inl ?_) ?_⟩
  · rintro a arg ⟨start, low', high', bytes⟩
    exact ⟨start, by omega, high', bytes⟩
  · refine wordAt_words ?_ (getD_lt (by decide) small i) words
    rw [length_append, length_singleton]
    omega
  · have := (strings.inside q listed).1
    omega
  · exact strings.apart.imp .inr

/-- What `buildStack` does. -/
structure Built (base : Phys) (root sz : ℕ) (argv : List (List UInt8)) (s : Phys) (r : ℕ × Option ℕ)
    (s' : Phys) : Prop where
  image : Image base root r.1 s'
  failed : r.2 = none → userstack * pgsize < argumentsSize argv ∨ s.supply < 6
  large : userstack * pgsize < argumentsSize argv → r.2 = none
  size : ∀ sp, r.2 = some sp → r.1 = pgroundup sz + (userstack + 1) * pgsize
  guard : ∀ sp, r.2 = some sp → ∃ w, leaf? s'.ram root (path (pgroundup sz)) = some w ∧ w &&& pteU = 0
  stack : ∀ sp, r.2 = some sp → Writable s' root (pgroundup sz + pgsize) r.1
  arguments : ∀ sp, r.2 = some sp → ∃ ptrs, Arguments (view s' root) (pgroundup sz + pgsize) r.1 argv sp ptrs
  top : ∀ sp, r.2 = some sp → ∀ v, Kept v → leaf? s'.ram root v = leaf? s.ram root v

theorem Built.none (image : Image base root n s')
    (reason : userstack * pgsize < argumentsSize argv ∨ s.supply < 6) : Built base root sz argv s (n, none) s' where
  image := image
  failed _ := reason
  large _ := rfl
  size _ wrong := by cases wrong
  guard _ wrong := by cases wrong
  stack _ wrong := by cases wrong
  arguments _ wrong := by cases wrong
  top _ wrong := by cases wrong

theorem Allocated.writable {w : Option UInt64}
    (allocated : Allocated root a (a + 2 * pgsize) (pteR ||| pteU ||| pteW) s s')
    (aligned : a % pgsize = 0) (inside : a + 2 * pgsize ≤ maxva)
    (leaf : ∀ v, leaf? s''.ram root v = if v = path a then w else leaf? s'.ram root v) :
    Writable s'' root (a + pgsize) (a + 2 * pgsize) := by
  have positive : 0 < pgsize := by decide
  intro va above below
  have page : vaddr (path va) = va / pgsize * pgsize := by
    rw [← path_pgrounddown, Vm.vaddr_path (Vm.pgrounddown_mod va) ((Nat.div_mul_le_self _ _).trans_lt (by omega))]
    rfl
  have high : a + pgsize ≤ vaddr (path va) ∧ vaddr (path va) < a + 2 * pgsize := by
    rw [page]
    unfold pgsize at *
    omega
  obtain ⟨mem, there⟩ := allocated.new (path va) (by omega) high.2
  refine ⟨by omega, leafWord mem (pteR ||| pteU ||| pteW), ?_, leafWord_and (by decide), leafWord_and (by decide)⟩
  rw [leaf, if_neg, there]
  intro eq
  rw [eq, Vm.vaddr_path aligned (by omega)] at high
  omega

theorem buildStack_ensures (image : Image base root sz s) (few : argv.length < maxarg)
    (short : ∀ arg ∈ argv, arg.length < pgsize) :
    Ensures (buildStack proc root sz argv) s (Built base root sz argv s) fails := by
  have whole := Vm.pgroundup_of_mod (Vm.pgroundup_mod sz)
  have image₀ : Image base root (pgroundup sz) s := image.resize whole
  have aligned := Vm.pgroundup_mod sz
  have inside : pgroundup sz < Vm.trapframe := image.below_trapframe
  have top : Vm.trapframe + 2 * pgsize = maxva := by decide
  unfold buildStack
  dsimp only
  generalize rounded : pgroundup sz = top₀ at *
  have newsz : max top₀ (top₀ + (userstack + 1) * pgsize) = top₀ + 2 * pgsize := max_eq_right (Nat.le_add_right _ _)
  have whole₁ : pgroundup (top₀ + 2 * pgsize) = top₀ + 2 * pgsize := Vm.pgroundup_of_mod (by unfold pgsize at *; omega)
  have pages : pageCount (top₀ + 2 * pgsize) = pageCount top₀ + 2 := by
    rw [pageCount, pageCount, whole, whole₁]
    unfold pgsize
    omega
  refine (uvmalloc_ensures image₀ (by decide)).bind ?_
  rintro r s₁ ⟨stopped, finished⟩
  rw [newsz] at stopped finished
  refine .ite (fun zero => .pure ?_) fun grown => ?_
  · obtain ⟨image₁, few_left⟩ := stopped zero
    have some_pages : 0 < pgsize := by decide
    have : pageCount (top₀ + (userstack + 1) * pgsize) = pageCount top₀ + 2 := pages
    exact .none image₁ (.inr (by omega))
  have size := (finished grown).1
  have image₁ := (finished grown).2.1
  have allocated := (finished grown).2.2.2
  have low₁ := image₁.below_trapframe
  rw [size, whole₁] at low₁
  rw [whole, size, whole₁] at allocated
  have guard_page : r - (userstack + 1) * pgsize = top₀ := by
    rw [size]
    exact Nat.add_sub_cancel _ _
  have stack_page : r - userstack * pgsize = top₀ + pgsize := by
    rw [size, show userstack * pgsize = pgsize from rfl]
    omega
  rw [guard_page, stack_page]
  have start : vaddr (path top₀) = top₀ := Vm.vaddr_path aligned (by omega)
  obtain ⟨guard, mapped⟩ := allocated.new (path top₀) start.ge (by unfold pgsize; omega)
  refine (uvmclear_ensures image₁ (by omega) (Vm.not_kept_of_lt inside) mapped).bind ?_
  rintro _ s₂ ⟨image₂, same, leaf⟩
  have writable : Writable s₂ root (top₀ + pgsize) r := size ▸ allocated.writable aligned (by omega) leaf
  have size_mod : r % 16 = 0 := by
    rw [size]
    unfold pgsize at aligned ⊢
    omega
  refine (pushArgs_ensures argv image₂.toSpace writable size_mod (Nat.le_add_left _ _) (by omega) (by omega)
    (by simpa using few) short).bind ?_
  rintro (_ | ⟨sp, us⟩) s₃ ⟨fills, failed, pushed⟩
  · refine .pure (.none (image₂.fills fills) (.inl ?_))
    have := failed.mp rfl
    rw [argumentsSize, show userstack * pgsize = pgsize from rfl]
    omega
  obtain ⟨total, untouched, _, rfl, strings⟩ := pushed sp us rfl
  have length := strings.copies.length_eq
  have strings_mod := stringsSize_mod argv
  have enough : ¬ r < top₀ + pgsize + stringsSize argv := fun less => by cases failed.mpr less
  have writable₃ := (writable.fills image₂.toSpace fills).mono le_rfl (show sp ≤ r by omega)
  refine (pushUstack_ensures (fills.space image₂.toSpace) writable₃ (by omega) (Nat.le_add_left _ _)
    (by omega) (by omega) (by omega)).bind ?_
  rintro result s₄ ⟨fills₄, failed₄, array⟩
  rw [length] at failed₄ array
  have image₄ := (image₂.fills fills).fills fills₄
  have leaf₄ : leaf? s₄.ram root = leaf? s₂.ram root :=
    (fills₄.leaf (fills.space image₂.toSpace)).trans (fills.leaf image₂.toSpace)
  have exceeds : result = none ↔ userstack * pgsize < argumentsSize argv := by
    rw [failed₄, argumentsSize, show userstack * pgsize = pgsize from rfl, Nat.mul_comm 8]
    omega
  refine .pure ⟨image₄, fun failed => .inl (exceeds.mp failed), exceeds.mpr, fun _ _ => ?_, fun _ _ => ?_,
    fun _ _ => ?_, fun sp' success => ⟨us, ?_⟩, fun _ _ v kept => ?_⟩
  · rw [rounded, size]
    rfl
  · rw [rounded, leaf₄, leaf, if_pos rfl]
    exact ⟨_, rfl, clear_and_pteU _⟩
  · rw [rounded, Writable, leaf₄]
    exact writable
  · obtain ⟨total₄, untouched₄, words⟩ := array sp' success
    rw [rounded]
    have room : (argv.length + 1) * 8 ≤ round16 ((argv.length + 1) * 8) ∧ round16 ((argv.length + 1) * 8) % 16 = 0 := by
      unfold round16
      omega
    have fits : ¬ sp < top₀ + pgsize + round16 ((argv.length + 1) * 8) := fun less => by
      cases success.symm.trans (failed₄.mpr less)
    refine strings.arguments (by omega) (by omega) (by omega) (by omega) (by omega) (fun va above below => ?_) words
    exact untouched₄ va (by omega) (by omega)
  · have high := Vm.trapframe_le_of_kept kept
    rw [leaf₄, leaf, if_neg, allocated.old v (by omega)]
    rintro rfl
    omega

end Xv6.Sv39
