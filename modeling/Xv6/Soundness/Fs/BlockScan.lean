import Xv6.Model.Fs.Bitmap
import Xv6.Proofs.Fs.Inode

/-! # The block allocator takes the first free block

The loops stop at the least block whose bit is clear, whatever the size is. The block that was found is zeroed after its
bit has been set: this leaves the bitmap alone unless the block is one of the bitmap itself, whose own bit was clear.
-/

namespace Xv6.Fs.Bitmap

open Function (update_self update_of_ne)

variable {sb : Extent} {s : Store} {bp : Block} {size b rounds bi k n : ℕ}

/-- The bits that the inner loop looks at stop at the size; the rest of them are none that it wants. -/
theorem scan_eq_find :
    scan size bp b rounds bi = (List.range' bi rounds).find? fun i => decide (b + i < size) && !bp.bit i := by
  induction rounds generalizing bi with
  | zero => rfl
  | succ rounds ih =>
    rw [scan, ih, List.range'_succ, List.find?_cons]
    by_cases inside : b + bi < size
    · cases bp.bit bi <;> simp [inside]
    · have none : (List.range' (bi + 1) rounds).find? (fun i => decide (b + i < size) && !bp.bit i) = none := by
        rw [List.find?_range'_eq_none]
        intro i low _
        simp [show ¬b + i < size by omega]
      simp [inside, none]

private theorem row_div (small : bi < bpb) : (k * bpb + bi) / bpb = k := by
  rw [Nat.mul_comm, Nat.mul_add_div (by decide), Nat.div_eq_of_lt small, Nat.add_zero]

private theorem row_mod (small : bi < bpb) : (k * bpb + bi) % bpb = bi := by
  rw [Nat.mul_comm, Nat.mul_add_mod, Nat.mod_eq_of_lt small]

theorem bblock_row (sb : Extent) (small : bi < bpb) : sb.bblock (k * bpb + bi) = sb.bblock (k * bpb) := by
  rw [Extent.bblock, Extent.bblock, row_div small, Nat.mul_div_cancel k (by decide)]

/-- What `balloc` leaves once it has found a block. -/
def taken (sb : Extent) (s : Store) (n : ℕ) : Store :=
  ⟨Function.update (Function.update s.disk (sb.bblock n) ((s.disk (sb.bblock n)).setBit (n % bpb))) n
    (Vector.replicate _ 0), s.logged ++ [sb.bblock n] ++ [n]⟩

private theorem run_bread_bind {α : Type} {f : Block → Op α} : (Op.bread b >>= f).run s = (f (s.disk b)).run s := rfl

theorem ballocFrom_round (inside : k * bpb < sb.size) : (ballocFrom sb (rounds + 1) (k * bpb)).run s =
    match scan sb.size (s.disk (sb.bblock (k * bpb))) (k * bpb) bpb 0 with
    | some bi => .ok (k * bpb + bi, taken sb s (k * bpb + bi))
    | none => (ballocFrom sb rounds ((k + 1) * bpb)).run s := by
  rw [ballocFrom, if_pos inside, run_bread_bind, Nat.succ_mul]
  cases found : scan sb.size (s.disk (sb.bblock (k * bpb))) (k * bpb) bpb 0 with
  | none => rfl
  | some bi =>
    rw [scan_eq_find, List.find?_range'_eq_some] at found
    have small : bi < bpb := by simpa using found.2.1
    dsimp only
    rw [taken, bblock_row sb small, row_mod small]
    rfl

theorem ballocFrom_search {rows : ℕ} (last : (sb.size + bpb - 1) / bpb = k + rows) (enough : rows ≤ rounds) :
    (ballocFrom sb rounds (k * bpb)).run s =
    match (List.range' k rows).findSome? fun k => (scan sb.size (s.disk (sb.bblock (k * bpb))) (k * bpb) bpb 0).map
    (k * bpb + ·) with
    | none => .ok (0, s)
    | some n => .ok (n, taken sb s n) := by
  induction rows generalizing k rounds with
  | zero =>
    cases rounds with
    | zero => rfl
    | succ rounds =>
      rw [ballocFrom, if_neg (Op.lt_rows.not.mp (by omega))]
      rfl
  | succ rows ih =>
    obtain ⟨rounds, rfl⟩ := Nat.exists_eq_add_of_le' (Nat.one_le_of_lt enough)
    rw [ballocFrom_round (Op.lt_rows.mp (by omega)), List.range'_succ, List.findSome?_cons]
    cases scan sb.size (s.disk (sb.bblock (k * bpb))) (k * bpb) bpb 0 with
    | none => exact ih (by omega) (by omega)
    | some bi => rfl

theorem balloc_run (sb : Extent) (s : Store) : (balloc sb).run s =
    match (List.range sb.size).find? fun b => !sb.marked s.disk b with
    | none => .ok (0, s)
    | some n => .ok (n, taken sb s n) := by
  have rows : (sb.size + bpb - 1) / bpb ≤ sb.size :=
    not_lt.mp (Op.lt_rows.not.mpr (Nat.le_mul_of_pos_right _ (by decide)).not_gt)
  have loops := ballocFrom_search (s := s) (Nat.zero_add _).symm rows
  simp only [Nat.zero_mul, ← List.range_eq_range', scan_eq_find, Extent.bblock,
    Nat.mul_div_cancel _ (show 0 < bpb by decide)] at loops
  rw [balloc, loops, List.find?_rows (not_lt.mp (Op.lt_rows.not.mp (lt_irrefl _))) fun k bi =>
    !(s.disk ((k + sb.bmapstart) % UInt32.size)).bit bi]
  rfl

theorem balloc_found (clear : sb.marked s.disk n = false) (inside : n < sb.size)
    (least : ∀ c < n, sb.marked s.disk c = true) :
    (balloc sb).run s = .ok (n, taken sb s n) := by
  rw [balloc_run,
    List.find?_range_eq_some.mpr ⟨by simp [clear], List.mem_range.mpr inside, fun c below => by simp [least c below]⟩]

theorem bblock_eq {sb : Superblock} (inside : b < sb.size) : Extent.bblock ⟨sb.size, sb.bmapstart⟩ b = sb.bblock b := by
  have := Nat.div_le_div_right (c := bpb) inside.le
  have := sb.bitmap_end
  have := sb.size_lt
  exact Nat.mod_eq_of_lt (by dsimp only; omega)

/-- Over the superblock of a file system this is `balloc` as the inode functions call it. -/
theorem balloc_eq (sb : Superblock) : Op.balloc sb = UInt32.ofNat <$> balloc ⟨sb.size, sb.bmapstart⟩ := by
  funext s
  change (Op.balloc sb).run s = (UInt32.ofNat <$> balloc _).run s
  rw [StateT.run_map, balloc_run, Op.balloc, StateT.run_bind, StateT.run_get, pure_bind]
  have same :
      Op.findFree sb s.disk = (List.range sb.size).find? fun b => !Extent.marked ⟨sb.size, sb.bmapstart⟩ s.disk b := by
    rw [Op.findFree_eq_find]
    refine List.find?_congr fun b mem => ?_
    rw [Op.bit_eq (List.mem_range.mp mem), Extent.marked, bblock_eq (List.mem_range.mp mem)]
  rw [← same]
  cases found : Op.findFree sb s.disk with
  | none => rfl
  | some n =>
    dsimp only
    rw [taken, bblock_eq (Op.findFree_eq_some found).1]
    rfl

theorem bfree_eq {sb : Superblock} (inside : b < sb.size) : Op.bfree sb b = bfree ⟨sb.size, sb.bmapstart⟩ b := by
  rw [Op.bfree, bfree, bblock_eq inside]
  refine bind_congr fun bp => ?_
  cases bp.bit (b % bpb) <;> rfl

theorem taken_bit (other : b ≠ n) (j : ℕ) :
    ((taken sb s n).disk b).bit j = ((s.disk b).bit j || decide (b = sb.bblock n ∧ n % bpb = j)) := by
  have room : n % bpb < 8 * bsize := Nat.mod_lt _ (by decide)
  dsimp only [taken]
  rw [update_of_ne other]
  by_cases here : b = sb.bblock n
  · rw [here, update_self, Vector.bit_setBit]
    simp only [room, and_true, true_and]
    by_cases same : n % bpb = j <;> simp [same]
  · simp [here]

/-- What `bfree` leaves. -/
def freed (sb : Extent) (s : Store) (n : ℕ) : Store :=
  ⟨Function.update s.disk (sb.bblock n) ((s.disk (sb.bblock n)).clearBit (n % bpb)), s.logged ++ [sb.bblock n]⟩

theorem bfree_run (used : sb.marked s.disk n = true) : (bfree sb n).run s = .ok ((), freed sb s n) := by
  rw [Extent.marked] at used
  rw [bfree, run_bread_bind, if_neg (by simp [used])]
  rfl

theorem freed_bit (j : ℕ) :
    ((freed sb s n).disk b).bit j = ((s.disk b).bit j && !decide (b = sb.bblock n ∧ n % bpb = j)) := by
  dsimp only [freed]
  by_cases here : b = sb.bblock n
  · rw [here, update_self, Vector.bit_clearBit]
    by_cases same : n % bpb = j <;> simp [same]
  · simp [here]

/-- Blocks of one bitmap block have bits of their own there. -/
private theorem bblock_injective {a b : ℕ} (low : a < 2 ^ 30) (high : b < 2 ^ 30) (block : sb.bblock a = sb.bblock b)
    (bit : a % bpb = b % bpb) :
    a = b := by
  have quotient : a / bpb = b / bpb := by
    have bpb_eq : bpb = 8192 := rfl
    have size_eq : UInt32.size = 4294967296 := rfl
    simp only [Extent.bblock, bpb_eq, size_eq] at block ⊢
    omega
  rw [← Nat.div_add_mod a bpb, ← Nat.div_add_mod b bpb, quotient, bit]

/-- `balloc` returns zero, with nothing changed, when all bits are set. Otherwise it returns the first block with a
clear bit and zeroes it. If that is not a block of the bitmap, its bit is the only one that changes in any other block,
and `bfree` changes it back. -/
theorem balloc_first_free (sb : Extent) (s : Store) (small : sb.size < 2 ^ 30) (reserved : sb.marked s.disk 0 = true) :
    ((balloc sb).run s = .ok (0, s) ↔ ∀ b < sb.size, sb.marked s.disk b = true) ∧
    ∀ n < sb.size, sb.marked s.disk n = false → (∀ b < n, sb.marked s.disk b = true) →
      ∃ s', (balloc sb).run s = .ok (n, s') ∧ s'.disk n = Vector.replicate _ 0 ∧
        (∀ c, c ≠ n → c ≠ sb.bblock n → s'.disk c = s.disk c) ∧
        ((∀ b < sb.size, sb.bblock b ≠ n) →
          (∀ b < sb.size, sb.marked s'.disk b = (sb.marked s.disk b || decide (b = n))) ∧
          (∀ j ≠ n % bpb, (s'.disk (sb.bblock n)).bit j = (s.disk (sb.bblock n)).bit j) ∧
          ∃ s'', (bfree sb n).run s' = .ok ((), s'') ∧ s''.disk n = s'.disk n ∧
            ∀ c ≠ n, ∀ j, (s''.disk c).bit j = (s.disk c).bit j) := by
  constructor
  · rw [balloc_run]
    cases found : (List.range sb.size).find? fun b => !sb.marked s.disk b with
    | none => exact ⟨fun _ => by simpa using found, fun _ => rfl⟩
    | some n =>
      obtain ⟨clear, inside, -⟩ := List.find?_range_eq_some.mp found
      refine ⟨fun ran => ?_, fun full => ?_⟩
      · obtain rfl : n = 0 := congrArg Prod.fst (Except.ok.inj ran)
        simp [reserved] at clear
      · simp [full n (List.mem_range.mp inside)] at clear
  · intro n inside clear least
    refine ⟨taken sb s n, balloc_found clear inside least, update_self .., fun c other bitmap => ?_, fun apart => ?_⟩
    · exact (update_of_ne other ..).trans (update_of_ne bitmap ..)
    have own : sb.bblock n ≠ n := apart n inside
    have used : sb.marked (taken sb s n).disk n = true := by rw [Extent.marked, taken_bit own]; simp
    refine ⟨fun b known => ?_, fun j other => ?_, _, bfree_run used, update_of_ne own.symm .., fun c other j => ?_⟩
    · rw [Extent.marked, taken_bit (apart b known), Extent.marked]
      congr 2
      exact propext ⟨fun same =>
        bblock_injective (by omega) (by omega) same.1 same.2.symm, by rintro rfl; exact ⟨rfl, rfl⟩⟩
    · rw [taken_bit own]
      simp [Ne.symm other]
    · rw [freed_bit, taken_bit other]
      by_cases here : c = sb.bblock n ∧ n % bpb = j
      · obtain ⟨rfl, rfl⟩ := here
        rw [Extent.marked] at clear
        simp [clear]
      · simp [here]

/-- Every block has its first three bits set, whichever is the bitmap. -/
def three : Store := ⟨fun _ => (((Vector.replicate _ 0).setBit 0).setBit 1).setBit 2, []⟩

private theorem three_marked (sb : Extent) {b : ℕ} (low : b < 4) : sb.marked three.disk b = decide (b ≠ 3) := by
  have room : 8 * bsize = 8192 := rfl
  rw [Extent.marked, Nat.mod_eq_of_lt (lt_trans low (by decide))]
  simp only [three, Vector.bit_setBit, Vector.bit_zeros, room]
  grind

/-- Of four blocks, the bitmap behind them, the last one is taken and given back. -/
theorem balloc_last : ∃ s' s'', (balloc ⟨4, 5⟩).run three = .ok (3, s') ∧ (bfree ⟨4, 5⟩ 3).run s' = .ok ((), s'') ∧
    ∀ c ≠ 3, ∀ j, (s''.disk c).bit j = (three.disk c).bit j := by
  have first := balloc_first_free ⟨4, 5⟩ three (by decide) (three_marked _ (by decide))
  obtain ⟨s', ran, -, -, exact⟩ := first.2 3 (by decide) (three_marked _ (by decide)) fun b below =>
    (three_marked _ (by omega)).trans (decide_eq_true (by omega))
  have outside : ∀ b < 4, Extent.bblock ⟨4, 5⟩ b ≠ 3 := by decide
  obtain ⟨-, -, s'', back, -, same⟩ := exact outside
  exact ⟨s', s'', ran, back, same⟩

/-- The last one of the four is the bitmap itself: it is taken and zeroed, so that every bit is lost. -/
theorem balloc_bitmap : Extent.marked ⟨4, 3⟩ three.disk 0 = true ∧ ∃ s', (balloc ⟨4, 3⟩).run three = .ok (3, s') ∧
    Extent.marked ⟨4, 3⟩ s'.disk 0 = false ∧ (bfree ⟨4, 3⟩ 3).run s' = .error .freeingFreeBlock := by
  have lost (j : ℕ) : ((taken ⟨4, 3⟩ three 3).disk 3).bit j = false := by
    dsimp only [taken]
    rw [update_self, Vector.bit_zeros]
  refine ⟨three_marked _ (by decide), _, balloc_found (three_marked _ (by decide)) (by decide) fun b below =>
    (three_marked _ (by omega)).trans (decide_eq_true (by omega)), lost _, ?_⟩
  rw [bfree, run_bread_bind, show Extent.bblock ⟨4, 3⟩ 3 = 3 from rfl, if_pos (lost _)]
  rfl

end Xv6.Fs.Bitmap
