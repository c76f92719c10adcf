import Mathlib.Data.Finset.Card
import Xv6.Model.Fs.File
import Xv6.Proofs.Fs.Contents
import Xv6.Proofs.Fs.Truncate

/-! # One chunk fits one reservation

The blocks that a call of `writei` gives to `log_write`, counted without repetitions. A round of its loop costs
a data block and a bitmap block; the indirect block is logged once for each entry but counts once, and its own
bitmap block is paid for once. Nothing is assumed of the blocks that the inode leads to.
-/

namespace Xv6.Fs

open Machine Finset

namespace Op

variable {sb : Superblock} {s s' s'' : Store} {ip ip' ip'' : Inode}

/-- `bmap` finds a block of the file without `balloc`. -/
def Mapped (disk : ℕ → Block) (ip : Inode) (bn : ℕ) : Prop :=
  if bn < ndirect then ip.addr bn ≠ 0
  else ip.addr ndirect ≠ 0 ∧ (disk (ip.addr ndirect).toNat).word (bn - ndirect) ≠ 0

/-- The indirect block, where there is one. -/
def indirect (ip : Inode) : Finset ℕ := if ip.addr ndirect = 0 then ∅ else {(ip.addr ndirect).toNat}

theorem indirect_of_eq_zero (absent : ip.addr ndirect = 0) : indirect ip = ∅ := if_pos absent

theorem indirect_of_ne_zero (present : ip.addr ndirect ≠ 0) : indirect ip = {(ip.addr ndirect).toNat} := if_neg present

theorem indirect_congr (same : ip'.addr ndirect = ip.addr ndirect) : indirect ip' = indirect ip := by
  rw [indirect, same, indirect]

theorem card_indirect_le (ip : Inode) : (indirect ip).card ≤ 1 := by
  by_cases absent : ip.addr ndirect = 0
  · rw [indirect_of_eq_zero absent]
    exact Nat.zero_le 1
  · rw [indirect_of_ne_zero absent, card_singleton]

/-- The blocks logged are in `m`. The indirect block is not charged to `n`, but its allocation costs one more. -/
structure Costs (m : Finset ℕ) (n : ℕ) (s : Store) (ip : Inode) (s' : Store) (ip' : Inode) : Prop where
  logged : ∃ l, s'.logged = s.logged ++ l ∧ ∀ b ∈ l, b ∈ m
  kept : indirect ip ⊆ indirect ip'
  count : (m \ indirect ip').card + (1 - (indirect ip').card) ≤ n + (1 - (indirect ip).card)

namespace Costs

variable {m t : Finset ℕ} {n n' : ℕ}

theorem refl (s : Store) (ip : Inode) (n : ℕ) : Costs ∅ n s ip s ip where
  logged := ⟨[], (List.append_nil _).symm, fun _ listed => (List.not_mem_nil listed).elim⟩
  kept := Subset.refl _
  count := by
    rw [empty_sdiff, card_empty]
    omega

theorem trans (first : Costs m n s ip s' ip') (second : Costs t n' s' ip' s'' ip'') :
    Costs (m ∪ t) (n + n') s ip s'' ip'' where
  logged := by
    obtain ⟨l, early, inFirst⟩ := first.logged
    obtain ⟨l', late, inSecond⟩ := second.logged
    refine ⟨l ++ l', by rw [late, early, List.append_assoc], fun b listed => ?_⟩
    rcases List.mem_append.mp listed with before | after
    · exact mem_union_left _ (inFirst b before)
    · exact mem_union_right _ (inSecond b after)
  kept := first.kept.trans second.kept
  count := by
    have joined : ((m ∪ t) \ indirect ip'').card ≤ (m \ indirect ip'').card + (t \ indirect ip'').card := by
      rw [union_sdiff_distrib]
      exact card_union_le ..
    have fewer : (m \ indirect ip'').card ≤ (m \ indirect ip').card :=
      card_le_card (sdiff_subset_sdiff (Subset.refl m) second.kept)
    have := first.count
    have := second.count
    omega

theorem logs {b : ℕ} {disk : ℕ → Block} (costs : Costs m n s ip s' ip') (counted : b ∈ m) :
    Costs m n s ip ⟨disk, s'.logged ++ [b]⟩ ip' where
  logged := by
    obtain ⟨l, logged, inside⟩ := costs.logged
    refine ⟨l ++ [b], by rw [logged, List.append_assoc], fun c listed => ?_⟩
    rcases List.mem_append.mp listed with before | last
    · exact inside c before
    · rwa [List.mem_singleton.mp last]
  kept := costs.kept
  count := costs.count

theorem silent {disk : ℕ → Block} (costs : Costs m n s ip s' ip') : Costs m n s ip ⟨disk, s'.logged⟩ ip' :=
  ⟨costs.logged, costs.kept, costs.count⟩

/-- The blocks logged, the indirect block included. -/
theorem card_le (costs : Costs m n s ip s' ip') : m.card ≤ n + 2 := by
  have split := card_sdiff_add_card m (indirect ip')
  have whole : m.card ≤ (m ∪ indirect ip').card := card_le_card subset_union_left
  have one := card_indirect_le ip'
  have := costs.count
  have := card_le_card costs.kept
  omega

end Costs

theorem balloc_logs (sb : Superblock) (s : Store) :
    Ensures (balloc sb) s (fun a s' => ∃ c l, s'.logged = s.logged ++ l ∧
    ∀ b ∈ l, b = c ∨ b = a.toNat) fun _ => False := by
  unfold balloc
  refine .get_bind ?_
  cases found : findFree sb s.disk with
  | none => exact .pure ⟨0, [], (List.append_nil _).symm, fun _ listed => (List.not_mem_nil listed).elim⟩
  | some b =>
    have small : b < UInt32.size := (findFree_eq_some found).1.trans sb.size_lt
    refine bread_bind (logWrite_bind (logWrite_bind (.pure ⟨sb.bblock b, [sb.bblock b, b], ?_, fun c listed => ?_⟩)))
    · exact List.append_assoc ..
    · rw [UInt32.toNat_ofNat_of_lt' small]
      exact List.mem_pair.mp listed

theorem filled_logs (a : UInt32) : Ensures (filled sb a) s (fun a' s' => (a ≠ 0 → a' = a ∧ s' = s) ∧
    ∃ c l, s'.logged = s.logged ++ l ∧ ∀ b ∈ l, b = c ∨ b = a'.toNat) fun _ => False := by
  refine .ite (fun zero => ?_) fun nonzero => .pure ⟨fun _ => ⟨rfl, rfl⟩, 0, [], (List.append_nil _).symm,
    fun _ listed =>
    (List.not_mem_nil listed).elim⟩
  exact (balloc_logs sb s).mono fun _ _ logs => ⟨fun nonzero => (nonzero zero).elim, logs⟩

theorem bmapEntry_logs (i j : ℕ) : Ensures (bmapEntry sb i j) s (fun a s' => ∃ c l, s'.logged = s.logged ++ l ∧
    ∀ b ∈ l, b = c ∨ b = a.toNat ∨ b = i) fun _ => False := by
  refine bread_bind (.ite (fun _ => ?_) fun _ => .pure ⟨0, [], (List.append_nil _).symm, fun _ listed =>
    (List.not_mem_nil listed).elim⟩)
  refine (balloc_logs sb s).bind ?_
  rintro a s₁ ⟨c, l, logged, inside⟩
  refine .ite (fun zero => .pure ⟨c, l, logged, fun b listed => ?_⟩) fun _ => ?_
  · rw [← zero]
    exact (inside b listed).imp_right .inl
  · refine bread_bind (logWrite_bind (.pure ⟨c, l ++ [i], ?_, fun b listed => ?_⟩))
    · rw [logged, List.append_assoc]
    · rcases List.mem_append.mp listed with before | last
      · exact (inside b before).imp_right .inl
      · exact .inr (.inr (List.mem_singleton.mp last))

/-- The block of an indirect entry is the entry's, whatever it is; a direct one is a slot of the inode. -/
theorem Costs.of_listed {c a : ℕ} {l : List ℕ} (logged : s'.logged = s.logged ++ l) (same : indirect ip' = indirect ip)
    (counted : ∀ b ∈ l, b = c ∨ b = a ∨ b ∈ indirect ip) : Costs ({c, a} ∪ indirect ip) 2 s ip s' ip' where
  logged := ⟨l, logged, fun b listed => by
    rw [mem_union, mem_insert, mem_singleton, or_assoc]
    exact counted b listed⟩
  kept := same.symm.subset
  count := by
    have fewer : (({c, a} ∪ indirect ip) \ indirect ip).card ≤ 2 := by
      rw [union_sdiff_right]
      exact (card_le_card sdiff_subset).trans card_le_two
    rw [same]
    omega

theorem Costs.of_allocated {c₀ c a i : ℕ} {l : List ℕ} (logged : s'.logged = s.logged ++ l) (before : indirect ip = ∅)
    (after : indirect ip' = {i}) (counted : ∀ b ∈ l, b = c₀ ∨ b = c ∨ b = a ∨ b = i) :
    Costs ({c₀, c, a} ∪ {i}) 2 s ip s' ip' where
  logged := ⟨l, logged, fun b listed => by
    simp only [mem_union, mem_insert, mem_singleton, or_assoc]
    exact counted b listed⟩
  kept := by
    rw [before]
    exact empty_subset _
  count := by
    have fewer : (({c₀, c, a} ∪ {i}) \ ({i} : Finset ℕ)).card ≤ 3 := by
      rw [union_sdiff_right]
      exact (card_le_card sdiff_subset).trans card_le_three
    rw [before, after, card_singleton, card_empty]
    omega

theorem bmap_logs {bn : ℕ} (inside : bn < maxfile) : Ensures (bmap sb ip bn) s (fun r s' => ∃ m, r.2.toNat ∈ m ∧
    Costs m 2 s ip s' r.1) fun _ => False := by
  refine .ite (fun direct => ?_) fun far => .ite (fun near => ?_) fun outside => ?_
  · refine (filled_logs _).bind ?_
    rintro a s' ⟨-, c, l, logged, counted⟩
    have costs {ip' : Inode} (same : indirect ip' = indirect ip) : a.toNat ∈ {c, a.toNat} ∪ indirect ip ∧
        Costs ({c, a.toNat} ∪ indirect ip) 2 s ip s' ip' :=
      ⟨mem_union_left _ (mem_insert_of_mem (mem_singleton_self _)),
        .of_listed logged same fun b listed => (counted b listed).imp_right .inl⟩
    by_cases zero : a = 0
    · rw [if_pos zero]
      exact .pure ⟨_, zero ▸ costs rfl⟩
    · rw [if_neg zero]
      refine .pure ⟨_, costs (indirect_congr ?_)⟩
      exact (ip.addr_setAddr direct.le a).trans (if_neg (by omega))
  · refine (filled_logs _).bind ?_
    rintro i s₁ ⟨found, c₀, l₀, logged₀, counted₀⟩
    by_cases zero : i = 0
    · rw [if_pos zero]
      refine .pure ⟨{c₀, 0} ∪ indirect ip, mem_union_left _ (mem_insert_of_mem (mem_singleton_self _)),
        .of_listed logged₀ rfl fun b listed => ?_⟩
      rw [zero] at counted₀
      exact (counted₀ b listed).imp_right .inl
    rw [if_neg zero]
    refine (bmapEntry_logs i.toNat _).bind ?_
    rintro a s' ⟨c, l, logged, counted⟩
    have after : indirect { ip with toDinode := ip.setAddr ndirect i } = {i.toNat} := by
      have stored : (ip.setAddr ndirect i).addr ndirect = i := (ip.addr_setAddr le_rfl i).trans (if_pos rfl)
      rw [indirect_of_ne_zero (by rwa [stored]), stored]
    by_cases absent : ip.addr ndirect = 0
    · refine .pure
        ⟨{c₀, c, a.toNat} ∪ {i.toNat}, by simp, .of_allocated (l := l₀ ++ l) ?_ (indirect_of_eq_zero absent) after
        fun b listed => ?_⟩
      · rw [logged, logged₀, List.append_assoc]
      · rcases List.mem_append.mp listed with early | late
        · rcases counted₀ b early with bitmap | block
          · exact .inl bitmap
          · exact .inr (.inr (.inr block))
        · exact .inr (counted b late)
    · obtain ⟨rfl, rfl⟩ := found absent
      have before := indirect_of_ne_zero absent
      refine .pure ⟨{c, a.toNat} ∪ indirect ip, by simp, .of_listed logged (after.trans before.symm) fun b listed => ?_⟩
      rw [before, mem_singleton]
      exact counted b listed
  · rw [maxfile] at inside
    omega

theorem bmap_of_mapped {bn : ℕ} (inside : bn < maxfile) (mapped : Mapped s.disk ip bn) :
    Ensures (bmap sb ip bn) s (fun r s' => s' = s ∧ r.1 = ip) fun _ => False := by
  unfold Mapped at mapped
  refine .ite (fun direct => ?_) fun far => .ite (fun near => ?_) fun outside => ?_
  · rw [if_pos direct] at mapped
    refine (filled_logs _).bind ?_
    rintro a s' ⟨found, -⟩
    obtain ⟨rfl, rfl⟩ := found mapped
    rw [if_neg mapped, Dinode.setAddr_addr]
    exact .pure ⟨rfl, rfl⟩
  · rw [if_neg far] at mapped
    refine (filled_logs _).bind ?_
    rintro a s' ⟨found, -⟩
    obtain ⟨rfl, rfl⟩ := found mapped.1
    rw [if_neg mapped.1, Dinode.setAddr_addr]
    exact (bmapEntry_of_ne mapped.2).bind fun _ _ after => .pure ⟨after.1, rfl⟩
  · rw [maxfile] at inside
    omega

section Loop

variable {src : ℕ → Option UInt8} {n : ℕ}

/-- After its first round the loop starts at the start of a block, unless it ends. -/
theorem writeLoop_logs (fuel k tot off : ℕ) (aligned : tot < n → off % bsize = 0) (few : n ≤ tot + k * bsize)
    (inside : off + (n - tot) ≤ maxfile * bsize) :
    Ensures (writeLoop sb src n fuel ip tot off) s (fun r s' => ∃ m, Costs m (2 * k) s ip s' r.1) fun _ => False := by
  induction fuel generalizing k tot off s ip with
  | zero => exact .pure ⟨∅, .refl ..⟩
  | succ fuel ih =>
    refine .ite (fun more => ?_) fun _ => .pure ⟨∅, .refl ..⟩
    have first := aligned more
    obtain ⟨k, rfl⟩ : ∃ k', k = k' + 1 := Nat.exists_eq_succ_of_ne_zero (by rintro rfl; omega)
    have positive : 0 < bsize := by decide
    refine (bmap_logs (Nat.div_lt_of_lt_mul (by rw [Nat.mul_comm]; omega))).bind ?_
    rintro ⟨ip₁, addr⟩ s₁ ⟨m, counted, costs⟩
    have costs' : Costs m (2 * (k + 1)) s ip s₁ ip₁ := by
      have := costs.trans (Costs.refl s₁ ip₁ (2 * k))
      rwa [union_empty, show 2 + 2 * k = 2 * (k + 1) by omega] at this
    refine .ite (fun _ => .pure ⟨m, costs'⟩) fun _ => bread_bind (.ite (fun _ => ?_) fun _ => ?_)
    · exact scribble_bind (.pure ⟨m, costs'.silent⟩)
    · refine logWrite_bind ((ih k _ _ ?_ ?_ ?_).mono ?_)
      · intro rest
        rw [first, Nat.sub_zero] at rest ⊢
        rw [Nat.min_eq_right (by omega), Nat.add_mod_right, first]
      · rw [first, Nat.sub_zero]
        rw [Nat.add_mul, Nat.one_mul] at few
        omega
      · omega
      · rintro ⟨ip', tot', off'⟩ s' ⟨m', rest⟩
        refine ⟨m ∪ m', ?_⟩
        rw [show 2 * (k + 1) = 2 + 2 * k by omega]
        exact (costs.logs counted).trans rest

/-- The first block is mapped where the range starts inside of it. -/
theorem writeLoop_logs_of_mapped {k off : ℕ} (fuel : ℕ) (mapped : off % bsize ≠ 0 → Mapped s.disk ip (off / bsize))
    (few : n ≤ k * bsize) (inside : off + n ≤ maxfile * bsize) :
    Ensures (writeLoop sb src n fuel ip 0 off) s (fun r s' => ∃ m, Costs m (1 + 2 * k) s ip s' r.1) fun _ => False := by
  have room : off + (n - 0) ≤ maxfile * bsize := by omega
  by_cases aligned : off % bsize = 0
  · refine (writeLoop_logs fuel k 0 off (fun _ => aligned) (by omega) room).mono ?_
    rintro ⟨ip', tot', off'⟩ s' ⟨m, costs⟩
    exact ⟨∅ ∪ m, (Costs.refl s ip 1).trans costs⟩
  cases fuel with
  | zero => exact .pure ⟨∅, .refl ..⟩
  | succ fuel =>
    refine .ite (fun more => ?_) fun _ => .pure ⟨∅, .refl ..⟩
    refine (bmap_of_mapped (Nat.div_lt_of_lt_mul (by rw [Nat.mul_comm]; omega)) (mapped aligned)).bind ?_
    rintro ⟨ip', addr⟩ s' after
    obtain ⟨rfl, rfl⟩ : s' = s ∧ ip' = ip := after
    refine .ite (fun _ => .pure ⟨∅, .refl ..⟩) fun _ => bread_bind (.ite (fun _ => ?_) fun _ => ?_)
    · exact scribble_bind (.pure ⟨∅, (Costs.refl ..).silent⟩)
    · -- the block is overwritten, and the rest of the range starts at the next one
      have one : Costs {addr.toNat} 1 s' ip' s' ip' := by
        refine ⟨(Costs.refl s' ip' 1).logged.imp fun l none => ⟨none.1, fun b listed => ?_⟩, Subset.refl _, ?_⟩
        · exact (notMem_empty _ (none.2 b listed)).elim
        · have := card_le_card (sdiff_subset (s := {addr.toNat}) (t := indirect ip'))
          rw [card_singleton] at this
          omega
      refine logWrite_bind ((writeLoop_logs fuel k _ _ (fun rest => ?_) (by omega) (by omega)).mono ?_)
      · rw [Nat.min_eq_right (by omega)]
        have := Nat.mod_lt off (show 0 < bsize by decide)
        have := Nat.div_add_mod off bsize
        rw [show off + (bsize - off % bsize) = bsize * (off / bsize + 1) by rw [Nat.mul_add]; omega, Nat.mul_mod_right]
      · rintro ⟨ip, tot', off'⟩ s ⟨m, costs⟩
        exact ⟨{addr.toNat} ∪ m, (one.logs (mem_singleton_self _)).trans costs⟩

end Loop

theorem iupdate_logs (ip : Inode) : Ensures (iupdate sb ip) s (fun _ s' => s'.logged = s.logged ++ [sb.iblock ip.inum])
    fun _ => False :=
  bread_bind (logWrite_spec rfl)

/-- Two blocks for each block of the range, the block in which it starts, the indirect block with its bitmap block, and
the block of the inode. -/
theorem writei_logs {src : ℕ → Option UInt8} {off n : UInt32} {k : ℕ}
    (mapped : ∀ bn < maxfile, bn * bsize < ip.size.toNat → Mapped s.disk ip bn) (few : n.toNat ≤ k * bsize) :
    Ensures (writei sb ip src off n) s (fun _ s' => ∃ l, s'.logged = s.logged ++ l ∧ l.toFinset.card ≤ 2 * k + 4)
      fun _ => False := by
  have nothing : ∃ l, s.logged = s.logged ++ l ∧ l.toFinset.card ≤ 2 * k + 4 :=
    ⟨[], (List.append_nil _).symm, Nat.zero_le _⟩
  refine .ite (fun _ => .pure nothing) fun inside => .ite (fun _ => .pure nothing) fun fits => ?_
  obtain ⟨low, noWrap⟩ := not_or.mp inside
  have sum := toNat_add_of_not_wrap noWrap
  have start : off.toNat ≤ ip.size.toNat := UInt32.le_iff_toNat_le.mp (UInt32.not_lt.mp low)
  have first (within : off.toNat % bsize ≠ 0) : Mapped s.disk ip (off.toNat / bsize) := by
    have split := Nat.div_add_mod off.toNat bsize
    refine mapped _ (Nat.div_lt_of_lt_mul ?_) ?_
    · refine lt_of_le_of_ne (by rw [Nat.mul_comm]; omega) fun last => within ?_
      rw [last, Nat.mul_mod_right]
    · rw [Nat.mul_comm]
      omega
  refine (writeLoop_logs_of_mapped _ first few (by omega)).bind ?_
  rintro ⟨ip', tot, stop⟩ s' ⟨m, costs⟩
  obtain ⟨l, logged, counted⟩ := costs.logged
  refine (iupdate_logs _).bind fun _ s'' noted => .pure ⟨l ++ [_], by rw [noted, logged, List.append_assoc], ?_⟩
  have listed : l.toFinset ⊆ m := fun b here => counted b (List.mem_toFinset.mp here)
  have := card_le_card listed
  have := costs.card_le
  rw [List.toFinset_append]
  refine (card_union_le ..).trans ?_
  calc l.toFinset.card + _ ≤ (2 * k + 3) + 1 := Nat.add_le_add (by omega) (List.toFinset_card_le _)
    _ = 2 * k + 4 := rfl

/-- The chunk of `filewrite` fits what `begin_op` reserves. -/
theorem chunk_fits_reservation (sb : Superblock) (s : Store) (ip : Inode) (src : ℕ → Option UInt8) (off n : UInt32)
    (mapped : ∀ bn < maxfile, bn * bsize < ip.size.toNat → Mapped s.disk ip bn) (chunk : n.toNat ≤ File.maxChunk) :
    ∃ r s', (writei sb ip src off n).run s = .ok (r, s') ∧
      ∃ l, s'.logged = s.logged ++ l ∧ l.toFinset.card ≤ maxOpBlocks := by
  refine Ensures.exists_run ?_
  have three : n.toNat ≤ 3 * bsize := chunk.trans (by decide)
  exact (writei_logs mapped three).mono fun _ _ logs => logs

/-- A file of five bytes. -/
def fiveBytes : Inode :=
  ⟨{ Dinode.zero with type := 2, nlink := 1, size := 5, addrs := (Vector.replicate _ 0).set 0 2 }, 1⟩

theorem chunk_fits_reservation_fiveBytes :
    ∃ r s', (writei tiny fiveBytes (fun _ => some 7) 5 3072).run blank = .ok (r, s') ∧
      ∃ l, s'.logged = blank.logged ++ l ∧ l.toFinset.card ≤ maxOpBlocks := by
  refine chunk_fits_reservation tiny blank fiveBytes (fun _ => some 7) 5 3072 (fun bn _ below => ?_) (by decide)
  obtain rfl : bn = 0 := by
    have size : fiveBytes.size.toNat = 5 := rfl
    rw [size, bsize] at below
    omega
  exact show fiveBytes.addr 0 ≠ 0 by decide

end Op

end Xv6.Fs
