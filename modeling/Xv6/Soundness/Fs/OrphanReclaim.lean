import Xv6.Proofs.Fs.Incore
import Xv6.Proofs.Fs.Realise

/-! # Orphans are reclaimed

`ireclaim` runs before the first use of the file system; only the entry of the root directory is in use
then. Every inode that a crash has left allocated without links is freed, with its blocks, and nothing else
changes.
-/

namespace Xv6.Fs

open Machine Image Op
open Itable (ninode)

namespace Kern

variable {sb : Superblock} {k k' : Kernel} {i n : ℕ}

/-- The orphans below `n` are freed, and all other inodes are as they were. -/
structure Reclaimed (sb : Superblock) (base : Kernel) (n : ℕ) (k : Kernel) : Prop where
  consistent : Consistent sb (sb.image k.store.disk)
  owns : Owns sb base.table 0 ∅ k
  freed : ∀ i, 1 ≤ i → i < n → Orphan (sb.image base.store.disk) i → ((sb.image k.store.disk).inode i).type = 0 ∧
    ∀ j b, (sb.image base.store.disk).held (i, j) = some b → (sb.image k.store.disk).bit b = false
  kept : ∀ i, ¬ (1 ≤ i ∧ i < n ∧ Orphan (sb.image base.store.disk) i) →
    (sb.image k.store.disk).inode i = (sb.image base.store.disk).inode i ∧
    (∀ o, (sb.image k.store.disk).byte i o = (sb.image base.store.disk).byte i o) ∧
    ∀ j, (sb.image k.store.disk).slot i j = (sb.image base.store.disk).slot i j

variable {base : Kernel}

theorem Reclaimed.skip (reclaimed : Reclaimed sb base n k) (linked : ¬ Orphan (sb.image base.store.disk) n) :
    Reclaimed sb base (n + 1) k := by
  refine ⟨reclaimed.consistent, reclaimed.owns, fun i low high orphan => ?_, fun i other => reclaimed.kept i ?_⟩
  · refine reclaimed.freed i low (lt_of_le_of_ne (Nat.le_of_lt_succ high) ?_) orphan
    rintro rfl
    exact linked orphan
  · exact fun before => other ⟨before.1, Nat.lt_succ_of_lt before.2.1, before.2.2⟩

theorem Reclaimed.free (reclaimed : Reclaimed sb base n k) (low : 1 ≤ n) (orphan : Orphan (sb.image base.store.disk) n)
    (consistent : Consistent sb (sb.image k'.store.disk)) (owns : Owns sb base.table 0 ∅ k')
    (type : ((sb.image k'.store.disk).inode n).type = 0)
    (released : Released (sb.image k.store.disk) n (sb.image k'.store.disk)) : Reclaimed sb base (n + 1) k' := by
  have before := reclaimed.kept n fun earlier => lt_irrefl n earlier.2.1
  have cleared (b : ℕ) (free : (sb.image k.store.disk).bit b = false) : (sb.image k'.store.disk).bit b = false := by
    rw [Bool.eq_false_iff, Ne, released.bit, free]
    simp
  refine ⟨consistent, owns, fun i first last orphan' => ?_, fun i other => ?_⟩
  · rcases Nat.lt_succ_iff_lt_or_eq.mp last with earlier | rfl
    · obtain ⟨gone, bits⟩ := reclaimed.freed i first earlier orphan'
      refine ⟨?_, fun j b held => cleared b (bits j b held)⟩
      rw [released.inode i earlier.ne]
      exact gone
    · refine ⟨type, fun j b held => ?_⟩
      rw [Bool.eq_false_iff, Ne, released.bit]
      rintro ⟨-, apart⟩
      refine apart j ?_
      rw [held_congr (before.2.2 j), held]
  · have distinct : i ≠ n := by
      rintro rfl
      exact other ⟨low, Nat.lt_succ_self i, orphan⟩
    obtain ⟨inode, byte, slot⟩ :=
      reclaimed.kept i fun earlier => other ⟨earlier.1, Nat.lt_succ_of_lt earlier.2.1, earlier.2.2⟩
    exact ⟨(released.inode i distinct).trans inode, fun o => (released.byte i distinct o).trans (byte o),
      fun j => (released.slot i distinct j).trans (slot j)⟩

theorem ireclaim_round (reclaimed : Reclaimed sb base n k) (low : 1 ≤ n) (known : n < sb.ninodes)
    (room : ∃ p, (base.table p).ref = 0)
    (linked : ∀ p, 0 < (base.table p).ref → ¬ Orphan (sb.image base.store.disk) (base.table p).inum) :
    Ensures (do
      let dip ← onDisk sb n
      if dip.type ≠ 0 ∧ dip.nlink = 0 then
        let ip ← iget n
        ilock sb ip
        iunlock ip
        iput sb ip
      else return ()) k (fun _ k' => Reclaimed sb base (n + 1) k') fun _ => False := by
  have before := (reclaimed.kept n fun earlier => lt_irrefl n earlier.2.1).1
  have inode : (sb.image k.store.disk).inode n = Dinode.decode (k.store.disk (sb.iblock n)) (n % ipb) := if_pos known
  have decide_orphan : (Dinode.decode (k.store.disk (sb.iblock n)) (n % ipb)).type ≠ 0 ∧
      (Dinode.decode (k.store.disk (sb.iblock n)) (n % ipb)).nlink = 0 ↔ Orphan (sb.image base.store.disk) n := by
    rw [Orphan, ← before, inode]
  refine .get_bind (.ite (fun found => ?_) fun other => .pure (reclaimed.skip (mt decide_orphan.mpr other)))
  have orphan := decide_orphan.mp found
  refine ((iget_ensures reclaimed.owns known).allow ?_).bind ?_
  · -- the free entry is still free
    rintro _ ⟨-, full⟩
    obtain ⟨p, free⟩ := room
    have := full p
    rw [reclaimed.owns.ref, free] at this
    exact lt_irrefl _ this
  rintro p k₁ ⟨store₁, owns₁, inum₁, -, -⟩
  have used : 0 < (k₁.table p).ref := owns₁.pos_of_mem (Multiset.mem_cons_self ..)
  -- no entry was in use for the inode, so this is the only reference
  have fresh : (base.table p).ref = 0 := by
    by_contra taken
    have positive := Nat.pos_of_ne_zero taken
    refine linked p positive ?_
    rw [← owns₁.inum p positive, inum₁]
    exact orphan
  refine ((ilock_ensures owns₁ used (Finset.notMem_empty p)).allow ?_).bind ?_
  · rintro _ ⟨-, free⟩
    rw [store₁, inum₁, before] at free
    exact orphan.1 free
  rintro - k₂ ⟨store₂, owns₂, inum₂, ref₂, -⟩
  refine (iunlock_ensures owns₂ (Finset.mem_insert_self ..)).bind ?_
  rintro - k₃ ⟨store₃, owns₃, entry₃, -⟩
  rw [Finset.erase_insert (Finset.notMem_empty p)] at owns₃
  have store : k₃.store = k.store := by rw [store₃, store₂, store₁]
  have inum : (k₃.table p).inum = n := by rw [entry₃]; exact inum₂.trans inum₁
  have valid : (k₃.table p).valid = true := by rw [entry₃]; exact (owns₂.held p (Finset.mem_insert_self ..)).2
  have last : (k₃.table p).ref = 1 := by
    rw [owns₃.ref, fresh]
    simp
  have current := (owns₃.current p (by omega) valid).current
  rw [store, Incore.inode_inum, inum, before, Incore.inode_toDinode] at current
  refine (iput_free owns₃ (Multiset.mem_cons_self ..) (Finset.notMem_empty p) last valid ?_ ?_).mono ?_
  · rw [← current]
    exact orphan.2
  · rw [store]
    exact reclaimed.consistent
  · rintro - k₄ ⟨consistent, freed, released, owns₄, -⟩
    rw [inum, store] at released
    rw [inum] at freed
    rw [Multiset.erase_cons_head] at owns₄
    exact reclaimed.free low orphan consistent owns₄ (by rw [freed]) released

/-- The blocks of the orphans are free afterwards, all other inodes keep their fields and their contents, and the table
has the references it had. -/
theorem orphans_reclaimed (sb : Superblock) (k : Kernel) (consistent : Consistent sb (sb.image k.store.disk))
    (idle : Idle sb k)
    (room : ∃ p, (k.table p).ref = 0)
    (linked : ∀ p, 0 < (k.table p).ref → ((sb.image k.store.disk).inode (k.table p).inum).nlink ≠ 0) :
    ∃ k', (ireclaim sb).run k = .ok ((), k') ∧
      (∀ i, 1 ≤ i → i < sb.ninodes →
        ¬ (((sb.image k'.store.disk).inode i).type ≠ 0 ∧ ((sb.image k'.store.disk).inode i).nlink = 0)) ∧
      (∀ i, 1 ≤ i → i < sb.ninodes → ((sb.image k.store.disk).inode i).type ≠ 0 →
        ((sb.image k.store.disk).inode i).nlink = 0 → ((sb.image k'.store.disk).inode i).type = 0 ∧
        ∀ j b, (sb.image k.store.disk).held (i, j) = some b → (sb.image k'.store.disk).bit b = false) ∧
      (∀ i, ((sb.image k.store.disk).inode i).nlink ≠ 0 → (sb.image k'.store.disk).inode i =
        (sb.image k.store.disk).inode i ∧ (sb.image k'.store.disk).file i = (sb.image k.store.disk).file i) ∧
      Consistent sb (sb.image k'.store.disk) ∧ ∀ p, (k'.table p).ref = (k.table p).ref := by
  have start : Reclaimed sb k 1 k := by
    refine ⟨consistent, idle, fun i low high => ?_, fun i _ => ⟨rfl, fun _ => rfl, fun _ => rfl⟩⟩
    omega
  have runs : Ensures (ireclaim sb) k (fun _ k' => Reclaimed sb k (max 1 sb.ninodes) k') fun _ => False := by
    refine (Ensures.forM_rest (fun rest k' => ∃ n, rest = List.range' n (max 1 sb.ninodes - n) ∧ 1 ≤ n ∧
      n ≤ max 1 sb.ninodes ∧ Reclaimed sb k n k') ⟨1, ?_, le_rfl, le_max_left .., start⟩ ?_).mono ?_
    · congr 1
      omega
    · rintro i rest k₁ ⟨n, split, low, high, reclaimed⟩
      have more : max 1 sb.ninodes - n = (max 1 sb.ninodes - (n + 1)) + 1 := by
        by_contra none
        rw [show max 1 sb.ninodes - n = 0 by omega] at split
        cases split
      rw [more, List.range'_succ] at split
      obtain ⟨rfl, rfl⟩ := List.cons.inj split
      refine (ireclaim_round reclaimed low (by omega) room fun p used orphan => linked p used orphan.2).mono ?_
      exact fun _ k₂ after => ⟨i + 1, rfl, by omega, by omega, after⟩
    · rintro - k' ⟨n, done, low, high, reclaimed⟩
      have last : n = max 1 sb.ninodes := by
        have := congrArg List.length done
        rw [List.length_range', List.length_nil] at this
        omega
      rwa [last] at reclaimed
  obtain ⟨_, k', ran, reclaimed⟩ := runs.exists_run
  have freed (i : ℕ) (low : 1 ≤ i) (high : i < sb.ninodes) := reclaimed.freed i low (high.trans_le (le_max_right ..))
  refine ⟨k', ran, fun i low high left => ?_, fun i low high live unlinked => freed i low high ⟨live, unlinked⟩,
    fun i named => ?_, reclaimed.consistent, fun p => ?_⟩
  · by_cases orphan : Orphan (sb.image k.store.disk) i
    · exact left.1 (freed i low high orphan).1
    · have same := (reclaimed.kept i fun earlier => orphan earlier.2.2).1
      rw [same] at left
      exact orphan left
  · obtain ⟨inode, byte, -⟩ := reclaimed.kept i fun earlier => named earlier.2.2.2
    exact ⟨inode, by rw [Image.file, Image.file, inode, funext byte]⟩
  · rw [reclaimed.owns.ref, Multiset.count_zero, Nat.add_zero]

/-- An entry that is not in use. -/
def unused : Incore := ⟨0, 0, false, false, .zero⟩

theorem idle_unused (sb : Superblock) (s : Store) : Idle sb ⟨s, fun _ => unused⟩ := by
  have free (p : Fin ninode) : ¬ 0 < unused.ref := lt_irrefl 0
  refine ⟨fun _ => by rw [Multiset.count_zero, Nat.add_zero], fun _ _ => rfl, fun p _ used => (free p used).elim,
    fun p used => (free p used).elim, fun p used => (free p used).elim, fun p => ?_,
    fun p none => (Finset.notMem_empty p none).elim⟩
  exact (decide_eq_false (Finset.notMem_empty p)).symm

/-- A file that was unlinked while it was open, with all the blocks that it can have. -/
def unlinked : Dinode := { Dinode.zero with type := 2, size := 5 }

theorem orphans_reclaimed_unlinked : ∃ s k', (ireclaim roomy).run ⟨s, fun _ => unused⟩ = .ok ((), k') ∧
    ((roomy.image s.disk).inode 1).type = 2 ∧ ((roomy.image k'.store.disk).inode 1).type = 0 := by
  have live : unlinked.type ≠ 0 := by decide
  obtain ⟨s, shown⟩ : ∃ s : Store, roomy.image s.disk = (single unlinked fun _ => 0).image roomy := exists_single live
  obtain ⟨consistent, loaded⟩ := loaded_single live (by decide) shown
  have inode : (roomy.image s.disk).inode 1 = (singleInode unlinked fun _ => 0).toDinode := loaded.current
  obtain ⟨k', ran, -, freed, -⟩ := orphans_reclaimed roomy ⟨s, fun _ => unused⟩ consistent (idle_unused roomy s)
    ⟨⟨0, by decide⟩, rfl⟩ fun p used => (lt_irrefl 0 used).elim
  refine ⟨s, k', ran, by rw [inode]; rfl, (freed 1 le_rfl (by decide) ?_ ?_).1⟩
  · rw [inode]
    exact live
  · rw [inode]
    rfl

end Kern

end Xv6.Fs
