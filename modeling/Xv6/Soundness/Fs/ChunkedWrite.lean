import Xv6.Proofs.Fs.File
import Xv6.Proofs.Fs.Realise

/-! # Writes report what they store

`filewrite` cuts a write into chunks of one transaction each. A chunk may fail, because the disk is full or
because the file would become too large; what the chunks before it have stored stays, with the part that the
failing chunk has stored.
-/

namespace Xv6.Fs

open Machine Image Op

namespace File

variable {sb : Superblock} {s : Store}

theorem toNat_toInt {n : Int32} (positive : 0 ≤ n.toInt) : ((n.toInt.toNat : ℕ) : ℤ) = n.toInt :=
  Int.toNat_of_nonneg positive

/-- The result is the count and the bytes are all there, or it is `-1` and the offset tells how many of them are. It is
`-1` only where the count is negative, the file is not open for writing, or the write stops. -/
theorem filewrite_faithful (sb : Superblock) (s : Store) (f : File) (type : f.type = .inode)
    (consistent : Consistent sb (sb.image s.disk)) (loaded : Loaded sb s f.ip) (other : ℤ) (n : Int32)
    (src : ℕ → Option UInt8) (readable : ∀ i < n.toInt.toNat, (src i).isSome) :
    ∃ f' r s', (filewrite sb f other src n).run s = .ok ((f', r), s') ∧ ∃ k : ℕ,
      (0 ≤ n.toInt ∧ f.writable = true ∧ r = n.toInt ∧ k = n.toInt ∨ r = -1 ∧ k < max n.toInt 1 ∧
        (n.toInt < 0 ∨ f.writable = false ∧ k = 0 ∨ Stops sb s s' f.ip f.off.toNat n.toInt.toNat k)) ∧
      f' = { f with ip := f'.ip, off := f'.off } ∧ f'.off.toNat = f.off.toNat + k ∧
      f'.ip = { f.ip with addrs := f'.ip.addrs, size := f'.ip.size } ∧ Loaded sb s' f'.ip ∧
      f'.ip.size.toNat = (if k = 0 then f.ip.size.toNat else max f.ip.size.toNat (f.off.toNat + k)) ∧
      (sb.image s'.disk).file f.ip.inum = (if k = 0 then (sb.image s.disk).file f.ip.inum
        else ((sb.image s.disk).file f.ip.inum).take f.off.toNat ++
          ((List.range k).map (fun i => (src i).getD 0) ++ ((sb.image s.disk).file f.ip.inum).drop (f.off.toNat + k))) ∧
      (k ≠ 0 → f.off.toNat ≤ f.ip.size.toNat) ∧
      Consistent sb (sb.image s'.disk) ∧ SameElsewhere (sb.image s.disk) f.ip.inum (sb.image s'.disk) := by
  have idle : Stored sb src f.off.toNat s f.ip s f.ip 0 := .nothing consistent loaded
  by_cases writable : f.writable = false
  · refine ⟨f, -1, s, ?_, 0, .inr ⟨rfl, by omega, .inr (.inl ⟨writable, rfl⟩)⟩, rfl, rfl, rfl, loaded, rfl,
      rfl, idle.start, consistent, idle.elsewhere⟩
    rw [filewrite, if_pos writable]
    rfl
  · -- the loop does nothing where the count is not positive
    have spec : Ensures (filewriteLoop sb src n.toInt n.toInt.toNat f.ip f.off 0) s (fun r s' => ∃ k : ℕ,
        (0 ≤ n.toInt ∧ (r.2.2 : ℤ) = n.toInt ∧ k = n.toInt ∨ (r.2.2 : ℤ) ≠ n.toInt ∧ (k : ℤ) < max n.toInt 1 ∧
          (n.toInt < 0 ∨ Stops sb s s' f.ip f.off.toNat n.toInt.toNat k)) ∧
        Stored sb src f.off.toNat s f.ip s' r.1 k ∧ r.2.1.toNat = f.off.toNat + k) fun _ => False := by
      by_cases positive : 0 ≤ n.toInt
      · have loop : Ensures (filewriteLoop sb src n.toInt.toNat n.toInt.toNat f.ip f.off 0) s _ fun _ => False :=
          filewriteLoop_ensures n.toInt.toNat readable n.toInt.toNat 0 consistent loaded (Nat.zero_le _) (by omega)
        rw [toNat_toInt positive] at loop
        refine loop.mono ?_
        rintro ⟨ip, off, i⟩ s' ⟨k, stored, moved, ended⟩
        simp only [Nat.zero_add, Nat.sub_zero] at stored ended ⊢
        refine ⟨k, ended.imp (fun all => ⟨positive, by omega, by omega⟩) fun ⟨short, fewer, stops⟩ => ?_, stored, moved⟩
        exact ⟨by omega, by omega, .inr stops⟩
      · have none : n.toInt.toNat = 0 := by omega
        rw [none]
        exact .pure ⟨0, .inr ⟨by dsimp only; omega, by omega, .inl (by omega)⟩, idle, rfl⟩
    obtain ⟨⟨f', r⟩, s', ran, k, result, kept, stored, moved⟩ : ∃ r s',
      (filewrite sb f other src n).run s = .ok (r, s') ∧
        ∃ k : ℕ, (0 ≤ n.toInt ∧ r.2 = n.toInt ∧ k = n.toInt ∨ r.2 = -1 ∧ (k : ℤ) < max n.toInt 1 ∧
          (n.toInt < 0 ∨ Stops sb s s' f.ip f.off.toNat n.toInt.toNat k)) ∧
          r.1 = { f with ip := r.1.ip, off := r.1.off } ∧ Stored sb src f.off.toNat s f.ip s' r.1.ip k ∧
          r.1.off.toNat = f.off.toNat + k := by
      refine Ensures.exists_run ?_
      rw [filewrite, if_neg writable, type]
      refine ((onInode_ensures spec).allow (by rintro e ⟨_, -, absurd⟩; exact absurd)).bind ?_
      rintro ⟨ip, off, i⟩ s' ⟨k, result, stored, moved⟩
      refine .pure ⟨k, ?_, rfl, stored, moved⟩
      dsimp only at result ⊢
      rcases result with ⟨positive, all, count⟩ | ⟨short, rest⟩
      · exact .inl ⟨positive, by rw [if_pos all], count⟩
      · exact .inr ⟨by rw [if_neg short], rest⟩
    refine ⟨f', r, s', ran, k, ?_, kept, moved, stored.kept, stored.loaded, stored.size,
      stored.file loaded, stored.start, stored.consistent, stored.elsewhere⟩
    exact result.imp (fun all => ⟨all.1, Bool.eq_true_of_not_eq_false writable, all.2⟩) fun short =>
      ⟨short.1, short.2.1, short.2.2.imp_right .inr⟩

/-- An empty file, open for writing: five bytes are written whole. -/
theorem filewrite_faithful_blank :
    ∃ s f' s', (filewrite roomy ⟨.inode, true, true, blankInode, 0, 0⟩ 0 (fun _ => some 7) 5).run s =
    .ok ((f', 5), s') ∧ f'.off = 5 ∧ (roomy.image s'.disk).file 1 = [7, 7, 7, 7, 7] := by
  obtain ⟨s, shown⟩ := exists_single live_blankFile
  obtain ⟨consistent, loaded⟩ : _ ∧ Loaded roomy s blankInode := loaded_single live_blankFile (by decide) shown
  obtain ⟨f', r, s', ran, k, result, -, moved, -, -, -, stored, -, -, -⟩ := filewrite_faithful roomy s
    ⟨.inode, true, true, blankInode, 0, 0⟩ rfl consistent loaded 0 5 (fun _ => some 7) fun _ _ => rfl
  rcases result with ⟨-, -, rfl, all⟩ | ⟨-, fewer, negative | ⟨closed, -⟩ | stops⟩
  · obtain rfl : k = 5 := Int.ofNat.inj all
    have empty : (roomy.image s.disk).file blankInode.inum = [] := by
      rw [Image.file, loaded.current]
      rfl
    rw [empty] at stored
    exact ⟨s, f', s', ran, UInt32.toNat_inj.mp moved, stored⟩
  · exact absurd negative (by decide)
  · cases closed
  · have early : k < 5 := by
      have : (5 : Int32).toInt = 5 := by decide
      omega
    cases stops with
    | behind _ high => exact absurd high (by decide)
    | large beyond =>
      have : maxfile * bsize = 274432 := rfl
      have : (5 : Int32).toInt.toNat = 5 := by decide
      have : (0 : UInt32).toNat = 0 := rfl
      dsimp only at beyond
      omega
    | full absent _ =>
      have first : ((0 : UInt32).toNat + k) / bsize = 0 := by
        rw [UInt32.toNat_zero, Nat.zero_add]
        exact Nat.div_eq_of_lt (Nat.lt_trans early (by decide))
      dsimp only at absent
      rw [first] at absent
      exact absurd absent (held_single live_blankFile shown (by decide))

end File

end Xv6.Fs
