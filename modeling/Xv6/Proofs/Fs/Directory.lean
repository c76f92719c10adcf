import Xv6.Proofs.Fs.Contents

/-! # Directories

The scans of `dirlookup` and `dirlink` read a directory entry by entry and change nothing. They fail only
on a directory whose size is no multiple of an entry.
-/

namespace Xv6.Fs

open Machine Image UInt32

namespace Op

variable {sb : Superblock} {s s' : Store} {dp : Inode}

theorem width : direntSize = 16 := rfl

theorem size_le {im : Image} (consistent : Consistent sb im) {i : ℕ} (live : (im.inode i).type ≠ 0) :
    (im.inode i).size.toNat ≤ maxfile * bsize := by
  by_contra large
  refine consistent.mapped i maxfile live (by omega) (slot_of_maxfile_lt ?_)
  rw [dataSlot, if_neg (by decide)]
  exact Nat.lt_succ_self _

theorem Loaded.size_le (loaded : Loaded sb s dp) (consistent : Consistent sb (sb.image s.disk)) :
    dp.size.toNat ≤ maxfile * bsize := by
  have bound := Op.size_le consistent loaded.stored
  rwa [loaded.current] at bound

/-- Where a scan that starts at entry `j` stops. -/
structure Scanned (im : Image) (i : ℕ) (wanted : Dirent → Bool) (j : ℕ) (found : Option (ℕ × Dirent))
    (stop : ℕ) : Prop where
  start : j ≤ stop
  passed : ∀ k, j ≤ k → k < stop → wanted (im.entry i k) = false
  ended : stop = im.entries i ∧ found = none ∨
    stop < im.entries i ∧ wanted (im.entry i stop) = true ∧ found = some (direntSize * stop, im.entry i stop)

theorem Scanned.step {im : Image} {i j stop : ℕ} {wanted : Dirent → Bool} {found : Option (ℕ × Dirent)}
    (other : wanted (im.entry i j) = false) (rest : Scanned im i wanted (j + 1) found stop) :
    Scanned im i wanted j found stop := by
  refine ⟨by have := rest.start; omega, fun k low high => ?_, rest.ended⟩
  rcases Nat.lt_or_eq_of_le low with later | rfl
  · exact rest.passed k later high
  · exact other

/-- Reading one entry: all of it is there, or the directory ends within it. -/
theorem readi_entry_of_mapped (sound : Sound sb (sb.image s.disk)) (loaded : Loaded sb s dp) {j : ℕ}
    (bound : dp.size.toNat ≤ maxfile * bsize) (inside : direntSize * j < dp.size.toNat)
    (mapped : ∀ o < dp.size.toNat, o < direntSize * (j + 1) →
      (sb.image s.disk).held (dp.inum, dataSlot (o / bsize)) ≠ none) :
    Ensures (readi sb dp (fun _ => true) (UInt32.ofNat (direntSize * j)) (UInt32.ofNat direntSize)) s
      (fun r s' => s' = s ∧ r.1 = dp ∧ (r.2.2 = direntSize → j < (sb.image s.disk).entries dp.inum ∧
        Dirent.decode r.2.1 = (sb.image s.disk).entry dp.inum j) ∧
        (r.2.2 ≠ direntSize → dp.size.toNat % direntSize ≠ 0))
      fun _ => False := by
  have room : maxfile * bsize = 274432 := rfl
  have start : (UInt32.ofNat (direntSize * j)).toNat = direntSize * j :=
    UInt32.toNat_ofNat_of_lt' (by simp only [UInt32.size]; omega)
  have accepted : ¬ (UInt32.ofNat (direntSize * j) > dp.size ∨
      UInt32.ofNat (direntSize * j) + UInt32.ofNat direntSize < UInt32.ofNat (direntSize * j)) := by
    have sixteen : (UInt32.ofNat direntSize).toNat = 16 := rfl
    simp only [gt_iff_lt, UInt32.lt_iff_toNat_lt, UInt32.toNat_add, start, sixteen]
    omega
  have length : ((sb.image s.disk).file dp.inum).length = dp.size.toNat := by simp [file, loaded.current]
  refine (readi_of_mapped sound loaded fun o small early => mapped o small ?_).mono ?_
  · rwa [start, show (UInt32.ofNat direntSize).toNat = direntSize from rfl, ← Nat.mul_succ] at early
  rintro ⟨dp', bytes, got⟩ s ⟨rfl, same, exact⟩
  obtain ⟨count, contents⟩ := exact fun _ _ => rfl
  simp only at same count contents ⊢
  rw [if_neg accepted, start, show (UInt32.ofNat direntSize).toNat = direntSize from rfl] at contents
  have total : bytes.length = min direntSize (dp.size.toNat - direntSize * j) := by
    rw [contents, List.length_take, List.length_drop, length]
  rw [Image.entries, loaded.current]
  refine ⟨trivial, same, fun whole => ⟨?_, by rw [contents, Image.entry]⟩, fun short => ?_⟩
  · rw [width] at inside total whole ⊢
    omega
  · rw [width] at inside total short ⊢
    omega

theorem readi_entry (consistent : Consistent sb (sb.image s.disk)) (loaded : Loaded sb s dp) {j : ℕ}
    (inside : direntSize * j < dp.size.toNat) :
    Ensures (readi sb dp (fun _ => true) (ofNat (direntSize * j)) (ofNat direntSize)) s
      (fun r s' => s' = s ∧ r.1 = dp ∧ (r.2.2 = direntSize → j < (sb.image s.disk).entries dp.inum ∧
        Dirent.decode r.2.1 = (sb.image s.disk).entry dp.inum j) ∧
        (r.2.2 ≠ direntSize → dp.size.toNat % direntSize ≠ 0))
      fun _ => False := by
  refine readi_entry_of_mapped consistent.toSound loaded (loaded.size_le consistent) inside fun o small _ => ?_
  exact held_of_lt consistent loaded.stored (by rwa [loaded.current])

/-- A scan stops at the first entry that is wanted; the blocks behind it do not matter. -/
theorem scan_found (sound : Sound sb (sb.image s.disk)) (loaded : Loaded sb s dp) (fault : Fault)
    (wanted : Dirent → Bool)
    (bound : dp.size.toNat ≤ maxfile * bsize) (whole : dp.size.toNat % direntSize = 0) {k : ℕ}
    (inside : k < (sb.image s.disk).entries dp.inum)
    (mapped : ∀ o < direntSize * (k + 1), (sb.image s.disk).held (dp.inum, dataSlot (o / bsize)) ≠ none)
    (hit : wanted ((sb.image s.disk).entry dp.inum k) = true)
    (miss : ∀ j < k, wanted ((sb.image s.disk).entry dp.inum j) = false) (fuel j : ℕ) (begun : j ≤ k)
    (enough : k < j + fuel) :
    Ensures (scan sb fault wanted fuel dp (direntSize * j)) s
      (fun r s' => s' = s ∧ r.1 = dp ∧ r.2.1 = some (direntSize * k, (sb.image s.disk).entry dp.inum k))
        fun _ => False := by
  rw [Image.entries, loaded.current, width] at inside
  induction fuel generalizing j with
  | zero => omega
  | succ fuel ih =>
    have more : direntSize * j < dp.size.toNat := by
      rw [width]
      omega
    refine .ite (fun _ => ?_) fun done => absurd more done
    refine (readi_entry_of_mapped sound loaded bound more fun o _ early => mapped o ?_).bind ?_
    · rw [width] at early ⊢
      omega
    rintro ⟨dp', bytes, got⟩ s' ⟨rfl, same, full, short⟩
    obtain rfl : dp' = dp := same
    refine .ite (fun partly => absurd whole (short partly)) fun all => ?_
    have decoded := (full (not_not.mp all)).2
    simp only at decoded
    rw [decoded]
    refine .ite (fun found => ?_) fun other => ?_
    · obtain rfl : j = k := by
        by_contra early
        rw [miss j (by omega)] at found
        cases found
      exact .pure ⟨rfl, rfl, rfl⟩
    · have next : j ≠ k := by
        rintro rfl
        exact other hit
      rw [← Nat.mul_succ]
      exact ih (j + 1) (by omega) (by omega)

theorem scan_spec (consistent : Consistent sb (sb.image s.disk)) (loaded : Loaded sb s dp) (fault : Fault)
    (wanted : Dirent → Bool) (fuel j : ℕ) (enough : dp.size.toNat ≤ direntSize * (j + fuel))
    (begun : j ≤ (sb.image s.disk).entries dp.inum) :
    Ensures (scan sb fault wanted fuel dp (direntSize * j)) s (fun r s' => s' = s ∧ r.1 = dp ∧
      ∃ stop, r.2.2 = direntSize * stop ∧ Scanned (sb.image s.disk) dp.inum wanted j r.2.1 stop)
      fun e => e = fault ∧ dp.size.toNat % direntSize ≠ 0 := by
  have entries : (sb.image s.disk).entries dp.inum = dp.size.toNat / direntSize := by
    rw [Image.entries, loaded.current]
  have finished (j : ℕ) (begun : j ≤ (sb.image s.disk).entries dp.inum) (past : ¬ direntSize * j < dp.size.toNat) :
      Scanned (sb.image s.disk) dp.inum wanted j none j :=
    ⟨le_rfl, fun k _ _ => by omega, .inl ⟨by rw [width] at past entries; omega, rfl⟩⟩
  induction fuel generalizing j with
  | zero => exact .pure ⟨rfl, rfl, j, rfl, finished j begun (Nat.not_lt.mpr enough)⟩
  | succ fuel ih =>
    refine .ite (fun more => ?_) fun done => .pure ⟨rfl, rfl, j, rfl, finished j begun done⟩
    refine (readi_entry consistent loaded more).lift.bind ?_
    rintro ⟨dp', bytes, got⟩ s' ⟨rfl, same, whole, short⟩
    obtain rfl : dp' = dp := same
    refine .ite (fun partly => .throw ⟨rfl, short partly⟩) fun full => ?_
    obtain ⟨inside, decoded⟩ := whole (not_not.mp full)
    simp only at decoded
    rw [decoded]
    refine .ite (fun hit => .pure ⟨rfl, rfl, j, rfl, le_rfl, fun k _ _ => by omega, .inr ⟨inside, hit, rfl⟩⟩)
      fun miss => ?_
    rw [← Nat.mul_succ]
    refine (ih (j + 1) (by rwa [Nat.add_right_comm, Nat.add_assoc]) inside).mono ?_
    rintro _ s ⟨rfl, same, stop, off, scanned⟩
    exact ⟨rfl, same, stop, off, scanned.step (by simpa using miss)⟩

/-- The failures of `dirlookup` and `dirlink`: the inode is no directory, or holds part of an entry. -/
def BadDirectory (dp : Inode) (e : Fault) : Prop :=
  e = .dirlookupNotDir ∧ dp.type ≠ tDir ∨ (e = .dirlookupRead ∨ e = .dirlinkRead) ∧ dp.size.toNat % direntSize ≠ 0

section

variable (consistent : Consistent sb (sb.image s.disk)) (loaded : Loaded sb s dp) (name : List UInt8)
include consistent loaded name

theorem dirlookup_spec :
    Ensures (dirlookup sb dp name) s (fun r s' => s' = s ∧ r.1 = dp ∧
      ∃ stop found, r.2 = found.map (fun entry => (entry.1, entry.2.inum)) ∧
        Scanned (sb.image s.disk) dp.inum (fun de => de.inum ≠ 0 ∧ namecmp name de.name = 0) 0 found stop)
      (BadDirectory dp) := by
  refine .ite (fun other => .throw (.inl ⟨rfl, other⟩)) fun _ => ?_
  refine ((scan_spec consistent loaded .dirlookupRead _ dp.size.toNat 0 (by rw [width]; omega) (Nat.zero_le _)).allow
    fun e failed => .inr ⟨.inl failed.1, failed.2⟩).bind ?_
  rintro ⟨_, found, off⟩ s ⟨rfl, same, stop, -, scanned⟩
  exact .pure ⟨rfl, same, stop, found, rfl, scanned⟩

/-- `dirlink` refuses a name that is there, and else writes the entry over the first empty one or at the end. -/
theorem dirlink_leaves (inum : UInt32) :
    Ensures (dirlink sb dp name inum) s (fun r s' =>
      (∃ stop entry, Scanned (sb.image s.disk) dp.inum (fun de => de.inum ≠ 0 ∧ namecmp name de.name = 0) 0
        (some entry) stop ∧ s' = s ∧ r = (dp, -1)) ∨
      ∃ last stop found tot k l,
        Scanned (sb.image s.disk) dp.inum (fun de => de.inum ≠ 0 ∧ namecmp name de.name = 0) 0 none last ∧
        Scanned (sb.image s.disk) dp.inum (fun de => de.inum = 0) 0 found stop ∧
        ((Refused dp (ofNat (direntSize * stop)) (ofNat direntSize) ∧ s' = s ∧ r = (dp, -1)) ∨
        ¬ Refused dp (ofNat (direntSize * stop)) (ofNat direntSize) ∧
        Written sb (fun i => (Dirent.encode ⟨UInt16.ofNat inum.toNat, strncpy dirsiz name⟩)[i]?) direntSize
        (direntSize * stop)
          s dp s' r.1 tot ∧
        Leaves sb (fun i => (Dirent.encode ⟨UInt16.ofNat inum.toNat, strncpy dirsiz name⟩)[i]?) direntSize
          (direntSize * stop)
          s dp.inum s' tot k l ∧ r.2 = if tot = direntSize then 0 else -1)) (BadDirectory dp) := by
  refine (dirlookup_spec consistent loaded name).bind ?_
  rintro ⟨dp', _⟩ s ⟨rfl, same, last, present, rfl, looked⟩
  obtain rfl : dp' = dp := same
  refine .ite (fun there => ?_) fun absent => ?_
  · obtain ⟨entry, rfl⟩ := Option.isSome_iff_exists.mp (by simpa using there)
    exact .pure (.inl ⟨last, entry, looked, rfl, rfl⟩)
  · obtain rfl : present = none := by simpa using absent
    refine ((scan_spec consistent loaded .dirlinkRead _ dp'.size.toNat 0 (by rw [width]; omega) (Nat.zero_le _)).allow
      fun e failed => .inr ⟨.inr failed.1, failed.2⟩).bind ?_
    rintro ⟨dp, found, off⟩ s ⟨rfl, same, stop, offset, scanned⟩
    simp only at same offset scanned ⊢
    subst same offset
    have start : (ofNat (direntSize * stop)).toNat = direntSize * stop := by
      have within : stop ≤ (sb.image s.disk).entries dp.inum := by
        rcases scanned.ended with ⟨rfl, -⟩ | ⟨inside, -⟩
        · exact le_rfl
        · exact inside.le
      have := dp.size.toNat_lt
      rw [Image.entries, loaded.current, width] at within
      exact toNat_ofNat_of_lt' (by rw [width]; simp only [size]; omega)
    refine (writei_leaves consistent loaded).lift.bind ?_
    rintro ⟨dp', wrote⟩ s' ⟨refused, accepted⟩
    by_cases fits : Refused dp (ofNat (direntSize * stop)) (ofNat direntSize)
    · obtain ⟨rfl, result⟩ := refused fits
      obtain ⟨rfl, rfl⟩ := Prod.mk.inj result
      exact .pure (.inr ⟨last, stop, found, 0, 0, [], looked, scanned, .inl ⟨fits, rfl, rfl⟩⟩)
    · obtain ⟨tot, k, l, rfl, written, leaves⟩ := accepted fits
      rw [start] at written leaves
      refine .pure (.inr ⟨last, stop, found, tot, k, l, looked, scanned, .inr ⟨fits, written, leaves, ?_⟩⟩)
      by_cases whole : tot = direntSize
      · simp [whole]
      · rw [if_neg whole]
        exact if_pos (by simp only; omega)

end

end Op

end Xv6.Fs
