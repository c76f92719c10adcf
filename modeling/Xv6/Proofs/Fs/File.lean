import Xv6.Model.Fs.File
import Xv6.Soundness.Fs.FileContents

/-! # Writes in chunks

What a chunk stores of its bytes is a prefix of them, stored at the offset of the file. Chunks that follow
one another store a prefix of the whole.
-/

namespace Xv6.Fs

open Machine Image Op

namespace File

variable {sb : Superblock} {s s' s'' : Store} {ip ip' ip'' : Inode} {src : ℕ → Option UInt8}

theorem onInode_ensures {α : Type} {m : Op α} {post : α → Store → Prop} {fails : Fault → Prop}
    (spec : Ensures m s post fails) :
    Ensures (onInode m) s post fun e => ∃ e', e = .inode e' ∧ fails e' := by
  have ran : (onInode m).run s = (m.run s).mapError .inode := rfl
  unfold Ensures at spec ⊢
  rw [ran]
  cases result : m.run s with
  | error e =>
    rw [result] at spec
    exact ⟨e, rfl, spec⟩
  | ok reached =>
    rw [result] at spec
    exact spec

/-- The first `k` bytes of the source are in the file at `off`, and nothing else has changed. -/
structure Stored (sb : Superblock) (src : ℕ → Option UInt8) (off : ℕ) (s : Store) (ip : Inode)
    (s' : Store) (ip' : Inode)
    (k : ℕ) : Prop where
  consistent : Consistent sb (sb.image s'.disk)
  loaded : Loaded sb s' ip'
  kept : ip' = { ip with addrs := ip'.addrs, size := ip'.size }
  size : ip'.size.toNat = if k = 0 then ip.size.toNat else max ip.size.toNat (off + k)
  start : k ≠ 0 → off ≤ ip.size.toNat
  elsewhere : SameElsewhere (sb.image s.disk) ip.inum (sb.image s'.disk)
  held : ∀ x b, (sb.image s.disk).held x = some b → (sb.image s'.disk).held x = some b
  bytes : ∀ o, (sb.image s'.disk).byte ip.inum o =
    if off ≤ o ∧ o < off + k then (src (o - off)).getD 0 else (sb.image s.disk).byte ip.inum o

/-- Why a write of `n` bytes at `off` ends behind the first `k` of them: the offset is behind the end of the file, the
next chunk would make the file too large, or it needs a block and the disk is full. -/
inductive Stops (sb : Superblock) (s s' : Store) (ip : Inode) (off n k : ℕ) : Prop where
  | behind (none : k = 0) (high : ip.size.toNat < off)
  | large (beyond : maxfile * bsize < off + k + min (n - k) maxChunk)
  | full (absent : (sb.image s.disk).held (ip.inum, dataSlot ((off + k) / bsize)) = none)
      (used : ∀ b < sb.size, (sb.image s'.disk).bit b = true)

theorem Stored.inum {off k : ℕ} (stored : Stored sb src off s ip s' ip' k) : ip'.inum = ip.inum := by rw [stored.kept]

theorem Stored.nothing {off : ℕ} (consistent : Consistent sb (sb.image s.disk)) (loaded : Loaded sb s ip) :
    Stored sb src off s ip s ip 0 :=
  ⟨consistent, loaded, rfl, rfl, fun positive => (positive rfl).elim, ⟨fun _ _ => rfl, fun _ _ _ => rfl⟩,
    fun _ _ held => held, fun o => by rw [if_neg (by omega)]⟩

/-- The rest of the source is stored behind the part that is there. -/
theorem Stored.append {off i k : ℕ} (first : Stored sb src off s ip s' ip' i)
    (second : Stored sb (fun j => src (i + j)) (off + i) s' ip' s'' ip'' k) :
    Stored sb src off s ip s'' ip'' (i + k) := by
  have inum := first.inum
  have size := first.size
  have size' := second.size
  refine ⟨second.consistent, second.loaded, ?_, ?_, fun positive => ?_, ?_,
    fun x b held => second.held x b (first.held x b held), fun o => ?_⟩
  · rw [second.kept, first.kept]
  · have start := second.start
    split at size <;> split at size' <;> split <;> omega
  · by_cases none : i = 0
    · subst none
      have := second.start (by omega)
      rwa [size, if_pos rfl] at this
    · exact first.start none
  · have same := second.elsewhere
    rw [inum] at same
    exact first.elsewhere.trans same
  · have bytes := second.bytes o
    rw [inum] at bytes
    rw [bytes, first.bytes]
    by_cases early : o < off + i
    · rw [if_neg (by omega)]
      by_cases low : off ≤ o
      · rw [if_pos ⟨low, early⟩, if_pos ⟨low, by omega⟩]
      · rw [if_neg (by omega), if_neg (by omega)]
    · by_cases late : o < off + i + k
      · rw [if_pos ⟨by omega, late⟩, if_pos ⟨by omega, by omega⟩, show i + (o - (off + i)) = o - off by omega]
      · rw [if_neg (by omega), if_neg (by omega), if_neg (by omega)]

/-- A write whose part behind the first `k` bytes stops there has stopped there. -/
theorem Stops.append {off n i k : ℕ} (first : Stored sb src off s ip s' ip' i)
    (stops : Stops sb s' s'' ip' (off + i) (n - i) k)
    (positive : 0 < i) : Stops sb s s'' ip off n (i + k) := by
  cases stops with
  | behind _ high =>
    have size := first.size
    rw [if_neg (by omega)] at size
    omega
  | large beyond => exact .large (by omega)
  | full absent used =>
    refine .full (Option.eq_none_iff_forall_ne_some.mpr fun b held => ?_) used
    rw [first.inum, Nat.add_assoc, first.held _ b held] at absent
    cases absent

theorem Stored.file {off k : ℕ} (stored : Stored sb src off s ip s' ip' k) (loaded : Loaded sb s ip) :
    (sb.image s'.disk).file ip.inum = if k = 0 then (sb.image s.disk).file ip.inum
      else ((sb.image s.disk).file ip.inum).take off ++
        ((List.range k).map (fun i => (src i).getD 0) ++ ((sb.image s.disk).file ip.inum).drop (off + k)) := by
  have inode := stored.loaded.current
  rw [stored.inum] at inode
  have size := stored.size
  split
  · next none =>
    rw [if_pos none] at size
    subst none
    rw [Image.file, Image.file, inode, loaded.current, size]
    refine List.map_congr_left fun o _ => ?_
    rw [stored.bytes, if_neg (by omega)]
  · next some =>
    rw [if_neg some] at size
    refine file_of_bytes ?_ ?_ fun o _ => stored.bytes o
    · rw [loaded.current]
      exact stored.start some
    · rw [inode, loaded.current, size]

theorem maxChunk_eq : maxChunk = 3072 := rfl

/-- A chunk whose source can be read stores a prefix of its bytes, and moves the offset behind it. One that returns its
count has read the source. -/
theorem chunk_ensures {off : UInt32} {n1 : ℕ} (consistent : Consistent sb (sb.image s.disk)) (loaded : Loaded sb s ip)
    (small : n1 ≤ maxChunk) :
    Ensures (chunk sb src ip off n1) s (fun r s' => (r.2.2 = n1 ∨ ∀ i < n1, (src i).isSome) → ∃ k ≤ n1,
      Stored sb src off.toNat s ip s' r.1 k ∧ r.2.1.toNat = off.toNat + k ∧
      (r.2.2 = n1 ∧ k = n1 ∨ r.2.2 ≠ n1 ∧ Stops sb s s' ip off.toNat n1 k ∧ (k < n1 ∨ n1 = 0))) fun _ => False := by
  have few : min n1 maxChunk = n1 := Nat.min_eq_left small
  rw [maxChunk_eq] at small
  have count : (UInt32.ofNat n1).toNat = n1 := UInt32.toNat_ofNat_of_lt' (by simp only [UInt32.size]; omega)
  have room : maxfile * bsize = 274432 := rfl
  refine (writei_leaves consistent loaded).bind ?_
  rintro ⟨ip', r⟩ s' ⟨refused, accepted⟩
  refine .pure fun read => ?_
  by_cases outside : Refused ip off (UInt32.ofNat n1)
  · obtain ⟨rfl, result⟩ := refused outside
    obtain ⟨rfl, rfl⟩ := Prod.mk.inj result
    refine ⟨0, Nat.zero_le _, .nothing consistent loaded, rfl, .inr ⟨by dsimp only; omega, ?_, by omega⟩⟩
    rcases outside with high | wraps | beyond
    · exact .behind rfl (UInt32.lt_iff_toNat_lt.mp high)
    · rw [UInt32.lt_iff_toNat_lt, UInt32.toNat_add, count] at wraps
      exact .large (by omega)
    · rw [UInt32.toNat_add, count] at beyond
      exact .large (by omega)
  · obtain ⟨tot, k, l, rfl, written, leaves⟩ := accepted outside
    rw [count] at written leaves
    obtain ⟨low, noWrap, fits⟩ : ¬ off > ip.size ∧ ¬ off + UInt32.ofNat n1 < off ∧ ¬ (off + UInt32.ofNat n1).toNat >
      maxfile * bsize :=
      ⟨fun h => outside (.inl h), fun h => outside (.inr (.inl h)), fun h => outside (.inr (.inr h))⟩
    have readable (i : ℕ) (early : i < n1) : (src i).isSome := by
      refine read.elim (fun all => leaves.readable i ?_) fun readable => readable i early
      dsimp only at all
      omega
    have low' := UInt32.le_iff_toNat_le.mp (UInt32.not_lt.mp low)
    have sum := toNat_add_of_not_wrap noWrap
    have most := written.count
    obtain ⟨rfl, ended⟩ := leaves.whole readable
    have stored : Stored sb src off.toNat s ip s' ip' tot :=
      ⟨written.consistent, written.loaded, written.kept, by rw [written.size]; split <;> omega, fun _ => low',
        written.elsewhere, leaves.held, leaves.bytes⟩
    refine ⟨tot, most, stored, ?_, ?_⟩
    · have value : (UInt32.ofNat tot).toNat = tot := UInt32.toNat_ofNat_of_lt' (by simp only [UInt32.size]; omega)
      dsimp only
      split
      · rw [Int.toNat_natCast, UInt32.toNat_add, value]
        omega
      · omega
    · dsimp only
      rcases ended with all | ⟨absent, used⟩
      · exact .inl ⟨by rw [all], all⟩
      · by_cases all : tot = n1
        · exact .inl ⟨by rw [all], all⟩
        · exact .inr ⟨by omega, .full absent used, by omega⟩

/-- The loop stores a prefix, and all of it if it counts to the end. -/
theorem filewriteLoop_ensures (n : ℕ) (readable : ∀ i < n, (src i).isSome) (fuel i : ℕ) {off : UInt32}
    (consistent : Consistent sb (sb.image s.disk)) (loaded : Loaded sb s ip) (started : i ≤ n) (enough : n ≤ i + fuel) :
    Ensures (filewriteLoop sb src n fuel ip off i) s (fun r s' => ∃ k,
      Stored sb (fun j => src (i + j)) off.toNat s ip s' r.1 k ∧ r.2.1.toNat = off.toNat + k ∧
      (r.2.2 = n ∧ i + k = n ∨ r.2.2 < n ∧ i + k < n ∧ Stops sb s s' ip off.toNat (n - i) k)) fun _ => False := by
  have idle (i : ℕ) (started : i ≤ n) (done : ¬ (i : ℤ) < n) : i = n := by omega
  induction fuel generalizing s ip i off with
  | zero =>
    exact .pure ⟨0, .nothing consistent loaded, rfl, .inl ⟨by dsimp only; omega, by omega⟩⟩
  | succ fuel ih =>
    refine .ite (fun more => ?_) fun done => ?_
    · have amount : min ((n : ℤ) - i).toNat maxChunk = min (n - i) maxChunk := by rw [Int.toNat_sub]
      have positive : 0 < maxChunk := by decide
      dsimp only
      rw [amount]
      generalize size : min (n - i) maxChunk = n1
      refine (chunk_ensures consistent loaded (by omega)).bind ?_
      rintro ⟨ip', off', r⟩ s' spec
      replace spec := spec (.inr fun j small => readable _ (by omega))
      obtain ⟨k, most, stored, moved, result⟩ := spec
      dsimp only at result stored moved
      refine .ite (fun short => ?_) fun whole => ?_
      · obtain ⟨-, stops, fewer⟩ := result.resolve_left fun all => short all.1
        refine .pure ⟨k, stored, moved, .inr ⟨by dsimp only; omega, by omega, ?_⟩⟩
        cases stops with
        | behind none high => exact .behind none high
        | large beyond => exact .large (by omega)
        | full absent used => exact .full absent used
      · obtain ⟨-, rfl⟩ := result.resolve_right fun short => whole short.1
        refine (ih (i + k) stored.consistent stored.loaded (by omega) (by omega)).mono ?_
        rintro ⟨ip'', off'', j⟩ s'' ⟨l, rest, moved', ended⟩
        dsimp only at rest moved' ended ⊢
        rw [moved] at rest ended
        refine ⟨k + l, stored.append (by simpa only [Nat.add_assoc] using rest), by omega, ?_⟩
        refine ended.imp (fun all => ⟨all.1, by omega⟩) fun ⟨short, fewer, stops⟩ => ⟨short, by omega, ?_⟩
        rw [← Nat.sub_sub] at stops
        exact stops.append stored (by omega)
    · obtain rfl := idle i started done
      exact .pure ⟨0, .nothing consistent loaded, rfl, .inl ⟨rfl, rfl⟩⟩

end File

end Xv6.Fs
