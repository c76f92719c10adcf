import Xv6.Proofs.Fs.File
import Xv6.Proofs.Fs.Realise

/-! # How much a read can store

`piperead` and `consoleread` count down a signed number, and store nothing where it is not positive.
`readi` takes its count as a `uint`: a negative number becomes a large one, and is cut to the end of the file
unless the sum with the offset wraps.
-/

namespace Xv6.Fs

open Machine Image Op

namespace File

variable {sb : Superblock} {s : Store} {ip : Inode} {dst : ℕ → Bool}

theorem pipereadLoop_bound (dst : ℕ → Bool) (n : ℤ) (data : List UInt8) (i : ℕ) (positive : 0 ≤ n) (started : i ≤ n) :
    (i : ℤ) + (pipereadLoop dst n data i).1.length ≤ n ∧ (pipereadLoop dst n data i).2 ≤ n := by
  induction data generalizing i with
  | nil => exact ⟨by simpa [pipereadLoop] using started, started⟩
  | cons ch rest ih =>
    rw [pipereadLoop]
    split
    · next more =>
      split
      · obtain ⟨length, result⟩ := ih (i + 1) (by push_cast; omega)
        refine ⟨?_, result⟩
        rw [List.length_cons]
        push_cast at length ⊢
        omega
      · refine ⟨by simpa using started, ?_⟩
        dsimp only
        split <;> omega
    · exact ⟨by simpa using started, started⟩

theorem pipereadLoop_of_nonpos {n : ℤ} (negative : n ≤ 0) (data : List UInt8) :
    pipereadLoop dst n data 0 = ([], 0) := by
  cases data with
  | nil => rfl
  | cons ch rest => exact if_neg (by omega)

theorem piperead_bound (pipe : Option (List UInt8)) (n : ℤ) :
    ((piperead pipe dst n).1.length : ℤ) ≤ max n 0 ∧ (piperead pipe dst n).2 ≤ max n 0 := by
  cases pipe with
  | none => exact ⟨le_max_right n 0, by rw [piperead]; omega⟩
  | some data =>
    rw [piperead]
    by_cases positive : 0 ≤ n
    · have bound := pipereadLoop_bound dst n data 0 positive (by simpa using positive)
      omega
    · rw [pipereadLoop_of_nonpos (by omega)]
      exact ⟨le_max_right n 0, le_max_right n 0⟩

theorem consolereadLoop_bound (dst : ℕ → Bool) (input : ℕ → Option UInt8) (n done : ℕ) :
    (consolereadLoop input dst n done).1.length ≤ n ∧ (consolereadLoop input dst n done).2 ≤ done + n := by
  induction n generalizing done with
  | zero => exact ⟨le_rfl, by rw [consolereadLoop]; omega⟩
  | succ n ih =>
    rw [consolereadLoop]
    split
    · exact ⟨Nat.zero_le _, by dsimp only; omega⟩
    · next c _ =>
      obtain ⟨length, result⟩ := ih (done + 1)
      push_cast at result ⊢
      split
      · exact ⟨Nat.zero_le _, by dsimp only; omega⟩
      · split
        · split
          · exact ⟨Nat.succ_le_succ (Nat.zero_le n), by dsimp only; omega⟩
          · exact ⟨Nat.succ_le_succ length, by dsimp only; omega⟩
        · exact ⟨Nat.zero_le _, by dsimp only; omega⟩

theorem consoleread_bound (input : ℕ → Option UInt8) (n : ℤ) :
    ((consoleread input dst n).1.length : ℤ) ≤ max n 0 ∧ (consoleread input dst n).2 ≤ max n 0 := by
  have bound := consolereadLoop_bound dst input n.toNat 0
  rw [consoleread]
  omega

/-- The first byte is moved unless it is the one that cannot be written. -/
theorem moved_eq_zero_iff {m : ℕ} (some : 0 < m) : moved dst m = 0 ↔ dst 0 = false := by
  constructor
  · intro zero
    have stopped := inaccessible_of_moved (zero.trans_lt some)
    rwa [zero] at stopped
  · intro shut
    by_contra early
    cases shut.symm.trans (accessible_of_moved (Nat.pos_of_ne_zero early))

/-- What `readi` stores, by the part of the range that is in the file. -/
theorem readi_bound (consistent : Consistent sb (sb.image s.disk)) (loaded : Loaded sb s ip) (off n : UInt32) :
    Ensures (readi sb ip dst off n) s (fun r s' => s' = s ∧ r.1 = ip ∧
      (off > ip.size ∨ off + n < off → r.2 = ([], 0)) ∧
      (¬ (off > ip.size ∨ off + n < off) → r.2.1.length ≤ n.toNat ∧ r.2.2 ≤ n.toNat ∧
        off.toNat + r.2.1.length ≤ ip.size.toNat ∧ off.toNat + r.2.2 ≤ ip.size.toNat ∧
        (off < ip.size → n ≠ 0 → dst 0 = true → r.2.1 ≠ []) ∧
        (off = ip.size ∨ dst 0 = false → r.2.1 = [] ∧ r.2.2 ≤ 0))) fun _ => False := by
  refine (readi_exact consistent.toSound loaded fun o inside _ => held_of_lt consistent ?_ ?_).mono ?_
  · rw [loaded.current]
    exact loaded.live
  · rwa [loaded.current]
  rintro r s ⟨rfl, refused, accepted⟩
  by_cases outside : off > ip.size ∨ off + n < off
  · rw [refused outside]
    exact ⟨rfl, rfl, fun _ => rfl, absurd outside⟩
  obtain ⟨m, length, low, rfl⟩ := accepted outside
  clear refused accepted
  have most := moved_le dst m
  have result : (if moved dst m < m then -1 else (m : ℤ)) ≤ m := by split <;> omega
  refine ⟨rfl, rfl, fun outside' => (outside outside').elim, fun _ => ?_⟩
  simp only [List.length_map, List.length_range', ne_eq, List.map_eq_nil_iff, List.range'_eq_nil_iff]
  refine ⟨by omega, by omega, by omega, by omega, fun before nonzero accessible none => ?_, ?_⟩
  · have := UInt32.lt_iff_toNat_lt.mp before
    have : n.toNat ≠ 0 := fun zero => nonzero (UInt32.toNat_inj.mp zero)
    cases accessible.symm.trans ((moved_eq_zero_iff (by omega)).mp none)
  · rintro (rfl | shut)
    · exact ⟨by omega, by omega⟩
    · rcases Nat.eq_zero_or_pos m with rfl | some
      · exact ⟨by omega, by omega⟩
      · have none := (moved_eq_zero_iff some).mpr shut
        exact ⟨none, by rw [if_pos (by omega)]; decide⟩

/-- The three bounds on a read. -/
def WithinCount (n : Int32) (f f' : File) (stored : List UInt8) (r : ℤ) : Prop :=
  (stored.length : ℤ) ≤ max n.toInt 0 ∧ r ≤ max n.toInt 0 ∧
    ∃ advance : ℕ, (advance : ℤ) ≤ max n.toInt 0 ∧ f'.off = f.off + UInt32.ofNat advance

/-- A negative count that does not wrap, on a file with bytes behind the offset and a first byte that can be written. -/
def Overreads (f : File) (dst : ℕ → Bool) (n : Int32) : Prop :=
  f.readable = true ∧ f.type = .inode ∧ n.toInt < 0 ∧ (f.off.toNat : ℤ) < -n.toInt ∧ f.off < f.ip.size ∧ dst 0 = true

theorem toNat_toUInt32 (n : Int32) :
    (n.toUInt32.toNat : ℤ) = if n.toInt < 0 then n.toInt + 4294967296 else n.toInt := by
  have value : n.toInt = (n.toUInt32.toNat : ℤ).bmod 4294967296 := by
    rw [Int32.toInt, BitVec.toInt_eq_toNat_bmod]
    rfl
  have bound := n.toUInt32.toNat_lt
  rw [Int.bmod_def] at value
  split at value <;> split <;> omega

theorem wraps_iff (off : UInt32) {n : Int32} (negative : n.toInt < 0) :
    off + n.toUInt32 < off ↔ -n.toInt ≤ off.toNat := by
  have value := toNat_toUInt32 n
  rw [if_pos negative] at value
  have := off.toNat_lt
  have := n.toUInt32.toNat_lt
  rw [UInt32.lt_iff_toNat_lt, UInt32.toNat_add]
  omega

theorem WithinCount.stays {f : File} {n : Int32} {stored : List UInt8} {r : ℤ}
    (length : (stored.length : ℤ) ≤ max n.toInt 0)
    (result : r ≤ max n.toInt 0) : WithinCount n f f stored r :=
  ⟨length, result, 0, le_max_right .., (UInt32.add_zero _).symm⟩

theorem WithinCount.refused {f : File} {n : Int32} : WithinCount n f f [] (-1) := .stays (le_max_right ..) (by omega)

section Inode

variable {f : File} {n : Int32} (consistent : Consistent sb (sb.image s.disk)) (loaded : Loaded sb s f.ip)
include consistent loaded

/-- A read of a file is within its count, or it stores a byte with a negative one. -/
theorem readi_within (readable : f.readable = true) (type : f.type = .inode) :
    Ensures (readi sb f.ip dst f.off n.toUInt32) s (fun r _ =>
      (Overreads f dst n → r.2.1 ≠ [] ∧ n.toInt < 0) ∧
      (¬ Overreads f dst n → (r.2.1.length : ℤ) ≤ max n.toInt 0 ∧ r.2.2 ≤ max n.toInt 0)) fun _ => False := by
  have value := toNat_toUInt32 n
  refine (readi_bound consistent loaded f.off n.toUInt32).mono ?_
  rintro ⟨ip', stored, r⟩ s' ⟨-, -, outside, inside⟩
  dsimp only at outside inside ⊢
  by_cases negative : n.toInt < 0
  · rw [if_pos negative] at value
    have wraps := wraps_iff f.off negative
    constructor
    · rintro ⟨-, -, -, short, before, accessible⟩
      have accepted : ¬ (f.off > f.ip.size ∨ f.off + n.toUInt32 < f.off) := by
        rintro (beyond | wrapped)
        · exact UInt32.lt_asymm before beyond
        · have := wraps.mp wrapped
          omega
      refine ⟨(inside accepted).2.2.2.2.1 before (fun zero => ?_) accessible, negative⟩
      rw [zero, UInt32.toNat_zero] at value
      have := n.le_toInt
      omega
    · intro within
      by_cases refused : f.off > f.ip.size ∨ f.off + n.toUInt32 < f.off
      · obtain ⟨rfl, rfl⟩ := Prod.mk.inj (outside refused)
        exact ⟨le_max_right .., le_max_right ..⟩
      · obtain ⟨low, noWrap⟩ := not_or.mp refused
        have last : f.off = f.ip.size ∨ dst 0 = false := by
          by_contra neither
          obtain ⟨apart, accessible⟩ := not_or.mp neither
          refine within ⟨readable, type, negative, ?_, ?_, by simpa using accessible⟩
          · have := mt wraps.mpr noWrap
            omega
          · exact UInt32.lt_of_le_of_ne (UInt32.not_lt.mp low) apart
        obtain ⟨rfl, result⟩ := (inside refused).2.2.2.2.2 last
        exact ⟨le_max_right .., by omega⟩
  · rw [if_neg negative] at value
    refine ⟨fun beyond => absurd beyond.2.2.1 negative, fun _ => ?_⟩
    by_cases refused : f.off > f.ip.size ∨ f.off + n.toUInt32 < f.off
    · obtain ⟨rfl, rfl⟩ := Prod.mk.inj (outside refused)
      exact ⟨le_max_right .., le_max_right ..⟩
    · obtain ⟨length, result, -⟩ := inside refused
      omega

end Inode

/-- The bounds hold for every read but those, and these do return. -/
theorem fileread_within (f : File) (consistent : Consistent sb (sb.image s.disk))
    (loaded : f.type = .inode → Loaded sb s f.ip)
    (pipe : Option (List UInt8)) (input : ℕ → Option UInt8) (dst : ℕ → Bool) (n : Int32) :
    Ensures (fileread sb f pipe input dst n) s (fun r _ => (Overreads f dst n → ¬ WithinCount n f r.1 r.2.1 r.2.2) ∧
      (¬ Overreads f dst n → WithinCount n f r.1 r.2.1 r.2.2)) fun _ => f.type = .none := by
  have other (different : f.type ≠ .inode) : ¬ Overreads f dst n := fun beyond => different beyond.2.1
  unfold fileread
  refine .ite (fun shut => .pure ⟨fun beyond => ?_, fun _ => .refused⟩) fun readable => ?_
  · rw [beyond.1] at shut
    cases shut
  cases type : f.type with
  | none => exact .throw rfl
  | pipe =>
    refine .pure ⟨fun beyond => absurd beyond (other (by simp [type])), fun _ => ?_⟩
    exact .stays (piperead_bound pipe n.toInt).1 (piperead_bound pipe n.toInt).2
  | device =>
    refine .pure ⟨fun beyond => absurd beyond (other (by simp [type])), fun _ => ?_⟩
    dsimp only
    split
    · exact .refused
    · exact .stays (consoleread_bound input n.toInt).1 (consoleread_bound input n.toInt).2
  | inode =>
    have bound : Ensures (readi sb f.ip dst f.off n.toUInt32) s _ fun _ => False :=
      readi_within consistent (loaded type) (by simpa using readable) type
    refine ((onInode_ensures bound).allow (by rintro e ⟨_, -, absurd⟩; exact absurd.elim)).bind ?_
    rintro ⟨ip', stored, r⟩ s' ⟨beyond, within⟩
    refine .pure ⟨fun overreads bounded => ?_, fun fine => ?_⟩
    · obtain ⟨some, negative⟩ := beyond overreads
      dsimp only at some
      have length : (stored.length : ℤ) ≤ max n.toInt 0 := bounded.1
      exact some (List.length_eq_zero_iff.mp (by omega))
    · obtain ⟨length, result⟩ := within fine
      refine ⟨length, result, r.toNat, by dsimp only at result; omega, ?_⟩
      dsimp only
      split
      · rfl
      · next none => rw [Int.toNat_of_nonpos (by omega), show UInt32.ofNat 0 = 0 from rfl, UInt32.add_zero]

/-- Every read stores and reports at most the count that it was asked for, exactly where it does not take a negative
count for a large one. -/
theorem fileread_bounded_iff (sb : Superblock) (s : Store) (f : File) (consistent : Consistent sb (sb.image s.disk))
    (loaded : f.type = .inode → Loaded sb s f.ip) (pipe : Option (List UInt8)) (input : ℕ → Option UInt8)
    (dst : ℕ → Bool)
    (n : Int32) :
    (∀ f' stored r s', (fileread sb f pipe input dst n).run s = .ok ((f', stored, r), s') →
      WithinCount n f f' stored r) ↔
      ¬ Overreads f dst n := by
  have spec := fileread_within f consistent loaded pipe input dst n
  constructor
  · intro bounded beyond
    obtain ⟨⟨f', stored, r⟩, s', ran, exceeds, -⟩ := (spec.allow fun _ none => by
      rw [beyond.2.1] at none
      cases none).exists_run
    exact exceeds beyond (bounded f' stored r s' ran)
  · intro fine f' stored r s' ran
    exact (spec.of_run ran).2 fine

/-- A file of five bytes. -/
def fiveBytes : Dinode := { Dinode.zero with type := 2, nlink := 1, size := 5 }

theorem live_fiveBytes : fiveBytes.type ≠ 0 := by decide

def fiveInode : Inode := singleInode fiveBytes fun _ => 7

/-- The file, open at its start. -/
def fiveOpen : File := ⟨.inode, true, false, fiveInode, 0, 0⟩

theorem fileread_bounded_iff_three : ∃ s, ∀ f' stored r s',
    (fileread roomy fiveOpen none (fun _ => none) (fun _ => true) 3).run s = .ok ((f', stored, r), s') →
      WithinCount 3 fiveOpen f' stored r := by
  obtain ⟨s, shown⟩ := exists_single live_fiveBytes
  obtain ⟨consistent, loaded⟩ := loaded_single live_fiveBytes (by decide) shown
  refine ⟨s,
    (fileread_bounded_iff roomy s fiveOpen consistent (fun _ => loaded) none (fun _ => none) (fun _ => true) 3).mpr ?_⟩
  exact fun beyond => absurd beyond.2.2.1 (by decide)

/-- A read of `-1` bytes stores the whole file. -/
theorem fileread_exceeds : ∃ s f' stored, (fileread roomy fiveOpen none (fun _ => none) (fun _ => true) (-1)).run s =
    .ok ((f', stored, 5), s) ∧ stored.length = 5 ∧ f'.off = 5 := by
  obtain ⟨s, shown⟩ := exists_single live_fiveBytes
  obtain ⟨consistent, loaded⟩ := loaded_single live_fiveBytes (by decide) shown
  have spec : Ensures (fileread roomy fiveOpen none (fun _ => none) (fun _ => true) (-1)) s
      (fun r s' => s' = s ∧ r.2.2 = 5 ∧ r.2.1.length = 5 ∧ r.1.off = 5) fun _ => False := by
    have whole : Ensures (readi roomy fiveInode (fun _ => true) 0 (Int32.toUInt32 (-1))) s
        (fun r s' => s' = s ∧ r.2.1.length = 5 ∧ r.2.2 = 5) fun _ => False := by
      refine (readi_spec consistent loaded).mono ?_
      rintro ⟨ip', stored, r⟩ s' ⟨rfl, -, exact⟩
      obtain ⟨count, bytes⟩ := exact fun _ _ => rfl
      dsimp only at count bytes ⊢
      have length : stored.length = 5 := by
        rw [bytes, if_neg (by decide), UInt32.toNat_zero, List.drop_zero, List.length_take, Image.file, List.length_map,
          List.length_range, loaded.current]
        decide
      exact ⟨rfl, length, by rw [count, length]; rfl⟩
    refine ((onInode_ensures whole).allow (by rintro e ⟨_, -, absurd⟩; exact absurd)).bind ?_
    rintro ⟨ip', stored, r⟩ s' ⟨rfl, length, result⟩
    obtain rfl : r = 5 := result
    exact .pure ⟨rfl, rfl, length, rfl⟩
  obtain ⟨⟨f', stored, r⟩, s', ran, rfl, result, length, off⟩ := spec.exists_run
  obtain rfl : r = 5 := result
  exact ⟨s', f', stored, ran, length, off⟩

end File

end Xv6.Fs
