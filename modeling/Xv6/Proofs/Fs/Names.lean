import Xv6.Model.Fs.Directory

/-! # Names and entries

`namecmp` does not tell two names apart exactly where `strncpy` stores the same bytes for them.
-/

namespace Xv6.Fs

open List

theorem length_strncpy (n : ℕ) (t : List UInt8) : (strncpy n t).length = n := by
  induction n generalizing t with
  | zero => rfl
  | succ n ih =>
    unfold strncpy
    split
    · exact length_replicate ..
    · rw [length_cons, ih]

variable {de : Dirent} {t : List UInt8} {n : ℕ}

theorem strncpy_of_ended (ended : t.headD 0 = 0) : strncpy n t = replicate n 0 := by
  cases n with
  | zero => rfl
  | succ n => exact if_pos ended

theorem strncpy_succ (more : t.headD 0 ≠ 0) :
    strncpy (n + 1) t = t.headD 0 :: strncpy n t.tail :=
  if_neg more

theorem strncpy_strncpy (n : ℕ) (t : List UInt8) : strncpy n (strncpy n t) = strncpy n t := by
  induction n generalizing t with
  | zero => rfl
  | succ n ih =>
    by_cases ended : t.headD 0 = 0
    · rw [strncpy_of_ended ended, strncpy_of_ended (by simp [replicate_succ])]
    · rw [strncpy_succ ended, strncpy_succ (by exact ended), headD_cons, tail_cons, ih]

theorem strncpy_take (n : ℕ) (t : List UInt8) : strncpy n (t.take n) = strncpy n t := by
  induction n generalizing t with
  | zero => rfl
  | succ n ih =>
    cases t with
    | nil => rfl
    | cons c t =>
      by_cases ended : c = 0
      · rw [strncpy_of_ended (by simpa using ended), strncpy_of_ended (by simpa using ended)]
      · rw [take_succ_cons, strncpy_succ (by simpa using ended), strncpy_succ (by simpa using ended), tail_cons,
          tail_cons, ih, headD_cons, headD_cons]

/-- What stands behind a NUL is not copied. -/
theorem strncpy_takeWhile (n : ℕ) (t : List UInt8) : strncpy n (t.takeWhile (· ≠ 0)) = strncpy n t := by
  induction n generalizing t with
  | zero => rfl
  | succ n ih =>
    cases t with
    | nil => rfl
    | cons c t =>
      by_cases ended : c = 0
      · subst ended
        rw [takeWhile_cons_of_neg (by simp), strncpy_of_ended rfl, strncpy_of_ended rfl]
      · rw [takeWhile_cons_of_pos (by simpa using ended), strncpy_succ (by simpa using ended),
          strncpy_succ (by simpa using ended), tail_cons, tail_cons, ih, headD_cons, headD_cons]

theorem strncmp_eq_zero (n : ℕ) (p q : List UInt8) : strncmp n p q = 0 ↔ strncpy n p = strncpy n q := by
  induction n generalizing p q with
  | zero => exact ⟨fun _ => rfl, fun _ => rfl⟩
  | succ n ih =>
    rw [strncmp]
    by_cases ended : p.headD 0 = 0
    · rw [if_neg fun h => h.1 ended, strncpy_of_ended ended, ended]
      by_cases other : q.headD 0 = 0
      · rw [strncpy_of_ended other, other]
        simp
      · have value : (q.headD 0).toNat ≠ 0 := fun zero => other (UInt8.toNat_inj.mp zero)
        rw [strncpy_succ other, replicate_succ, cons.injEq, UInt8.toNat_zero]
        exact ⟨fun h => by omega, fun h => absurd h.1.symm other⟩
    · rw [strncpy_succ ended]
      by_cases same : p.headD 0 = q.headD 0
      · rw [if_pos ⟨ended, same⟩, strncpy_succ (same ▸ ended), cons.injEq, ih]
        exact ⟨fun h => ⟨same, h⟩, fun h => h.2⟩
      · have apart : (p.headD 0).toNat ≠ (q.headD 0).toNat := fun h => same (UInt8.toNat_inj.mp h)
        rw [if_neg fun h => same h.2]
        refine ⟨fun h => by omega, fun h => absurd ?_ same⟩
        by_cases other : q.headD 0 = 0
        · rw [strncpy_of_ended other, replicate_succ] at h
          exact absurd (cons.inj h).1 ended
        · rw [strncpy_succ other] at h
          exact (cons.inj h).1

theorem namecmp_eq_zero (s t : List UInt8) : namecmp s t = 0 ↔ key s = key t := strncmp_eq_zero ..

theorem length_key (name : List UInt8) : (key name).length = dirsiz := length_strncpy ..

theorem key_key (name : List UInt8) : key (key name) = key name := strncpy_strncpy ..

namespace Dirent

theorem decode_encode (length : de.name.length = dirsiz) : Dirent.decode de.encode = de := by
  obtain ⟨inum, name⟩ := de
  have small := inum.toNat_lt
  rw [Dirent.encode, Dirent.decode, Dirent.mk.injEq]
  constructor
  · apply UInt16.toNat_inj.mp
    simp only [getElem?_cons_zero, getElem?_cons_succ, Option.getD_some, UInt8.toNat_ofNat', UInt16.toNat_ofNat']
    omega
  · rw [drop_succ_cons, drop_succ_cons, drop_zero, take_of_length_le length.le]

theorem length_encode (length : de.name.length = dirsiz) : de.encode.length = direntSize := by
  rw [Dirent.encode, length_cons, length_cons, length]
  rfl

theorem binding_eq_some {k : List UInt8} {v : UInt16} :
    de.binding = some (k, v) ↔ de.inum ≠ 0 ∧ key de.name = k ∧ de.inum = v := by
  unfold binding
  split
  · next empty => simp [empty]
  · next used => simp [used]

theorem binding_eq_none : de.binding = none ↔ de.inum = 0 := by
  unfold binding
  split
  · next empty => simp [empty]
  · next used => simp [used]

end Dirent

end Xv6.Fs
