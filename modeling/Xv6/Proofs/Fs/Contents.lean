import Mathlib.Data.List.TakeWhile
import Xv6.Proofs.Fs.Inode

/-! # Reading and writing the contents of inodes

What the loops of `readi` and `writei` do to the bytes of files. A round stays within one block; the loop
is taken round by round, from any place in the range.
-/

namespace Xv6.Fs

open Machine Image Function List

namespace Op

variable {sb : Superblock} {s s' : Store} {ip ip' : Inode}

theorem moved_le (accessible : ℕ → Bool) (m : ℕ) : moved accessible m ≤ m :=
  (takeWhile_sublist _).length_le.trans length_range.le

variable {accessible dst : ℕ → Bool} {m i o : ℕ} {im : Image} {off n : UInt32}

theorem moved_of_accessible (all : ∀ i < m, accessible i = true) : moved accessible m = m := by
  rw [moved, takeWhile_eq_self_iff.mpr fun i inside => all i (mem_range.mp inside), length_range]

theorem moved_add (accessible : ℕ → Bool) (m k : ℕ) : moved accessible (m + k) =
    if moved accessible m < m then moved accessible m else m + moved (fun i => accessible (m + i)) k := by
  have most := moved_le accessible m
  unfold moved at *
  rw [range_add, takeWhile_append, takeWhile_map, length_range]
  split_ifs <;> first | rfl | omega | skip
  rw [length_append, length_map, length_range]
  rfl

theorem accessible_of_moved (early : i < moved accessible m) : accessible i = true := by
  rw [moved, takeWhile_eq_take_findIdx_not, length_take, lt_min_iff] at early
  have found := not_of_lt_findIdx early.1
  simpa using found

theorem inaccessible_of_moved (short : moved accessible m < m) :
    accessible (moved accessible m) = false := by
  have place : moved accessible m = (range m).findIdx fun i => !accessible i := by
    rw [moved, takeWhile_eq_take_findIdx_not, length_take]
    exact min_eq_left findIdx_le_length
  rw [place] at short ⊢
  have stopped := findIdx_getElem (w := short.trans_eq length_range.symm)
  simpa using stopped

theorem div_mod_of_round {off : ℕ} (fits : m ≤ bsize - off % bsize) (low : off ≤ o) (high : o < off + m) :
    o / bsize = off / bsize ∧ o % bsize = off % bsize + (o - off) := by
  simp only [bsize] at fits ⊢
  omega

theorem take_drop_block {off b : ℕ} (fits : m ≤ bsize - off % bsize)
    (present : (view sb s ip).held (ip.inum, dataSlot (off / bsize)) = some b) :
    (((view sb s ip).block b).toList.drop (off % bsize)).take m = (range' off m).map ((view sb s ip).byte ip.inum) := by
  have small : off % bsize < bsize := Nat.mod_lt _ (by decide)
  apply ext_getElem
  · simp only [length_take, length_drop, Vector.length_toList, length_map, length_range']
    omega
  · intro k left right
    simp only [length_map, length_range'] at right
    obtain ⟨quotient, remainder⟩ := div_mod_of_round fits (Nat.le_add_right off k) (by omega)
    rw [getElem_map, getElem_range', Nat.one_mul, byte_of_held (quotient ▸ present)]
    simp only [getElem_take, getElem_drop, Vector.getElem_toList, remainder, Nat.add_sub_cancel_left]
    rfl

/-- Where all blocks are mapped, the bytes up to the first that cannot be written are copied, and the state stays. -/
theorem readLoop_spec (sound : Sound sb (view sb s ip)) {n : ℕ} (fuel tot off : ℕ) (enough : n - tot ≤ fuel)
    (started : tot ≤ n)
    (mapped : ∀ o, off ≤ o → o < off + (n - tot) → (view sb s ip).held (ip.inum, dataSlot (o / bsize)) ≠ none) :
    Ensures (readLoop sb dst n fuel ip tot off) s (fun r s' => s' = s ∧
      r = (ip, (range' off (moved (fun i => dst (tot + i)) (n - tot))).map ((view sb s ip).byte ip.inum),
        if moved (fun i => dst (tot + i)) (n - tot) < n - tot then -1 else (n : ℤ))) fun _ => False := by
  induction fuel generalizing tot off with
  | zero =>
    obtain rfl : tot = n := by omega
    exact .pure ⟨rfl, by simp [moved]⟩
  | succ fuel ih =>
    refine .ite (fun more => ?_) fun done => ?_
    · obtain ⟨b, present⟩ := Option.ne_none_iff_exists'.mp (mapped off le_rfl (by omega))
      refine (bmap_of_held sound present).bind ?_
      rintro ⟨ip', addr⟩ s' after
      obtain ⟨rfl, rfl, nonzero, rfl⟩ : s' = s ∧ ip' = ip ∧ addr ≠ 0 ∧ addr.toNat = b := after
      dsimp only
      rw [if_neg nonzero]
      refine bread_bind ?_
      rw [show s'.disk addr.toNat = (view sb s' ip').block addr.toNat from disk_eq_block (sound.in_data present).1]
      generalize round : min (n - tot) (bsize - off % bsize) = m
      have : off % bsize < bsize := Nat.mod_lt _ (by decide)
      have most := moved_le (fun i => dst (tot + i)) m
      rw [show n - tot = m + (n - (tot + m)) by omega, moved_add, take_drop_block (by omega) present]
      refine .ite (fun short => .pure ⟨rfl, ?_⟩) fun whole => ?_
      · rw [if_pos short, if_pos (by omega)]
      have all : moved (fun i => dst (tot + i)) m = m := by omega
      refine (ih (tot + m) (off + m) (by omega) (by omega) fun o low high => mapped o (by omega) (by omega)).bind ?_
      rintro _ s ⟨rfl, rfl⟩
      refine .pure ⟨rfl, ?_⟩
      simp only [all, lt_irrefl, if_false, Nat.add_lt_add_iff_left, ← range'_append_1, map_append, Nat.add_assoc]
    · obtain rfl : tot = n := by omega
      exact .pure ⟨rfl, by simp [moved]⟩

theorem held_of_lt (consistent : Consistent sb im)
    (live : (im.inode i).type ≠ 0) (inside : o < (im.inode i).size.toNat) :
    im.held (i, dataSlot (o / bsize)) ≠ none := by
  rw [Ne, held_eq_none]
  exact consistent.mapped i (o / bsize) live (Nat.lt_of_le_of_lt (Nat.div_mul_le_self ..) inside)

theorem toNat_add_of_not_wrap (bound : ¬ off + n < off) : (off + n).toNat = off.toNat + n.toNat := by
  have := off.toNat_lt
  have := n.toNat_lt
  rw [UInt32.lt_iff_toNat_lt, UInt32.toNat_add] at bound
  rw [UInt32.toNat_add]
  omega

/-- The part of a range that is in a file. -/
theorem toNat_clip {size : UInt32} (low : ¬ off > size) (noWrap : ¬ off + n < off) :
    (if off + n > size then size - off else n).toNat = min n.toNat (size.toNat - off.toNat) := by
  have sum := toNat_add_of_not_wrap noWrap
  have low' := UInt32.le_iff_toNat_le.mp (UInt32.not_lt.mp low)
  split
  · next long =>
    have := UInt32.lt_iff_toNat_lt.mp long
    rw [UInt32.toNat_sub_of_le _ _ (UInt32.not_lt.mp low)]
    omega
  · next short =>
    have := UInt32.le_iff_toNat_le.mp (UInt32.not_lt.mp short)
    omega

theorem take_drop_file {off n : ℕ} (inside : off + n ≤ (im.inode i).size.toNat) :
    ((im.file i).drop off).take n = (range' off n).map (im.byte i) := by
  apply ext_getElem
  · simp only [file, length_take, length_drop, length_map, length_range, length_range']
    omega
  · intro k left right
    simp [file]

section

variable (sound : Sound sb (sb.image s.disk)) (loaded : Loaded sb s ip)
  (mapped : ∀ o < ip.size.toNat, o < off.toNat + n.toNat →
    (sb.image s.disk).held (ip.inum, dataSlot (o / bsize)) ≠ none)
include sound loaded mapped

theorem readi_exact : Ensures (readi sb ip dst off n) s (fun r s' => s' = s ∧
    (off > ip.size ∨ off + n < off → r = (ip, [], 0)) ∧ (¬ (off > ip.size ∨ off + n < off) →
      ∃ m, m = min n.toNat (ip.size.toNat - off.toNat) ∧ off.toNat ≤ ip.size.toNat ∧
        r = (ip, (range' off.toNat (moved dst m)).map ((sb.image s.disk).byte ip.inum),
          if moved dst m < m then -1 else (m : ℤ)))) fun _ => False := by
  refine .ite (fun outside => .pure ⟨rfl, fun _ => rfl, absurd outside⟩) fun inside => ?_
  obtain ⟨low, noWrap⟩ := not_or.mp inside
  have low' : off.toNat ≤ ip.size.toNat := UInt32.le_iff_toNat_le.mp (UInt32.not_lt.mp low)
  have length := toNat_clip low noWrap
  generalize (if off + n > ip.size then ip.size - off else n) = m at *
  have there (o : ℕ) (_ : off.toNat ≤ o) (high : o < off.toNat + (m.toNat - 0)) :
      (Op.view sb s ip).held (ip.inum, dataSlot (o / bsize)) ≠ none := by
    rw [loaded.view_eq]
    exact mapped o (by omega) (by omega)
  refine (readLoop_spec (by rw [loaded.view_eq]; exact sound) m.toNat 0 _ (by omega) (by omega) there).mono ?_
  rintro _ s ⟨rfl, rfl⟩
  refine ⟨rfl, fun outside => (inside outside).elim, fun _ => ⟨m.toNat, length, low', ?_⟩⟩
  simp only [Nat.sub_zero, Nat.zero_add, loaded.view_eq]

theorem readi_of_mapped :
    Ensures (readi sb ip dst off n) s (fun r s' => s' = s ∧ r.1 = ip ∧ ((∀ i < n.toNat, dst i = true) →
      r.2.2 = (r.2.1.length : ℤ) ∧
      r.2.1 = if off > ip.size ∨ off + n < off then
      [] else (((sb.image s.disk).file ip.inum).drop off.toNat).take n.toNat))
      fun _ => False := by
  refine (readi_exact sound loaded mapped).mono ?_
  rintro r s ⟨rfl, refused, accepted⟩
  by_cases outside : off > ip.size ∨ off + n < off
  · rw [refused outside, if_pos outside]
    exact ⟨rfl, rfl, fun _ => ⟨rfl, rfl⟩⟩
  · obtain ⟨m, length, low, rfl⟩ := accepted outside
    refine ⟨rfl, rfl, fun accessible => ?_⟩
    have size : ((sb.image s.disk).file ip.inum).length = ip.size.toNat := by simp [file, loaded.current]
    have all : moved dst m = m := moved_of_accessible fun i small => accessible i (by omega)
    refine ⟨by simp [all], ?_⟩
    rw [if_neg outside, all, ← take_drop_file (by rw [loaded.current]; omega), take_eq_take_iff, length_drop, size]
    omega

end

theorem readi_spec (consistent : Consistent sb (sb.image s.disk)) (loaded : Loaded sb s ip) :
    Ensures (readi sb ip dst off n) s (fun r s' => s' = s ∧ r.1 = ip ∧ ((∀ i < n.toNat, dst i = true) →
      r.2.2 = (r.2.1.length : ℤ) ∧
      r.2.1 = if off > ip.size ∨ off + n < off then
      [] else (((sb.image s.disk).file ip.inum).drop off.toNat).take n.toNat))
      fun _ => False := by
  refine readi_of_mapped consistent.toSound loaded fun o inside _ => ?_
  rw [← loaded.current] at inside
  exact held_of_lt consistent loaded.stored inside

section Write

variable {src : ℕ → Option UInt8} {n : ℕ}

/-- What the loop of `writei` has done between two rounds. Where the whole source can be read, the bytes are
exactly those written, and the loop ends early only when no block is free. -/
structure Wrote (sb : Superblock) (src : ℕ → Option UInt8) (n : ℕ) (s : Store) (ip : Inode) (tot off : ℕ)
    (s' : Store) (ip' : Inode) (tot' off' : ℕ) : Prop where
  grows : Grows sb s ip s' ip'
  count : tot ≤ tot' ∧ tot' ≤ n ∧ off' = off + (tot' - tot)
  others : ∀ i ≠ ip.inum, ∀ o, (view sb s' ip').byte i o = (view sb s ip).byte i o
  covers : ∀ o, off ≤ o → o < off' → (view sb s' ip').held (ip.inum, dataSlot (o / bsize)) ≠ none
  exact : (∀ i < n, (src i).isSome) →
    (tot' = n ∨ ∀ b < sb.size, (sb.image s'.disk).bit b = true) ∧
    ∀ o, (view sb s' ip').byte ip.inum o =
      if off ≤ o ∧ o < off' then (src (tot + (o - off))).getD 0 else (view sb s ip).byte ip.inum o

variable {b off m tot k tot' off' stop : ℕ} {data : Block} {l : List ℕ} {s₁ s₂ : Store} {ip₁ : Inode} {len : UInt32}

theorem view_overwrite (low : sb.datastart ≤ b) (written : s'.disk = update s.disk b data) :
    view sb s' ip = { view sb s ip with block := update (view sb s ip).block b data } := by
  rw [view, written, sb.image_data _ low]
  rfl

theorem grows_overwrite {bn : ℕ} (sound : Sound sb (view sb s ip))
    (present : (view sb s ip).held (ip.inum, dataSlot bn) = some b) (written : s'.disk = update s.disk b data) :
    Grows sb s ip s' ip := by
  have low := (sound.in_data present).1
  have after : view sb s' ip = _ := view_overwrite low written
  refine ⟨rfl, by rw [written, sb.image_data _ low], ?_, fun x c holds => ?_⟩
  · rw [after]
    exact sound.overwrite present data
  · rw [after, ← holds]
    exact held_congr (sound.slot_overwrite present data ..)

theorem byte_round {source : ℕ → UInt8} (sound : Sound sb (view sb s ip))
    (present : (view sb s ip).held (ip.inum, dataSlot (off / bsize)) = some b) (fits : m ≤ bsize - off % bsize)
    (written : s'.disk = update s.disk b (((view sb s ip).block b).splice (off % bsize) m source)) (i o : ℕ) :
    (view sb s' ip).byte i o =
      if i = ip.inum ∧ off ≤ o ∧ o < off + m then source (o - off) else (view sb s ip).byte i o := by
  have after : view sb s' ip = _ := view_overwrite (sound.in_data present).1 written
  rw [after, sound.byte_splice present fits]

/-- How the loop of `writei` ends, whatever part of the source can be read: `tot' - tot` bytes are written, and the copy
that fails has moved `k` more. The blocks `l` are noted in the log; the block of that copy is not. -/
structure Torn (sb : Superblock) (src : ℕ → Option UInt8) (n : ℕ) (s : Store) (ip : Inode) (tot off : ℕ)
    (s' : Store) (ip' : Inode) (tot' off' k : ℕ) (l : List ℕ) : Prop where
  grows : Grows sb s ip s' ip'
  count : tot ≤ tot' ∧ tot' + k ≤ n ∧ off' = off + (tot' - tot)
  fits : k < bsize - off' % bsize
  boundary : tot' = n ∨ off' = off ∨ off' % bsize = 0
  others : ∀ i ≠ ip.inum, ∀ o, (view sb s' ip').byte i o = (view sb s ip).byte i o
  covers : ∀ o, off ≤ o → o < off' → (view sb s' ip').held (ip.inum, dataSlot (o / bsize)) ≠ none
  readable : ∀ j, tot ≤ j → j < tot' + k → (src j).isSome
  bytes : ∀ o, (view sb s' ip').byte ip.inum o =
    if off ≤ o ∧ o < off' + k then (src (tot + (o - off))).getD 0 else (view sb s ip).byte ip.inum o
  ended : tot' = n ∨ (tot' + k < n ∧ src (tot' + k) = none) ∨
    k = 0 ∧ (view sb s' ip').held (ip.inum, dataSlot (off' / bsize)) = none ∧ ∀ b < sb.size,
    (sb.image s'.disk).bit b = true
  slots : ∀ x, (view sb s' ip').held x ≠ (view sb s ip).held x → x = (ip.inum, ndirect) ∧ ndirect ≤ off' / bsize ∨
    ∃ o, off ≤ o ∧ o ≤ off' ∧ x = (ip.inum, dataSlot (o / bsize))
  logged : s'.logged = s.logged ++ l
  noted : ∀ b ∈ l, ∀ bn, (view sb s ip).held (ip.inum, dataSlot bn) = some b → ∃ o, off ≤ o ∧ o < off' ∧ o / bsize = bn
  same : ∀ b ∉ l, s'.disk b = s.disk b ∨
    (view sb s ip).held (ip.inum, dataSlot (off' / bsize)) = some b ∧
      s'.disk b = (s.disk b).splice (off' % bsize) k fun i => (src (tot' + i)).getD 0

theorem Torn.of_maps (maps : Maps sb (off / bsize) s ip s' ip' l) (started : tot ≤ n)
    (ended : tot = n ∨ (view sb s' ip').held (ip.inum, dataSlot (off / bsize)) = none ∧
      ∀ b < sb.size, (sb.image s'.disk).bit b = true) :
    Torn sb src n s ip tot off s' ip' tot off 0 l where
  grows := maps.toGrows
  count := ⟨le_rfl, started, by omega⟩
  fits := Nat.sub_pos_of_lt (Nat.mod_lt _ (by decide))
  boundary := .inr (.inl rfl)
  others i _ o := maps.byte i o
  covers o low high := by omega
  readable j low high := by omega
  bytes o := by rw [if_neg (by omega), maps.byte]
  ended := ended.imp_right fun full => .inr ⟨rfl, full⟩
  slots x changed := (maps.slots x changed).imp_right fun here => ⟨off, le_rfl, le_rfl, here⟩
  logged := maps.logged
  noted b listed bn present := (maps.spare b listed bn present).elim
  same b absent := .inl (maps.same b absent)

section

variable (maps : Maps sb (off / bsize) s ip s₁ ip₁ l)
  (present : (view sb s₁ ip₁).held (ip.inum, dataSlot (off / bsize)) = some b)
include maps present

/-- A copy that fails leaves the block mapped and part of it overwritten. -/
theorem Torn.of_failed (short : k < m) (round : m = min (n - tot) (bsize - off % bsize))
    (moved : ∀ i < k, (src (tot + i)).isSome) (stopped : src (tot + k) = none)
    (written : s₂.disk = update s₁.disk b
      (((view sb s₁ ip₁).block b).splice (off % bsize) k fun i => (src (tot + i)).getD 0))
    (silent : s₂.logged = s₁.logged) : Torn sb src n s ip tot off s₂ ip₁ tot off k l := by
  have inum := maps.inum
  have fits : k < bsize - off % bsize := by omega
  have block := grows_overwrite maps.sound (inum ▸ present) written
  have byte := byte_round maps.sound (inum ▸ present) fits.le written
  refine ⟨maps.toGrows.trans block, ⟨le_rfl, by omega, by omega⟩, fits, .inr (.inl rfl), fun i other o => ?_,
    fun o low high => by omega, fun j low high => ?_, fun o => ?_, .inr (.inl ⟨by omega, stopped⟩),
    fun x changed => ?_, silent.trans maps.logged, fun c listed bn held => (maps.spare c listed bn held).elim,
    fun c absent => ?_⟩
  · rw [byte, if_neg (by rw [inum]; exact fun h => other h.1), maps.byte]
  · have := moved (j - tot) (by omega)
    rwa [Nat.add_sub_cancel' low] at this
  · rw [byte, inum, maps.byte]
    simp only [true_and]
  · have after : view sb s₂ ip₁ = _ := view_overwrite (maps.sound.in_data present).1 written
    rw [after, held_congr (maps.sound.slot_overwrite (inum ▸ present) _ ..)] at changed
    exact (maps.slots x changed).imp_right fun here => ⟨off, le_rfl, le_rfl, here⟩
  · rw [written, update_apply, ← maps.same c absent]
    by_cases here : c = b
    · subst here
      refine .inr ⟨(maps.fresh _ c present).resolve_right absent, ?_⟩
      rw [if_pos rfl, show s₁.disk c = (view sb s₁ ip₁).block c from disk_eq_block (maps.sound.in_data present).1]
    · exact .inl (if_neg here)

theorem Torn.round {l' : List ℕ}
    (positive : 0 < m) (round : m = min (n - tot) (bsize - off % bsize)) (moved : ∀ i < m, (src (tot + i)).isSome)
    (written : s₂.disk = update s₁.disk b
      (((view sb s₁ ip₁).block b).splice (off % bsize) m fun i => (src (tot + i)).getD 0))
    (noted : s₂.logged = s₁.logged ++ [b])
    (rest : Torn sb src n s₂ ip₁ (tot + m) (off + m) s' ip' tot' off' k l') :
    Torn sb src n s ip tot off s' ip' tot' off' k (l ++ [b] ++ l') := by
  have inum := maps.inum
  have fits : m ≤ bsize - off % bsize := by omega
  have block := grows_overwrite maps.sound (inum ▸ present) written
  have byte := byte_round maps.sound (inum ▸ present) fits written
  have held (x : ℕ × ℕ) (a : ℕ) (before : (view sb s ip).held x = some a) : (view sb s₂ ip₁).held x = some a :=
    block.held x a (maps.held x a before)
  have slots (x : ℕ × ℕ) : (view sb s₂ ip₁).held x = (view sb s₁ ip₁).held x := by
    have after : view sb s₂ ip₁ = _ := view_overwrite (maps.sound.in_data present).1 written
    rw [after, held_congr (maps.sound.slot_overwrite (inum ▸ present) _ ..)]
  obtain ⟨start, stop, offset⟩ := rest.count
  refine ⟨(maps.toGrows.trans block).trans rest.grows, ⟨by omega, stop, by omega⟩, rest.fits, ?_, fun i other o => ?_,
    fun o low high => ?_, fun j low high => ?_, fun o => ?_, ?_, fun x changed => ?_, ?_, fun c listed bn before => ?_,
    fun c absent => ?_⟩
  · rcases rest.boundary with all | first | later
    · exact .inl all
    · by_cases last : n - tot ≤ bsize - off % bsize
      · left
        omega
      · right
        right
        simp only [bsize] at round ⊢ last
        omega
    · exact .inr (.inr later)
  · rw [rest.others i (by rwa [inum]) o, byte, if_neg (by rw [inum]; exact fun h => other h.1), maps.byte]
  · by_cases early : o < off + m
    · rw [(div_mod_of_round fits low early).1, rest.grows.held _ b (block.held _ b present)]
      exact Option.some_ne_none b
    · rw [← inum]
      exact rest.covers o (by omega) high
  · by_cases early : j < tot + m
    · have := moved (j - tot) (by omega)
      rwa [Nat.add_sub_cancel' low] at this
    · exact rest.readable j (by omega) high
  · have later := rest.bytes o
    rw [inum] at later
    rw [later, byte, inum, maps.byte]
    by_cases early : o < off + m
    · rw [if_neg (by omega)]
      by_cases low : off ≤ o
      · rw [if_pos ⟨rfl, low, early⟩, if_pos ⟨low, by omega⟩]
      · rw [if_neg (by omega), if_neg (by omega)]
    · by_cases high : o < off' + k
      · rw [if_pos ⟨by omega, high⟩, if_pos ⟨by omega, high⟩, show tot + m + (o - (off + m)) = tot + (o - off) by omega]
      · rw [if_neg (by omega), if_neg (by omega), if_neg (by omega)]
  · exact inum ▸ rest.ended
  · by_cases early : (view sb s₂ ip₁).held x = (view sb s ip).held x
    · refine inum ▸ (rest.slots x (early ▸ changed)).imp_right ?_
      rintro ⟨o, low, high, rfl⟩
      exact ⟨o, by omega, high, rfl⟩
    · rw [slots] at early
      exact (maps.slots x early).imp (And.imp_right fun high => high.trans (Nat.div_le_div_right (by omega)))
        fun here => ⟨off, le_rfl, by omega, here⟩
  · rw [rest.logged, noted, maps.logged]
    simp only [append_assoc]
  · -- a block of the file that is noted was written in a round
    rcases mem_append.mp listed with listed | later
    · rcases mem_append.mp listed with mapped | here
      · exact (maps.spare c mapped bn before).elim
      · rw [mem_singleton] at here
        subst here
        refine ⟨off, le_rfl, by omega, ?_⟩
        have slot := maps.sound.owned.unique _ _ _ present (maps.held _ c before)
        exact dataSlot_inj (congrArg Prod.snd slot)
    · obtain ⟨o, low, high, quotient⟩ := rest.noted c later bn (by rw [inum]; exact held _ c before)
      exact ⟨o, by omega, high, quotient⟩
  · rw [mem_append, mem_append, mem_singleton, not_or, not_or] at absent
    obtain ⟨⟨unmapped, other⟩, late⟩ := absent
    have before : s₂.disk c = s.disk c := by
      rw [written, update_of_ne other, maps.same c unmapped]
    rw [← before, ← inum]
    rcases rest.same c late with kept | ⟨now, torn⟩
    · exact .inl kept
    refine .inr ⟨?_, torn⟩
    rw [slots] at now
    exact (maps.fresh _ c now).resolve_right unmapped

end

theorem Torn.wrote (torn : Torn sb src n s ip tot off s' ip' tot' off' k l) :
    Wrote sb src n s ip tot off s' ip' tot' off' where
  grows := torn.grows
  count := ⟨torn.count.1, by have := torn.count.2.1; omega, torn.count.2.2⟩
  others := torn.others
  covers := torn.covers
  exact all := by
    obtain ⟨-, within, -⟩ := torn.count
    have whole : k = 0 ∧ (tot' = n ∨ ∀ b < sb.size, (sb.image s'.disk).bit b = true) := by
      rcases torn.ended with done | ⟨inside, stopped⟩ | ⟨zero, -, full⟩
      · exact ⟨by omega, .inl done⟩
      · have := all _ inside
        rw [stopped] at this
        cases this
      · exact ⟨zero, .inr full⟩
    refine ⟨whole.2, fun o => ?_⟩
    rw [torn.bytes, whole.1, Nat.add_zero]

theorem writeLoop_torn (sound : Sound sb (view sb s ip)) (live : ip.type ≠ 0) (fuel tot off : ℕ)
    (enough : n - tot ≤ fuel)
    (started : tot ≤ n) (inside : off + (n - tot) ≤ maxfile * bsize) :
    Ensures (writeLoop sb src n fuel ip tot off) s
      (fun r s' => ∃ k l, Torn sb src n s ip tot off s' r.1 r.2.1 r.2.2 k l) fun _ => False := by
  induction fuel generalizing s ip tot off with
  | zero => exact .pure ⟨0, [], .of_maps (.refl sound) started (.inl (by omega))⟩
  | succ fuel ih =>
    refine .ite (fun more => ?_) fun done => .pure ⟨0, [], .of_maps (.refl sound) started (.inl (by omega))⟩
    have block : off / bsize < maxfile := by
      rw [Nat.div_lt_iff_lt_mul (by decide)]
      omega
    refine (bmap_spec sound live block).bind ?_
    rintro ⟨ip₁, addr⟩ s₁ ⟨⟨l, grown⟩, full, found⟩
    refine .ite (fun zero => .pure ⟨0, l, .of_maps grown started (.inr (full zero))⟩) fun nonzero => ?_
    have present : (view sb s₁ ip₁).held (ip.inum, dataSlot (off / bsize)) = some addr.toNat := found nonzero
    refine bread_bind ?_
    rw [show s₁.disk addr.toNat = (view sb s₁ ip₁).block addr.toNat from disk_eq_block (grown.sound.in_data present).1]
    generalize round : min (n - tot) (bsize - off % bsize) = m
    have positive : 0 < m := by
      have : off % bsize < bsize := Nat.mod_lt _ (by decide)
      omega
    have most := moved_le (fun i => (src (tot + i)).isSome) m
    refine .ite (fun short => ?_) fun whole => ?_
    · refine scribble_bind (.pure ⟨_, l, .of_failed grown present short round.symm (fun i early => ?_) ?_ rfl rfl⟩)
      · exact accessible_of_moved early
      · simpa using inaccessible_of_moved short
    · refine logWrite_bind ?_
      have same : Op.moved (fun i => (src (tot + i)).isSome) m = m := by omega
      have readable : ∀ i < m, (src (tot + i)).isSome := fun i small => accessible_of_moved (small.trans_eq same.symm)
      rw [same]
      set s₂ : Store := ⟨update s₁.disk addr.toNat _, _⟩
      have block : Grows sb s₁ ip₁ s₂ ip₁ := grows_overwrite grown.sound (grown.inum ▸ present) rfl
      refine (ih block.sound (by rwa [grown.type]) (tot + m) (off + m) (by omega) (by omega) (by omega)).mono ?_
      rintro r s' ⟨k, l', rest⟩
      exact ⟨k, _, .round grown present positive round.symm readable rfl rfl rest⟩

/-- A write that is accepted: `tot` bytes are written at `off`. -/
structure Written (sb : Superblock) (src : ℕ → Option UInt8) (n off : ℕ) (s : Store) (ip : Inode)
    (s' : Store) (ip' : Inode)
    (tot : ℕ) : Prop where
  consistent : Consistent sb (sb.image s'.disk)
  loaded : Loaded sb s' ip'
  kept : ip' = { ip with addrs := ip'.addrs, size := ip'.size }
  size : ip'.size.toNat = max ip.size.toNat (off + tot)
  count : tot ≤ n
  elsewhere : SameElsewhere (sb.image s.disk) ip.inum (sb.image s'.disk)
  exact : (∀ i < n, (src i).isSome) → (tot = n ∨ ∀ b < sb.size, (sb.image s'.disk).bit b = true) ∧
    ∀ o, (sb.image s'.disk).byte ip.inum o =
      if off ≤ o ∧ o < off + tot then (src (o - off)).getD 0 else (sb.image s.disk).byte ip.inum o

theorem Written.inum (written : Written sb src n off s ip s' ip' tot) : ip'.inum = ip.inum := by rw [written.kept]

section Saved

/-! The size is no part of what the slots and the bytes depend on. -/

variable {s₁ : Store} {ip₁ : Inode} (ended : ip' = { ip₁ with size := ip'.size })
  (saved : sb.image s'.disk = view sb s₁ ip')
include ended saved

theorem image_of_saved : sb.image s'.disk = (view sb s₁ ip₁).put ip'.inum ip'.toDinode := by
  have inum : ip'.inum = ip₁.inum := by rw [ended]
  rw [saved, view, view, inum, put_put]

theorem slot_of_saved (i k : ℕ) : (sb.image s'.disk).slot i k = (view sb s₁ ip₁).slot i k := by
  have inum : ip'.inum = ip₁.inum := by rw [ended]
  rw [image_of_saved ended saved]
  apply slot_put_kept <;> rw [inum] <;> simp only [view, put_inode_self] <;> rw [ended]

theorem byte_of_saved (i o : ℕ) : (sb.image s'.disk).byte i o = (view sb s₁ ip₁).byte i o :=
  byte_congr (fun _ => held_congr (slot_of_saved ended saved ..))
    (fun _ _ _ => by rw [image_of_saved ended saved, put_block]) o

end Saved

/-- The end of `writei`: the size is raised and the inode is written back. -/
theorem Wrote.written (consistent : Consistent sb (sb.image s.disk))
    (loaded : Loaded sb s ip) (low : off ≤ ip.size.toNat)
    (wrote : Wrote sb src n s ip 0 off s₁ ip₁ tot stop) (ended : ip' = { ip₁ with size := ip'.size })
    (size : ip'.size.toNat = max ip.size.toNat stop) (saved : sb.image s'.disk = view sb s₁ ip') :
    Written sb src n off s ip s' ip' tot := by
  have before := loaded.view_eq
  have grows := wrote.grows
  obtain ⟨-, count, rfl⟩ := wrote.count
  simp only [Nat.sub_zero] at size
  have inum : ip'.inum = ip₁.inum := by rw [ended]
  have inum' : ip'.inum = ip.inum := inum.trans grows.inum
  have type : ip'.type = ip.type := by rw [ended, ← grows.type]
  have image := image_of_saved ended saved
  have slot (i k : ℕ) := slot_of_saved ended saved i k
  have inodes (i : ℕ) (other : i ≠ ip.inum) : (sb.image s'.disk).inode i = (sb.image s.disk).inode i := by
    rw [saved, view, put_inode_of_ne (by rwa [inum']), grows.inodes]
  have inode : (sb.image s'.disk).inode ip.inum = ip'.toDinode := by
    rw [saved, view, inum', put_inode_self]
  have still {i k : ℕ} (present : (sb.image s.disk).slot i k ≠ 0) : (sb.image s'.disk).slot i k ≠ 0 := by
    rw [← before] at present
    rw [slot]
    exact slot_ne_zero_of_held (grows.held _ _ (held_of_slot_ne present))
  refine ⟨⟨grows.sound.congr slot (by rw [image, put_bit]), fun i bn live below => ?_⟩,
    ⟨by rw [inum']; exact loaded.known, by rw [inum', inode], by rw [type]; exact loaded.live⟩, ?_, size, count,
    ⟨inodes, fun i other o => ?_⟩, fun all => ?_⟩
  · by_cases here : i = ip.inum
    · subst here
      rw [inode] at below
      by_cases old : bn * bsize < ip.size.toNat
      · exact still (consistent.mapped _ bn loaded.stored (by rwa [loaded.current]))
      · have covered := wrote.covers (bn * bsize) (by omega) (by omega)
        rw [Nat.mul_div_cancel _ (by decide)] at covered
        rw [slot]
        exact fun zero => covered (held_eq_none.mpr zero)
    · rw [inodes i here] at live below
      exact still (consistent.mapped i bn live below)
  · rw [ended, grows.kept]
  · rw [byte_of_saved ended saved, wrote.others i other, before]
  · obtain ⟨full, bytes⟩ := wrote.exact all
    refine ⟨full.imp id fun h => by rw [image, put_bit]; exact h, fun o => ?_⟩
    rw [byte_of_saved ended saved, bytes, before, Nat.zero_add, Nat.sub_zero]

/-- The ranges that `writei` refuses. -/
def Refused (ip : Inode) (off n : UInt32) : Prop :=
  off > ip.size ∨ off + n < off ∨ (off + n).toNat > maxfile * bsize

/-- What an accepted write of `tot` bytes leaves in the blocks when the copy that fails has moved `k` more. -/
structure Leaves (sb : Superblock) (src : ℕ → Option UInt8) (n off : ℕ) (s : Store) (inum : ℕ) (s' : Store) (tot k : ℕ)
    (l : List ℕ) : Prop where
  held : ∀ x b, (sb.image s.disk).held x = some b → (sb.image s'.disk).held x = some b
  within : tot + k ≤ n
  fits : k < bsize - (off + tot) % bsize
  boundary : tot = n ∨ tot = 0 ∨ (off + tot) % bsize = 0
  readable : ∀ j < tot + k, (src j).isSome
  bytes : ∀ o, (sb.image s'.disk).byte inum o =
    if off ≤ o ∧ o < off + tot + k then (src (o - off)).getD 0 else (sb.image s.disk).byte inum o
  ended : tot = n ∨ (tot + k < n ∧ src (tot + k) = none) ∨
    k = 0 ∧ (sb.image s'.disk).held (inum, dataSlot ((off + tot) / bsize)) = none ∧ ∀ b < sb.size,
    (sb.image s'.disk).bit b = true
  covers : ∀ o, off ≤ o → o < off + tot → (sb.image s'.disk).held (inum, dataSlot (o / bsize)) ≠ none
  slots : ∀ x, (sb.image s'.disk).held x ≠ (sb.image s.disk).held x → x = (inum, ndirect) ∧
    ndirect ≤ (off + tot) / bsize ∨
    ∃ o, off ≤ o ∧ o ≤ off + tot ∧ x = (inum, dataSlot (o / bsize))
  logged : s'.logged = s.logged ++ l
  noted : ∀ b ∈ l, ∀ bn, (sb.image s.disk).held (inum, dataSlot bn) = some b → ∃ o, off ≤ o ∧ o < off + tot ∧
    o / bsize = bn
  same : ∀ b ∉ l, s'.disk b = s.disk b ∨ (sb.image s.disk).held (inum, dataSlot ((off + tot) / bsize)) = some b ∧
    s'.disk b = (s.disk b).splice ((off + tot) % bsize) k fun i => (src (tot + i)).getD 0

/-- Where the whole source can be read, a write stops early only for want of a block. -/
theorem Leaves.whole {inum : ℕ} (leaves : Leaves sb src n off s inum s' tot k l) (readable : ∀ i < n, (src i).isSome) :
    k = 0 ∧ (tot = n ∨ (sb.image s.disk).held (inum, dataSlot ((off + tot) / bsize)) = none ∧
      ∀ b < sb.size, (sb.image s'.disk).bit b = true) := by
  have within := leaves.within
  rcases leaves.ended with done | ⟨inside, stopped⟩ | ⟨zero, absent, full⟩
  · exact ⟨by omega, .inl done⟩
  · have := readable _ inside
    rw [stopped] at this
    cases this
  · refine ⟨zero, .inr ⟨Option.eq_none_iff_forall_ne_some.mpr fun b held => ?_, full⟩⟩
    rw [leaves.held _ b held] at absent
    cases absent

section

variable (consistent : Consistent sb (sb.image s.disk)) (loaded : Loaded sb s ip)
include consistent loaded

theorem Torn.leaves (torn : Torn sb src n s ip 0 off s₁ ip₁ tot stop k l) (ended : ip' = { ip₁ with size := ip'.size })
    (saved : sb.image s'.disk = view sb s₁ ip') (logged : s'.logged = s₁.logged ++ [sb.iblock ip.inum])
    (same : ∀ c ≠ sb.iblock ip.inum, s'.disk c = s₁.disk c) :
    Leaves sb src n off s ip.inum s' tot k (l ++ [sb.iblock ip.inum]) := by
  have before := loaded.view_eq
  obtain ⟨-, within, rfl⟩ := torn.count
  rw [Nat.sub_zero] at torn
  have held (x : ℕ × ℕ) : (sb.image s'.disk).held x = (view sb s₁ ip₁).held x :=
    held_congr (slot_of_saved ended saved ..)
  refine ⟨fun x b present => ?_, within, torn.fits, ?_, fun j => torn.readable j (Nat.zero_le j), fun o => ?_, ?_,
    fun o low high => ?_, fun x changed => ?_, ?_, fun b listed bn present => ?_, fun b absent => ?_⟩
  · rw [held]
    exact torn.grows.held x b (by rwa [before])
  · have := torn.boundary
    omega
  · rw [byte_of_saved ended saved, torn.bytes, before, Nat.zero_add]
  · rw [held, image_of_saved ended saved, put_bit]
    exact torn.ended
  · rw [held]
    exact torn.covers o low high
  · exact torn.slots x (by rwa [held, ← before] at changed)
  · rw [logged, torn.logged, append_assoc]
  · rcases mem_append.mp listed with early | last
    · exact torn.noted b early bn (by rwa [before])
    · have data := (consistent.toSound.in_data present).1
      have inodes := sb.iblock_lt loaded.known
      have bitmap := sb.bmapstart_lt_datastart
      rw [mem_singleton] at last
      omega
  · rw [mem_append, mem_singleton, not_or] at absent
    rw [same b absent.2, ← before]
    exact torn.same b absent.1

/-- The copy that fails is one of the range. -/
theorem writei_leaves {off : UInt32} :
    Ensures (writei sb ip src off len) s (fun r s' =>
      (Refused ip off len → s' = s ∧ r = (ip, -1)) ∧
      (¬ Refused ip off len → ∃ tot k l, r.2 = (tot : ℕ) ∧ Written sb src len.toNat off.toNat s ip s' r.1 tot ∧
        Leaves sb src len.toNat off.toNat s ip.inum s' tot k l)) fun _ => False := by
  refine .ite (fun outside => ?_) fun inside => .ite (fun large => ?_) fun fits => ?_
  · exact .pure ⟨fun _ => ⟨rfl, rfl⟩, fun accepted => (accepted (outside.imp_right .inl)).elim⟩
  · exact .pure ⟨fun _ => ⟨rfl, rfl⟩, fun accepted => (accepted (.inr (.inr large))).elim⟩
  · obtain ⟨low, noWrap⟩ := not_or.mp inside
    have sum := toNat_add_of_not_wrap noWrap
    have low' : off.toNat ≤ ip.size.toNat := UInt32.le_iff_toNat_le.mp (UInt32.not_lt.mp low)
    have accepted : ¬ Refused ip off len := by
      rintro (h | h | h)
      · exact low h
      · exact noWrap h
      · exact fits h
    have sound : Sound sb (view sb s ip) := by
      rw [loaded.view_eq]
      exact consistent.toSound
    refine (writeLoop_torn sound loaded.live len.toNat 0 off.toNat (by omega) (by omega) (by omega)).bind ?_
    rintro ⟨ip₁, tot, stop⟩ s₁ ⟨k, l, torn⟩
    simp only at torn ⊢
    have inum := torn.grows.inum
    have size := torn.grows.size
    obtain ⟨-, count, stopped⟩ := torn.count
    generalize ended : (if stop > ip₁.size.toNat then { ip₁ with size := UInt32.ofNat stop } else ip₁) = ip'
    have shape : ip' = { ip₁ with size := ip'.size } ∧ ip'.size.toNat = max ip.size.toNat stop := by
      rw [← ended]
      split
      · next raised =>
        refine ⟨rfl, ?_⟩
        rw [← size, UInt32.toNat_ofNat_of_lt' (by have := (off + len).toNat_lt; simp only [UInt32.size]; omega)]
        omega
      · next kept =>
        refine ⟨rfl, ?_⟩
        rw [← size]
        omega
    have inum' : ip'.inum = ip.inum := by rw [shape.1, inum]
    refine (iupdate_noted ip' (by rw [inum']; exact loaded.known)).bind ?_
    rintro _ s' ⟨saved, logged, same⟩
    rw [inum'] at logged same
    exact .pure ⟨fun refused => (accepted refused).elim, fun _ => ⟨tot, k, _, rfl,
      torn.wrote.written consistent loaded low' shape.1 shape.2 saved,
      torn.leaves consistent loaded shape.1 saved logged same⟩⟩

theorem writei_spec {off : UInt32} :
    Ensures (writei sb ip src off len) s (fun r s' =>
      (Refused ip off len → s' = s ∧ r = (ip, -1)) ∧
      (¬ Refused ip off len → ∃ tot : ℕ, r.2 = tot ∧ Written sb src len.toNat off.toNat s ip s' r.1 tot))
      fun _ => False := by
  refine (writei_leaves consistent loaded).mono ?_
  rintro r s' ⟨refused, accepted⟩
  refine ⟨refused, fun inside => ?_⟩
  obtain ⟨tot, -, -, result, written, -⟩ := accepted inside
  exact ⟨tot, result, written⟩

end

end Write

end Op

end Xv6.Fs
