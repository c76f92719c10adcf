import Xv6.Proofs.Fs.DirectoryMap
import Xv6.Proofs.Fs.Truncate

/-! # Images on disks

Every image that is blank outside of its regions is on some disk. Particular images can so be given by
their inodes and the contents of their files; a full image maps all the blocks that its inodes can have.
-/

namespace Xv6.Fs

open Machine Image Vector

namespace Superblock

variable (sb : Superblock)

/-- An image has nothing outside of the regions. -/
structure Fits (im : Image) : Prop where
  bit : ∀ b, sb.size ≤ b → im.bit b = false
  inode : ∀ i, sb.ninodes ≤ i → im.inode i = .zero
  block : ∀ b < sb.datastart, im.block b = Vector.replicate _ 0

theorem decode_zeros (position : ℕ) : Dinode.decode (Vector.replicate _ 0) position = .zero := by
  simp only [Dinode.decode, word_zeros, Dinode.zero, Dinode.mk.injEq]
  refine ⟨rfl, rfl, rfl, rfl, trivial, Vector.ext fun k small => ?_⟩
  rw [Vector.getElem_ofFn, Vector.getElem_replicate]

variable {sb} {im : Image}

/-- What holds of a function still holds once it has been changed at all numbers below a bound, one by one. -/
theorem fill {β : Type} {P : (ℕ → β) → Prop} {f g : ℕ → β} {n : ℕ} (start : P f)
    (set : ∀ k < n, ∀ h, P h → P (Function.update h k (g k))) : P fun i => if i < n then g i else f i := by
  induction n with
  | zero => exact start
  | succ n ih =>
    have next := set n (Nat.lt_succ_self n) _ (ih fun k small => set k (Nat.lt_succ_of_lt small))
    convert next using 1
    funext i
    rw [Function.update_apply]
    by_cases here : i = n
    · simp [here]
    · rw [if_neg here]
      exact if_congr (by omega) rfl rfl

/-- The data blocks are where they are; the inodes and then the bits are written one by one. -/
theorem Fits.exists_disk (fits : sb.Fits im) : ∃ disk, sb.image disk = im := by
  have blank : sb.image im.block = ⟨fun _ => false, fun _ => .zero, im.block⟩ := by
    ext1
    · funext b
      simp only [image]
      by_cases inside : b < sb.size
      · rw [fits.block _ (sb.bblock_lt inside), bit_zeros, Bool.and_false]
      · simp [inside]
    · funext i
      simp only [image]
      split
      · next known =>
        rw [fits.block _ (Nat.lt_trans (sb.iblock_lt known) sb.bmapstart_lt_datastart), decode_zeros]
      · rfl
    · funext b
      simp only [image]
      split
      · rfl
      · next low => rw [fits.block b (Nat.lt_of_not_le low)]
  have inodes : ∃ disk, sb.image disk = ⟨fun _ => false, im.inode, im.block⟩ := by
    have all : (fun i => if i < sb.ninodes then im.inode i else .zero) = im.inode :=
      funext fun i => ite_eq_left_iff.mpr fun high => (fits.inode i (Nat.le_of_not_lt high)).symm
    rw [← all]
    refine fill (P := fun g => ∃ disk, sb.image disk = ⟨_, g, _⟩) ⟨im.block, blank⟩ ?_
    rintro i known g ⟨disk, shown⟩
    exact ⟨_, (sb.image_inode disk known (im.inode i)).trans (by rw [shown])⟩
  have all : (fun b => if b < sb.size then im.bit b else false) = im.bit :=
    funext fun b => ite_eq_left_iff.mpr fun high => (fits.bit b (Nat.le_of_not_lt high)).symm
  suffices bits : ∃ disk, sb.image disk = ⟨im.bit, im.inode, im.block⟩ from bits
  rw [← all]
  refine fill (P := fun g => ∃ disk, sb.image disk = ⟨g, _, _⟩) inodes ?_
  rintro n inside g ⟨disk, shown⟩
  cases im.bit n with
  | true =>
    have room : n % bpb < 8 * bsize := Nat.mod_lt _ (by decide)
    refine ⟨_, (sb.image_bitmap disk (b := n) inside ((disk (sb.bblock n)).setBit (n % bpb)) true fun j _ => ?_).trans
      (by rw [shown])⟩
    simp only [bit_setBit, room, and_true]
  | false =>
    exact ⟨_, (sb.image_bitmap disk (b := n) inside ((disk (sb.bblock n)).clearBit (n % bpb)) false fun j _ =>
      bit_clearBit ..).trans (by rw [shown])⟩

end Superblock

variable {k : ℕ} {s : Store}

section Full

/-! Inodes `1` to `n`, each with every block that it can have. -/

/-- The contents of an image: the fields of the inodes and the bytes of the files. -/
structure Contents where
  count : ℕ
  fields : ℕ → Dinode
  byte : ℕ → ℕ → UInt8

namespace Contents

/-- The blocks of one inode. -/
def span : ℕ := maxfile + 1

variable (c : Contents) (sb : Superblock)

/-- The block in a slot. -/
def place (i k : ℕ) : ℕ := sb.datastart + span * (i - 1) + k

def inode (i : ℕ) : Dinode :=
  if 1 ≤ i ∧ i ≤ c.count then { c.fields i with addrs := Vector.ofFn fun k => UInt32.ofNat (place sb i k) } else .zero

def indirect (i : ℕ) : Block :=
  (Vector.replicate _ 0).setWords 0 ((List.range nindirect).map fun j => UInt32.ofNat (place sb i (ndirect + 1 + j)))

def block (b : ℕ) : Block :=
  if sb.datastart ≤ b ∧ b < sb.datastart + span * c.count then
    let i := (b - sb.datastart) / span + 1
    let k := (b - sb.datastart) % span
    if k = ndirect then indirect sb i
    else Vector.ofFn fun o => c.byte i (bsize * (if k < ndirect then k else k - 1) + o)
  else Vector.replicate _ 0

def image : Image := ⟨fun b => decide (b < sb.datastart + span * c.count), c.inode sb, c.block sb⟩

/-- The inodes and their blocks fit, and no file is larger than a file can be. -/
structure Fits : Prop where
  inodes : c.count < sb.ninodes
  blocks : sb.datastart + span * c.count ≤ sb.size
  live : ∀ i, 1 ≤ i → i ≤ c.count → (c.fields i).type ≠ 0

variable {c sb}

theorem Fits.superblock (fits : c.Fits sb) : sb.Fits (c.image sb) := by
  refine ⟨fun b high => ?_, fun i high => ?_, fun b low => ?_⟩
  · have := fits.blocks
    exact decide_eq_false (by omega)
  · have := fits.inodes
    exact if_neg (by omega)
  · exact if_neg (by omega)

theorem place_lt {i : ℕ} (low : 1 ≤ i) (high : i ≤ c.count) (slot : k ≤ maxfile) :
    place sb i k < sb.datastart + span * c.count := by
  have split : span * c.count = span * (i - 1) + span * (c.count - i + 1) := by
    rw [← Nat.mul_add]
    congr 1
    omega
  have : span ≤ span * (c.count - i + 1) := Nat.le_mul_of_pos_right _ (by omega)
  unfold span at *
  rw [place, span]
  omega

theorem toNat_place (fits : c.Fits sb) {i : ℕ} (low : 1 ≤ i) (high : i ≤ c.count) (slot : k ≤ maxfile) :
    UInt32.ofNat (place sb i k) ≠ 0 ∧ (UInt32.ofNat (place sb i k)).toNat = place sb i k := by
  have bound : place sb i k < _ := place_lt low high slot
  have := fits.blocks
  have low' : sb.datastart ≤ place sb i k := by
    rw [place]
    omega
  exact ofNat_block low' (by omega)

theorem place_inj {i j l : ℕ} (lowi : 1 ≤ i) (lowj : 1 ≤ j) (slotk : k ≤ maxfile) (slotl : l ≤ maxfile)
    (same : place sb i k = place sb j l) : i = j ∧ k = l := by
  have sums : span * (i - 1) + k = span * (j - 1) + l := by
    unfold place at same
    omega
  have smallk : k < span := Nat.lt_succ_of_le slotk
  have smalll : l < span := Nat.lt_succ_of_le slotl
  have quotient := congrArg (· / span) sums
  have rest := congrArg (· % span) sums
  simp only [Nat.mul_add_div (show 0 < span by decide), Nat.div_eq_of_lt smallk, Nat.div_eq_of_lt smalll, Nat.add_zero,
    Nat.mul_add_mod, Nat.mod_eq_of_lt smallk, Nat.mod_eq_of_lt smalll] at quotient rest
  exact ⟨by omega, rest⟩

theorem block_place {i : ℕ} (low : 1 ≤ i) (high : i ≤ c.count) (slot : k ≤ maxfile) :
    c.block sb (place sb i k) = if k = ndirect then indirect sb i
      else ofFn fun o => c.byte i (bsize * (if k < ndirect then k else k - 1) + o) := by
  have small : k < span := Nat.lt_succ_of_le slot
  have offset : place sb i k - sb.datastart = span * (i - 1) + k := by
    unfold place
    omega
  have quotient : (place sb i k - sb.datastart) / span + 1 = i := by
    rw [offset, Nat.mul_add_div (by decide), Nat.div_eq_of_lt small]
    omega
  have rest : (place sb i k - sb.datastart) % span = k := by
    rw [offset, Nat.mul_add_mod, Nat.mod_eq_of_lt small]
  rw [block, if_pos ⟨by rw [place]; omega, place_lt low high slot⟩]
  simp only [quotient, rest]

theorem inode_eq {i : ℕ} (low : 1 ≤ i) (high : i ≤ c.count) : (c.image sb).inode i =
    { c.fields i with addrs := ofFn fun k => UInt32.ofNat (place sb i k) } := if_pos ⟨low, high⟩

theorem inode_of_not {i : ℕ} (outside : ¬ (1 ≤ i ∧ i ≤ c.count)) : (c.image sb).inode i = .zero := if_neg outside

theorem slot_eq (fits : c.Fits sb) {i : ℕ} (low : 1 ≤ i) (high : i ≤ c.count) (slot : k ≤ maxfile) :
    (c.image sb).slot i k = UInt32.ofNat (place sb i k) := by
  have live : ((c.image sb).inode i).type ≠ 0 := by
    rw [inode_eq low high]
    exact fits.live i low high
  have direct (k : ℕ) (small : k ≤ ndirect) : (c.image sb).slot i k = UInt32.ofNat (place sb i k) := by
    rw [slot_direct live small, inode_eq low high, Dinode.addr, getElem?_ofFn]
    simp [Nat.lt_succ_of_le small]
  by_cases small : k ≤ ndirect
  · exact direct k small
  · obtain ⟨nonzero, value⟩ := toNat_place fits low high (Nat.le_add_right ndirect nindirect)
    rw [slot_entry (Nat.lt_of_not_le small), direct _ le_rfl, if_pos ⟨slot, nonzero⟩, value]
    unfold maxfile at slot
    have word := word_setWords (replicate bsize 0) 0 (k - (ndirect + 1))
      ((List.range nindirect).map fun j => UInt32.ofNat (place sb i (ndirect + 1 + j))) (by simp [bsize, nindirect])
    rw [if_pos (by simp only [List.length_map, List.length_range]; omega), Nat.sub_zero, List.getElem?_map,
      List.getElem?_range (by omega), Option.map_some, Option.getD_some, Nat.add_sub_cancel' (by omega)] at word
    rw [show (c.image sb).block _ = c.block sb _ from rfl,
      block_place low high (Nat.le_add_right ndirect nindirect), if_pos rfl]
    exact word

theorem held_iff (fits : c.Fits sb) {x : ℕ × ℕ} {b : ℕ} :
    (c.image sb).held x = some b ↔ 1 ≤ x.1 ∧ x.1 ≤ c.count ∧ x.2 ≤ maxfile ∧ b = place sb x.1 x.2 := by
  rw [held_eq_some]
  by_cases inside : 1 ≤ x.1 ∧ x.1 ≤ c.count
  · by_cases slot : x.2 ≤ maxfile
    · obtain ⟨nonzero, value⟩ := toNat_place fits inside.1 inside.2 slot
      rw [slot_eq fits inside.1 inside.2 slot, value]
      exact ⟨fun h => ⟨inside.1, inside.2, slot, h.2.symm⟩, fun h => ⟨nonzero, h.2.2.2.symm⟩⟩
    · exact ⟨fun h => absurd (slot_of_maxfile_lt (Nat.lt_of_not_le slot)) h.1, fun h => absurd h.2.2.1 slot⟩
  · refine ⟨fun h => absurd (slot_of_free ?_ _) h.1, fun h => absurd ⟨h.1, h.2.1⟩ inside⟩
    rw [inode_of_not inside]
    rfl

theorem Fits.sound (fits : c.Fits sb) : Sound sb (c.image sb) := by
  refine ⟨⟨fun b => ?_, fun x y b left right => ?_⟩, fun b low => decide_eq_true (by omega)⟩
  · have bound := fits.blocks
    have marked : (c.image sb).bit b = true ↔ b < sb.datastart + span * c.count := decide_eq_true_iff
    rw [marked, exists_congr fun x => held_iff fits]
    constructor
    · rintro ⟨low, -, used⟩
      have division := Nat.div_add_mod (b - sb.datastart) span
      have rest : (b - sb.datastart) % span < span := Nat.mod_lt _ (by decide)
      have quotient : (b - sb.datastart) / span < c.count := Nat.div_lt_of_lt_mul (by omega)
      refine ⟨((b - sb.datastart) / span + 1, (b - sb.datastart) % span), Nat.le_add_left .., quotient,
        Nat.le_of_lt_succ rest, ?_⟩
      simp only [place, Nat.add_sub_cancel]
      omega
    · rintro ⟨⟨i, k⟩, low, high, slot, rfl⟩
      have below : place sb i k < _ := place_lt low high slot
      exact ⟨by rw [place]; omega, Nat.lt_of_lt_of_le below bound, below⟩
  · obtain ⟨lowx, -, slotx, rfl⟩ := (held_iff fits).mp left
    obtain ⟨lowy, -, sloty, same⟩ := (held_iff fits).mp right
    obtain ⟨first, second⟩ := place_inj lowx lowy slotx sloty same
    exact Prod.ext first second

theorem byte_eq (fits : c.Fits sb) {i o : ℕ} (low : 1 ≤ i) (high : i ≤ c.count) (inside : o < maxfile * bsize) :
    (c.image sb).byte i o = c.byte i o := by
  have bn : o / bsize < maxfile := Nat.div_lt_of_lt_mul (by rwa [Nat.mul_comm])
  have slot : dataSlot (o / bsize) ≤ maxfile := by
    unfold dataSlot
    split <;> omega
  rw [byte_of_held ((held_iff fits).mpr ⟨low, high, slot, rfl⟩)]
  have data : c.block sb _ = _ := block_place low high slot
  rw [if_neg (dataSlot_ne_ndirect _)] at data
  have index :
      (if dataSlot (o / bsize) < ndirect then dataSlot (o / bsize) else dataSlot (o / bsize) - 1) = o / bsize := by
    unfold dataSlot
    split
    · rfl
    · next large => rw [if_neg (by omega), Nat.add_sub_cancel]
  rw [index] at data
  rw [show (c.image sb).block _ = c.block sb _ from rfl, data]
  refine (getElem_ofFn ..).trans ?_
  rw [Nat.div_add_mod]

theorem Fits.consistent (fits : c.Fits sb)
    (sizes : ∀ i, 1 ≤ i → i ≤ c.count → (c.fields i).size.toNat ≤ maxfile * bsize) : Consistent sb (c.image sb) := by
  refine ⟨fits.sound, fun i bn live below => ?_⟩
  by_cases inside : 1 ≤ i ∧ i ≤ c.count
  · rw [inode_eq inside.1 inside.2] at below
    have size := sizes i inside.1 inside.2
    have small : bn < maxfile := by
      refine Nat.lt_of_mul_lt_mul_right (a := bsize) (Nat.lt_of_lt_of_le below size)
    have slot : dataSlot bn ≤ maxfile := by
      unfold dataSlot
      split <;> omega
    rw [slot_eq fits inside.1 inside.2 slot]
    exact (toNat_place fits inside.1 inside.2 slot).1
  · rw [inode_of_not inside] at live
    exact absurd rfl live

variable {i j : ℕ} {e : ℕ → Dirent}

/-- The bytes of a directory, by its entries. -/
def ofEntries (e : ℕ → Dirent) (o : ℕ) : UInt8 := ((e (o / direntSize)).encode[o % direntSize]?).getD 0

theorem entry_eq (fits : c.Fits sb) (low : 1 ≤ i) (high : i ≤ c.count)
    (size : (c.fields i).size.toNat ≤ maxfile * bsize) (bytes : c.byte i = ofEntries e)
    (length : ∀ j, (e j).name.length = dirsiz) (inside : j < (c.image sb).entries i) :
    (c.image sb).entry i j = e j := by
  refine Image.entry_of_bytes inside (length j) fun o above below => ?_
  have quotient : o / direntSize = j := by
    rw [Op.width] at above below ⊢
    omega
  have rest : o % direntSize = o - direntSize * j := by
    rw [Op.width] at above below ⊢
    omega
  have within : o < maxfile * bsize := by
    rw [Image.entries, inode_eq low high, Op.width] at inside
    rw [Op.width] at below
    dsimp only at inside
    omega
  rw [byte_eq fits low high within, bytes, ofEntries, quotient, rest]

end Contents

end Full

section Single

/-! One inode on a disk with room for all its blocks, and some more. -/

def roomy : Superblock := ⟨300, 298, 2, 0, 1, Op.tiny.inodes_end, by decide, by decide⟩

def single (din : Dinode) (byte : ℕ → UInt8) : Contents := ⟨1, fun _ => din, fun _ => byte⟩

/-- The inode as `ilock` reads it. -/
def singleInode (din : Dinode) (byte : ℕ → UInt8) : Inode := { ((single din byte).image roomy).inode 1 with inum := 1 }

variable {din : Dinode} {byte : ℕ → UInt8}

section

variable (live : din.type ≠ 0)
include live

theorem fits_single : (single din byte).Fits roomy :=
  ⟨(by decide : 1 < roomy.ninodes), (by decide : roomy.datastart + Contents.span * 1 ≤ roomy.size), fun _ _ _ => live⟩

theorem exists_single : ∃ s : Store, roomy.image s.disk = (single din byte).image roomy := by
  obtain ⟨disk, shown⟩ := (fits_single live).superblock.exists_disk
  exact ⟨⟨disk, []⟩, shown⟩

theorem loaded_single (small : din.size.toNat ≤ maxfile * bsize)
    (shown : roomy.image s.disk = (single din byte).image roomy) :
    Consistent roomy (roomy.image s.disk) ∧ Op.Loaded roomy s (singleInode din byte) := by
  refine ⟨?_, (by decide : 1 < roomy.ninodes), ?_, live⟩
  · rw [shown]
    exact (fits_single live).consistent fun _ _ _ => small
  · rw [shown]
    rfl

theorem held_single {bn : ℕ} (shown : roomy.image s.disk = (single din byte).image roomy)
    (small : bn < maxfile) : (roomy.image s.disk).held (1, dataSlot bn) ≠ none := by
  have slot : dataSlot bn ≤ maxfile := by
    unfold dataSlot
    split <;> omega
  rw [shown, (Contents.held_iff (fits_single live)).mpr ⟨le_rfl, le_rfl, slot, rfl⟩]
  exact Option.some_ne_none _

end

/-- A file without bytes. -/
def blankFile : Dinode := { Dinode.zero with type := 2, nlink := 1 }

theorem live_blankFile : blankFile.type ≠ 0 := by decide

def blankInode : Inode := singleInode blankFile fun _ => 0

end Single

end Xv6.Fs
