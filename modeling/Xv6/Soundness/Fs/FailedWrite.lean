import Mathlib.Order.Interval.Finset.Nat
import Xv6.Soundness.Fs.FileContents

/-! # Writes that fail part-way

`either_copyin` may move some bytes into a buffer and then fail. `writei` releases the buffer without
`log_write`, and does not count these bytes. What it returns is then right only if the bytes moved are
those that the block held; a block that has just been allocated is in the log already, and none of its bytes
are in the file.
-/

namespace Xv6.Fs

open Machine Image

namespace Op

variable {sb : Superblock} {s s' : Store} {ip ip' : Inode} {src : ℕ → Option UInt8} {n off tot k : ℕ} {l : List ℕ}

/-- `readi` of a whole file. -/
def Reads (sb : Superblock) (s : Store) (ip : Inode) (contents : List UInt8) : Prop :=
  (readi sb ip (fun _ => true) 0 ip.size).run s = .ok ((ip, contents, (contents.length : ℤ)), s)

theorem reads_iff (consistent : Consistent sb (sb.image s.disk)) (loaded : Loaded sb s ip) {contents : List UInt8} :
    Reads sb s ip contents ↔ contents = (sb.image s.disk).file ip.inum := by
  have inside : ¬ ((0 : UInt32) > ip.size ∨ 0 + ip.size < 0) := by simp
  have all :
      (((sb.image s.disk).file ip.inum).drop (0 : UInt32).toNat).take ip.size.toNat =
      (sb.image s.disk).file ip.inum := by
    rw [UInt32.toNat_zero, List.drop_zero, List.take_of_length_le]
    rw [file_length, loaded.current]
  have spec : Ensures (readi sb ip (fun _ => true) 0 ip.size) s _ fun _ => False := readi_spec consistent loaded
  obtain ⟨⟨ip', bytes, got⟩, s', ran, same, kept, exact⟩ := spec.exists_run
  obtain ⟨count, whole⟩ := exact fun _ _ => rfl
  simp only at kept count whole
  rw [if_neg inside, all] at whole
  subst same kept count whole
  rw [Reads, ran]
  constructor
  · intro same
    injection same with same
    exact (congrArg (fun r => r.1.2.1) same).symm
  · rintro rfl
    rfl

/-- The write has done what its result says: `tot` bytes of the file are replaced, and no block has changed that is not
in the log. -/
structure Reported (sb : Superblock) (s : Store) (ip : Inode) (src : ℕ → Option UInt8) (off tot : ℕ) (s' : Store)
    (ip' : Inode) : Prop where
  replaced : ∃ old bytes, Reads sb s ip old ∧ (List.range tot).map src = bytes.map some ∧
    Reads sb s' ip' (old.take off ++ (bytes ++ old.drop (off + tot)))
  unlogged : ∀ b ∉ s'.logged.drop s.logged.length, s'.disk b = s.disk b

/-- How many blocks of a range a file lacks. -/
def lacking (im : Image) (inum lo hi : ℕ) : ℕ := {bn ∈ Finset.Ico lo hi | im.held (inum, dataSlot bn) = none}.card

def freeBlocks (sb : Superblock) (im : Image) : ℕ := {b ∈ Finset.range sb.size | im.bit b = false}.card

/-- Let `f` be the first byte that cannot be read. If the file has the block of `f`, and there are blocks for what it
lacks before, then the bytes that the source has for this block are those that the block holds already. -/
def Intact (sb : Superblock) (im : Image) (inum : ℕ) (src : ℕ → Option UInt8) (n off : ℕ) : Prop :=
  ∀ f < n, src f = none → (∀ j < f, (src j).isSome) → im.held (inum, dataSlot ((off + f) / bsize)) ≠ none →
    lacking im inum (off / bsize) ((off + f) / bsize) ≤ freeBlocks sb im →
    ∀ t < f, (off + t) / bsize = (off + f) / bsize → src t = some (im.byte inum (off + t))

section Room

variable {im im' : Image} {inum lo hi : ℕ} (before : Sound sb im) (after : Sound sb im')
  (kept : ∀ x b, im.held x = some b → im'.held x = some b)
include before after kept

/-- The blocks that were missing and are there now were free. -/
theorem lacking_le_freeBlocks (mapped : ∀ bn, lo ≤ bn → bn < hi → im'.held (inum, dataSlot bn) ≠ none) :
    lacking im inum lo hi ≤ freeBlocks sb im := by
  have found (bn : ℕ) (member : bn ∈ {bn ∈ Finset.Ico lo hi | im.held (inum, dataSlot bn) = none}) :
      im.held (inum, dataSlot bn) = none ∧ ∃ b, im'.held (inum, dataSlot bn) = some b := by
    obtain ⟨range, absent⟩ := Finset.mem_filter.mp member
    obtain ⟨low, high⟩ := Finset.mem_Ico.mp range
    exact ⟨absent, Option.ne_none_iff_exists'.mp (mapped bn low high)⟩
  refine Finset.card_le_card_of_injOn (fun bn => (im'.held (inum, dataSlot bn)).getD 0) (fun bn member => ?_) ?_
  · obtain ⟨absent, b, present⟩ := found bn member
    obtain ⟨low, high, -⟩ := (after.owned.used_iff b).mpr ⟨_, present⟩
    dsimp only
    rw [present, Option.getD_some]
    refine Finset.mem_coe.mpr (Finset.mem_filter.mpr ⟨Finset.mem_range.mpr high,
      Bool.eq_false_of_not_eq_true fun used => ?_⟩)
    obtain ⟨x, held⟩ := (before.owned.used_iff b).mp ⟨low, high, used⟩
    rw [after.owned.unique _ _ b (kept x b held) present, absent] at held
    cases held
  · intro bn first bn' second same
    obtain ⟨-, b, present⟩ := found bn first
    obtain ⟨-, b', present'⟩ := found bn' second
    dsimp only at same
    rw [present, present', Option.getD_some, Option.getD_some] at same
    exact dataSlot_inj (congrArg Prod.snd (after.owned.unique _ _ b present (same ▸ present')))

/-- Where no block is free any more, those that were free are at slots that were empty. -/
theorem freeBlocks_le_lacking (full : ∀ b < sb.size, im'.bit b = true)
    (new : ∀ x, im'.held x ≠ im.held x → ∃ bn, lo ≤ bn ∧ bn < hi ∧ x = (inum, dataSlot bn)) :
    freeBlocks sb im ≤ lacking im inum lo hi := by
  refine (Finset.card_le_card fun b member => ?_).trans
    (Finset.card_image_le (f := fun bn => (im'.held (inum, dataSlot bn)).getD 0))
  obtain ⟨range, free⟩ := Finset.mem_filter.mp member
  have inside := Finset.mem_range.mp range
  obtain ⟨x, present⟩ := (after.owned.used_iff b).mp ⟨before.datastart_le_of_free free, inside, full b inside⟩
  have unheld (y : ℕ × ℕ) : im.held y ≠ some b := fun held => before.held_ne_free free held rfl
  obtain ⟨bn, low, high, rfl⟩ := new x fun same => unheld x (same ▸ present)
  refine Finset.mem_image.mpr ⟨bn, Finset.mem_filter.mpr ⟨Finset.mem_Ico.mpr ⟨low, high⟩, ?_⟩, by rw [present]; rfl⟩
  refine Option.eq_none_iff_forall_ne_some.mpr fun a held => ?_
  rw [kept _ a held] at present
  cases present
  exact unheld _ held

end Room

/-- The copy that failed has changed no byte of the file. -/
def Untorn (im : Image) (inum : ℕ) (src : ℕ → Option UInt8) (off tot k : ℕ) : Prop :=
  ∀ t, tot ≤ t → t < tot + k → im.held (inum, dataSlot ((off + t) / bsize)) ≠ none →
    src t = some (im.byte inum (off + t))

section Leaves

variable {inum : ℕ} (leaves : Leaves sb src n off s inum s' tot k l)
include leaves

/-- The bytes moved by the copy that failed, and the byte that could not be, are in one block. -/
theorem Leaves.same_block {t : ℕ} (low : tot ≤ t) (high : t ≤ tot + k) : (off + t) / bsize = (off + tot) / bsize :=
  (div_mod_of_round (m := k + 1) leaves.fits (by omega) (by omega)).1

variable (consistent : Consistent sb (sb.image s.disk))
include consistent

/-- A block that the file had is met unless the blocks before it use up the free ones. -/
theorem Leaves.lacks_room {f : ℕ} (after : Sound sb (sb.image s'.disk)) (late : tot ≤ f)
    (absent : (sb.image s'.disk).held (inum, dataSlot ((off + tot) / bsize)) = none)
    (full : ∀ b < sb.size, (sb.image s'.disk).bit b = true)
    (held : (sb.image s.disk).held (inum, dataSlot ((off + f) / bsize)) ≠ none) :
    freeBlocks sb (sb.image s.disk) < lacking (sb.image s.disk) inum (off / bsize) ((off + f) / bsize) := by
  obtain ⟨b, present⟩ := Option.ne_none_iff_exists'.mp held
  have order : (off + tot) / bsize < (off + f) / bsize := by
    refine lt_of_le_of_ne (Nat.div_le_div_right (by omega)) fun same => ?_
    rw [same, leaves.held _ b present] at absent
    cases absent
  have missing : (sb.image s.disk).held (inum, dataSlot ((off + tot) / bsize)) = none :=
    Option.eq_none_iff_forall_ne_some.mpr fun a there => by rw [leaves.held _ a there] at absent; cases absent
  have first :
      freeBlocks sb (sb.image s.disk) ≤ lacking (sb.image s.disk) inum (off / bsize) ((off + tot) / bsize) := by
    refine freeBlocks_le_lacking consistent.toSound after leaves.held full fun x changed => ?_
    rcases leaves.slots x changed with ⟨rfl, high⟩ | ⟨o, low, high, rfl⟩
    · -- the indirect block was there, since an entry of it is
      obtain ⟨a, indirect⟩ : ∃ a, (sb.image s.disk).held (inum, ndirect) = some a := by
        refine Option.ne_none_iff_exists'.mp fun none => held (held_eq_none.mpr ?_)
        have slot : dataSlot ((off + f) / bsize) = (off + f) / bsize + 1 := if_neg (by omega)
        rw [slot, slot_entry (by omega), if_neg (by simp [held_eq_none.mp none])]
      exact (changed ((leaves.held _ a indirect).trans indirect.symm)).elim
    · refine ⟨o / bsize, Nat.div_le_div_right low, lt_of_le_of_ne (Nat.div_le_div_right high) fun same => ?_, rfl⟩
      rw [same, absent, missing] at changed
      exact changed rfl
  refine first.trans_lt (Finset.card_lt_card ⟨?_, fun all => ?_⟩)
  · exact Finset.filter_subset_filter _ (Finset.Ico_subset_Ico_right order.le)
  · have again := all (Finset.mem_filter.mpr ⟨Finset.mem_Ico.mpr ⟨Nat.div_le_div_right (by omega), order⟩, missing⟩)
    exact (Finset.mem_Ico.mp (Finset.mem_filter.mp again).1).2.false

/-- What the copy that failed has done can be told from the file and the source. -/
theorem Leaves.untorn_iff (after : Sound sb (sb.image s'.disk)) :
    Untorn (sb.image s.disk) inum src off tot k ↔ Intact sb (sb.image s.disk) inum src n off := by
  have within := leaves.within
  constructor
  · intro untorn f inside none early held room t before block
    have late : tot + k ≤ f := by
      by_contra readable
      have := leaves.readable f (by omega)
      rw [none] at this
      cases this
    rcases leaves.ended with done | ⟨-, stopped⟩ | ⟨-, absent, full⟩
    · omega
    · obtain rfl : f = tot + k := by
        by_contra other
        have := early (tot + k) (by omega)
        rw [stopped] at this
        cases this
      have same := leaves.same_block (Nat.le_add_right tot k) le_rfl
      have low : tot ≤ t := by
        have := leaves.boundary
        simp only [bsize] at this same block
        omega
      exact untorn t low before (by rwa [block])
    · exact absurd room (Nat.not_le.mpr (leaves.lacks_room consistent after (by omega) absent full held))
  · intro intact t low high held
    obtain ⟨inside, stopped⟩ : tot + k < n ∧ src (tot + k) = none := by
      rcases leaves.ended with done | stopped | ⟨zero, -⟩
      · omega
      · exact stopped
      · omega
    have same := leaves.same_block (Nat.le_add_right tot k) le_rfl
    have block := (leaves.same_block low high.le).trans same.symm
    refine intact (tot + k) inside stopped leaves.readable (block ▸ held) ?_ t high block
    rw [same]
    refine lacking_le_freeBlocks consistent.toSound after leaves.held fun bn first last => ?_
    have covered := leaves.covers (max off (bn * bsize)) (le_max_left ..) (by simp only [bsize] at *; omega)
    rwa [show max off (bn * bsize) / bsize = bn by simp only [bsize] at *; omega] at covered

theorem Leaves.unlogged {b : ℕ} (untorn : Untorn (sb.image s.disk) inum src off tot k) (absent : b ∉ l) :
    s'.disk b = s.disk b := by
  rcases leaves.same b absent with same | ⟨held, torn⟩
  · exact same
  rw [torn]
  refine Vector.ext fun i small => ?_
  change (Vector.splice _ _ _ _).get ⟨i, small⟩ = (s.disk b).get ⟨i, small⟩
  rw [Vector.get_splice]
  split
  · next range =>
    dsimp only at range ⊢
    obtain ⟨j, rfl⟩ : ∃ j, i = (off + tot) % bsize + j := ⟨i - (off + tot) % bsize, by omega⟩
    obtain ⟨quotient, remainder⟩ := div_mod_of_round (o := off + tot + j) leaves.fits.le (by omega) (by omega)
    have slot : (sb.image s.disk).held (inum, dataSlot ((off + (tot + j)) / bsize)) = some b := by
      rw [← Nat.add_assoc, quotient, held]
    have byte := untorn (tot + j) (Nat.le_add_right tot j) (by omega) (by rw [slot]; exact Option.some_ne_none b)
    rw [byte_of_held slot, ← disk_eq_block (consistent.toSound.in_data held).1] at byte
    rw [Nat.add_sub_cancel_left, byte]
    change (s.disk b).get _ = _
    congr 2
    rw [← Nat.add_assoc, remainder]
    omega
  · rfl

omit consistent in
/-- The block in which the write has stopped is not in the log if the file had it before. -/
theorem Leaves.not_noted {b : ℕ} (more : tot < n)
    (held : (sb.image s.disk).held (inum, dataSlot ((off + tot) / bsize)) = some b) : b ∉ l := by
  intro listed
  obtain ⟨o, low, high, same⟩ := leaves.noted b listed _ held
  have := leaves.boundary
  simp only [bsize] at same this
  omega

theorem Leaves.untorn (unlogged : ∀ b ∉ l, s'.disk b = s.disk b) : Untorn (sb.image s.disk) inum src off tot k := by
  intro t low high mapped
  have within := leaves.within
  obtain ⟨b, held⟩ := Option.ne_none_iff_exists'.mp mapped
  obtain ⟨value, source⟩ := Option.isSome_iff_exists.mp (leaves.readable t high)
  have data := (consistent.toSound.in_data held).1
  have block := leaves.same_block low high.le
  have now := leaves.bytes (off + t)
  rw [if_pos (by omega), Nat.add_sub_cancel_left, source, Option.getD_some, byte_of_held (leaves.held _ b held),
    ← disk_eq_block data, unlogged b (leaves.not_noted (by omega) (by rwa [← block])), disk_eq_block data] at now
  rw [source, byte_of_held held, now]

end Leaves

theorem Leaves.replaced (leaves : Leaves sb src n off s ip.inum s' tot k l)
    (written : Written sb src n off s ip s' ip' tot)
    (consistent : Consistent sb (sb.image s.disk)) (loaded : Loaded sb s ip) (start : off ≤ ip.size.toNat)
    (untorn : Untorn (sb.image s.disk) ip.inum src off tot k) :
    (sb.image s'.disk).file ip.inum = ((sb.image s.disk).file ip.inum).take off ++
      ((List.range tot).map (fun i => (src i).getD 0) ++ ((sb.image s.disk).file ip.inum).drop (off + tot)) := by
  have size := written.size_after loaded
  refine file_of_bytes (by rwa [loaded.current]) size fun o inside => ?_
  rw [leaves.bytes]
  by_cases moved : off + tot ≤ o ∧ o < off + tot + k
  · -- the byte is in the file, so its block is one that the file had
    have old : o < ((sb.image s.disk).inode ip.inum).size.toNat := by omega
    have mapped := held_of_lt consistent loaded.stored old
    obtain ⟨t, rfl⟩ : ∃ t, o = off + t := ⟨o - off, by omega⟩
    rw [if_pos (by omega), if_neg (by omega), Nat.add_sub_cancel_left, untorn t (by omega) (by omega) mapped,
      Option.getD_some]
  · by_cases here : off ≤ o ∧ o < off + tot
    · rw [if_pos (by omega), if_pos here]
    · rw [if_neg (by omega), if_neg here]

/-- A write that is accepted has done what its result says exactly if the copy that stops it, if one does, finds the
bytes of its block as they are. -/
theorem write_reported_iff (sb : Superblock) (s : Store) (ip : Inode) (consistent : Consistent sb (sb.image s.disk))
    (loaded : Loaded sb s ip) (src : ℕ → Option UInt8) (off n : UInt32) :
    ∃ ip' r s', (writei sb ip src off n).run s = .ok ((ip', r), s') ∧
      ∀ tot : ℕ, r = tot → (Reported sb s ip src off.toNat tot s' ip' ↔
        Intact sb (sb.image s.disk) ip.inum src n.toNat off.toNat) := by
  obtain ⟨⟨ip', r⟩, s', ran, refused, accepted⟩ := (writei_leaves consistent loaded).exists_run
  refine ⟨ip', r, s', ran, fun tot result => ?_⟩
  have inside : ¬ Refused ip off n := fun outside => by
    have := congrArg Prod.snd (refused outside).2
    simp only at this
    omega
  have start : off.toNat ≤ ip.size.toNat := UInt32.le_iff_toNat_le.mp (UInt32.not_lt.mp fun high => inside (.inl high))
  obtain ⟨tot', k, l, count, written, leaves⟩ := accepted inside
  obtain rfl : tot' = tot := by
    simp only at count
    omega
  have news : s'.logged.drop s.logged.length = l := by rw [leaves.logged, List.drop_left]
  have inum : ip'.inum = ip.inum := written.inum
  rw [← leaves.untorn_iff consistent written.consistent.toSound]
  constructor
  · intro reported
    exact leaves.untorn consistent (news ▸ reported.unlogged)
  · intro untorn
    refine ⟨⟨_, (List.range tot').map fun i => (src i).getD 0, (reads_iff consistent loaded).mpr rfl, ?_,
      (reads_iff written.consistent written.loaded).mpr ?_⟩,
      fun b absent => leaves.unlogged consistent untorn (news ▸ absent)⟩
    · rw [List.map_map]
      refine List.map_congr_left fun i small => ?_
      have readable := leaves.readable i (by have := List.mem_range.mp small; omega)
      obtain ⟨value, source⟩ := Option.isSome_iff_exists.mp readable
      simp [source]
    · rw [inum, leaves.replaced written consistent loaded start untorn]

/-- A file of eight zeros, in block 2. -/
def zeros : Inode := { emptyFile with toDinode := { emptyFile.setAddr 0 2 with size := 8 } }

def zerosFile : Store :=
  have marked := Function.update blank.disk (tiny.bblock 2) ((blank.disk (tiny.bblock 2)).setBit 2)
  ⟨Function.update marked (tiny.iblock 1) (zeros.encode (marked (tiny.iblock 1)) (1 % ipb)), []⟩

theorem image_zerosFile : tiny.image zerosFile.disk =
    (⟨Function.update (tiny.image blank.disk).bit 2 true, (tiny.image blank.disk).inode,
      (tiny.image blank.disk).block⟩ : Image).put 1 zeros.toDinode := by
  refine (tiny.image_inode _ (by decide) zeros.toDinode).trans ?_
  rw [tiny.image_bitmap blank.disk (b := 2) (by decide) _ true fun j small => ?_]
  · rfl
  · have room : 2 < 8 * bsize := by decide
    simp only [Vector.bit_setBit, room, and_true]
    rfl

theorem loaded_zerosFile : Loaded tiny zerosFile zeros :=
  ⟨by decide, by rw [image_zerosFile]; exact put_inode_self, by decide⟩

theorem held_zerosFile : (tiny.image zerosFile.disk).held (1, dataSlot 0) = some 2 := by
  have current : (tiny.image zerosFile.disk).inode 1 = zeros.toDinode := loaded_zerosFile.current
  have slot : (tiny.image zerosFile.disk).slot 1 (dataSlot 0) = 2 := by
    rw [slot_direct (by rw [current]; decide) (by decide), current]
    decide
  rw [held, slot]
  rfl

theorem consistent_zerosFile : Consistent tiny (tiny.image zerosFile.disk) := by
  have free : (tiny.image oneFile.disk).bit 2 = false := by
    rw [image_oneFile]
    decide +kernel
  have current : (tiny.image oneFile.disk).inode 1 = emptyFile.toDinode := loaded_oneFile.current
  have assigned :=
    consistent_oneFile.toSound.assign_addr (i := 1) (k := 0) (b := 2) (by rw [current]; decide) (by decide)
    (by rw [current]; rfl) free (by decide)
  set mapped : Image := ⟨_, _, _⟩
  have inode : mapped.inode 1 = emptyFile.setAddr 0 2 :=
    (Function.update_self (1 : ℕ) (((tiny.image oneFile.disk).inode 1).setAddr 0 2)
      (tiny.image oneFile.disk).inode).trans
      (congrArg (Dinode.setAddr · 0 2) current)
  have image : tiny.image zerosFile.disk = mapped.put 1 zeros.toDinode := by
    rw [image_zerosFile, put, put]
    simp only [mapped, image_oneFile, put, Function.update_idem]
    congr 1
    exact (Function.update_eq_self_iff.mpr (by rfl)).symm
  have slot : ∀ i k, (mapped.put 1 zeros.toDinode).slot i k = mapped.slot i k :=
    slot_put_kept (by rw [inode]; rfl) (by rw [inode]; rfl)
  refine ⟨(assigned.sound consistent_oneFile.toSound).congr (fun i k => by rw [image, slot]) (by rw [image]; rfl),
    fun i bn live below => ?_⟩
  by_cases here : i = 1
  · subst here
    rw [show (tiny.image zerosFile.disk).inode 1 = zeros.toDinode from loaded_zerosFile.current,
      show zeros.size.toNat = 8 from rfl] at below
    obtain rfl : bn = 0 := by
      simp only [bsize] at below
      omega
    have present := slot_ne_zero_of_held held_zerosFile
    exact present
  · rw [image_zerosFile, put_inode_of_ne here] at live
    exact (live (free_blank i)).elim

/-- The last four bytes of a page, and a page that cannot be read. -/
def halfSource (value : UInt8) (i : ℕ) : Option UInt8 := if (4092 + i) / 4096 = 0 then some value else none

theorem halfSource_eq_none {value : UInt8} {i : ℕ} : halfSource value i = none ↔ 4 ≤ i := by
  unfold halfSource
  split
  · simp only [reduceCtorEq, false_iff]
    omega
  · simp only [true_iff]
    omega

theorem byte_zerosFile {o : ℕ} (small : o < bsize) : (tiny.image zerosFile.disk).byte 1 o = 0 := by
  rw [byte_of_held (b := 2) (by rw [Nat.div_eq_of_lt small]; exact held_zerosFile), image_zerosFile]
  exact Vector.getElem_replicate ..

/-- Eight bytes are to be written, and the four that can be read are those of the file. -/
theorem write_reported_iff_zerosFile :
    ∃ ip' r s', (writei tiny zeros (halfSource 0) 0 8).run zerosFile = .ok ((ip', r), s') ∧
    ∀ tot : ℕ, r = tot → Reported tiny zerosFile zeros (halfSource 0) 0 tot s' ip' := by
  obtain ⟨ip', r, s', ran, reported⟩ :=
    write_reported_iff tiny zerosFile zeros consistent_zerosFile loaded_zerosFile (halfSource 0) 0 8
  refine ⟨ip', r, s', ran, fun tot result => (reported tot result).mpr fun f _ _ early _ _ t before _ => ?_⟩
  have small : t < 4 := by
    by_contra high
    have := early t before
    rw [halfSource_eq_none.mpr (Nat.not_lt.mp high)] at this
    cases this
  rw [halfSource, if_pos (by omega), UInt32.toNat_zero, Nat.zero_add]
  exact congrArg some (byte_zerosFile (small.trans (by decide))).symm

/-- Eight bytes are to be written, four of which can be read. `writei` returns 0, and the file has changed in a block
that is not in the log. -/
theorem write_unreported : ∃ ip' s', (writei tiny zeros (halfSource 9) 0 8).run zerosFile = .ok ((ip', 0), s') ∧
    Reads tiny zerosFile zeros [0, 0, 0, 0, 0, 0, 0, 0] ∧ Reads tiny s' ip' [9, 9, 9, 9, 0, 0, 0, 0] ∧
    2 ∉ s'.logged ∧ s'.disk 2 ≠ zerosFile.disk 2 := by
  have inside : ¬ Refused zeros 0 8 := by unfold Refused; decide
  have spec : Ensures (writei tiny zeros (halfSource 9) 0 8) zerosFile _ fun _ => False :=
    writei_leaves consistent_zerosFile loaded_zerosFile
  obtain ⟨⟨ip', r⟩, s', ran, -, accepted⟩ := spec.exists_run
  obtain ⟨tot, k, l, result, written, leaves⟩ := accepted inside
  simp only [UInt32.toNat_zero, show (8 : UInt32).toNat = 8 from rfl] at result written leaves
  obtain ⟨rfl, rfl⟩ : tot = 0 ∧ k = 4 := by
    have within := leaves.within
    have most : tot + k ≤ 4 := by
      by_contra more
      have := leaves.readable 4 (by omega)
      rw [halfSource_eq_none.mpr le_rfl] at this
      cases this
    have first : tot = 0 := by
      have := leaves.boundary
      simp only [bsize] at this
      omega
    subst first
    rcases leaves.ended with done | ⟨-, stopped⟩ | ⟨-, absent, -⟩
    · cases done
    · have := halfSource_eq_none.mp stopped
      omega
    · rw [show (tiny.image s'.disk).held (zeros.inum, dataSlot ((0 + 0) / bsize)) = some 2 from
        leaves.held _ 2 held_zerosFile] at absent
      cases absent
  subst result
  have before : (tiny.image zerosFile.disk).file 1 = (List.range 8).map fun _ => 0 := by
    have size : ((tiny.image zerosFile.disk).inode 1).size.toNat = 8 := by
      rw [show (tiny.image zerosFile.disk).inode 1 = zeros.toDinode from loaded_zerosFile.current]
      rfl
    rw [file, size]
    refine List.map_congr_left fun o small => byte_zerosFile ?_
    have := List.mem_range.mp small
    simp only [bsize]
    omega
  have after : (tiny.image s'.disk).file 1 = (List.range 8).map fun o => if o < 4 then 9 else 0 := by
    have size : ((tiny.image s'.disk).inode 1).size.toNat = 8 := (written.size_after loaded_zerosFile).trans (by
      rw [loaded_zerosFile.current]
      rfl)
    rw [file, size]
    refine List.map_congr_left fun o small => ?_
    have small := List.mem_range.mp small
    refine (leaves.bytes o).trans ?_
    by_cases early : o < 4
    · rw [if_pos (by omega), if_pos early, halfSource, if_pos (by omega)]
      rfl
    · rw [if_neg (by omega), if_neg early]
      exact byte_zerosFile (by simp only [bsize]; omega)
  have absent : 2 ∉ l := leaves.not_noted (by decide) held_zerosFile
  refine ⟨ip', s', ran, (reads_iff consistent_zerosFile loaded_zerosFile).mpr before.symm,
    (reads_iff written.consistent written.loaded).mpr ?_, ?_, fun same => ?_⟩
  · rw [written.inum]
    exact after.symm
  · rw [leaves.logged]
    exact absent
  · have data : tiny.datastart ≤ 2 := by decide
    have now : (tiny.image s'.disk).byte 1 0 = 9 := leaves.bytes 0
    have old : (tiny.image zerosFile.disk).byte 1 0 = 0 := byte_zerosFile (by decide)
    have held : (tiny.image zerosFile.disk).held (1, dataSlot (0 / bsize)) = some 2 := held_zerosFile
    rw [byte_of_held (leaves.held _ 2 held), ← disk_eq_block data, same, disk_eq_block data,
      ← byte_of_held held, old] at now
    exact absurd now (by decide)

end Op

end Xv6.Fs
