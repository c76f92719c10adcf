import Xv6.Machine.Ensures
import Xv6.Model.Fs.Inode
import Xv6.Proofs.Fs.Image
import Xv6.ToMathlib.ListRows

/-! # Specifications of the inode functions

One specification for each function, over images. While an inode is being worked on its block is out of
date; the view of a state is its image with the in-memory inode in place. `Grows` is what every function
that maps blocks does to a view.
-/

namespace Xv6.Fs

open Machine Image Function List

namespace Op

variable {sb : Superblock} {s s' s'' : Store} {ip ip' ip'' : Inode}

/-- The image with the in-memory inode in place. -/
def view (sb : Superblock) (s : Store) (ip : Inode) : Image := (sb.image s.disk).put ip.inum ip.toDinode

/-- An inode that `ilock` has read. -/
structure Loaded (sb : Superblock) (s : Store) (ip : Inode) : Prop where
  known : ip.inum < sb.ninodes
  current : (sb.image s.disk).inode ip.inum = ip.toDinode
  live : ip.type ≠ 0

theorem Loaded.stored (loaded : Loaded sb s ip) : ((sb.image s.disk).inode ip.inum).type ≠ 0 := by
  rw [loaded.current]
  exact loaded.live

theorem Loaded.view_eq (loaded : Loaded sb s ip) : view sb s ip = sb.image s.disk := by
  rw [view, ← loaded.current, put_self]

section Primitives

variable {α : Type} {final : α → Store → Prop} {fails : Fault → Prop} {b : ℕ} {data : Block}

theorem bread_bind {f : Block → Op α} (rest : Ensures (f (s.disk b)) s final fails) :
    Ensures (bread b >>= f) s final fails := rest

theorem scribble_bind {f : Unit → Op α} (rest : Ensures (f ()) { s with disk := update s.disk b data } final fails) :
    Ensures (scribble b data >>= f) s final fails := rest

theorem logWrite_bind {f : Unit → Op α} (rest : Ensures (f ()) ⟨update s.disk b data, s.logged ++ [b]⟩ final fails) :
    Ensures (logWrite b data >>= f) s final fails := rest

theorem logWrite_spec {post : Unit → Store → Prop}
    (done : post () ⟨update s.disk b data, s.logged ++ [b]⟩) : Ensures (logWrite b data) s post fails := done

end Primitives

theorem disk_eq_block {b : ℕ} (inside : sb.datastart ≤ b) : s.disk b = (sb.image s.disk).block b := (if_pos inside).symm

section Bitmap

variable {disk : ℕ → Block} {b k : ℕ}

theorem bit_eq (inside : b < sb.size) : (sb.image disk).bit b = (disk (sb.bblock b)).bit (b % bpb) := by
  simp [Superblock.image, inside]

theorem lt_rows {size : ℕ} : k < (size + bpb - 1) / bpb ↔ k * bpb < size := by
  have positive : 0 < bpb := by decide
  rw [Nat.lt_div_iff_mul_lt positive]
  omega

theorem findFree_eq_find : findFree sb disk = (range sb.size).find? fun b => !(sb.image disk).bit b := by
  unfold findFree freeIn
  simp only [Superblock.bblock, Nat.mul_div_cancel _ (show 0 < bpb by decide)]
  rw [find?_rows (not_lt.mp (lt_rows.not.mp (lt_irrefl _))) fun k bi => !(disk (k + sb.bmapstart)).bit bi]
  refine find?_congr fun b mem => ?_
  rw [bit_eq (mem_range.mp mem)]
  rfl

theorem findFree_eq_none (none : findFree sb disk = none) : ∀ b < sb.size, (sb.image disk).bit b = true := by
  simpa [findFree_eq_find] using none

theorem findFree_eq_some (found : findFree sb disk = some b) : b < sb.size ∧ (sb.image disk).bit b = false := by
  rw [findFree_eq_find, find?_range_eq_some] at found
  exact ⟨mem_range.mp found.2.1, by simpa using found.1⟩

end Bitmap

theorem balloc_spec (reserved : ∀ b < sb.datastart, (sb.image s.disk).bit b = true) :
    Ensures (balloc sb) s (fun a s' =>
      (a = 0 ∧ s' = s ∧ ∀ b < sb.size, (sb.image s.disk).bit b = true) ∨
      ∃ b, a = UInt32.ofNat b ∧ b < sb.size ∧ (sb.image s.disk).bit b = false ∧
        s'.logged = s.logged ++ [sb.bblock b, b] ∧ (∀ c ∉ [sb.bblock b, b], s'.disk c = s.disk c) ∧ sb.image s'.disk =
        { sb.image s.disk with
          bit := update (sb.image s.disk).bit b true
          block := update (sb.image s.disk).block b (Vector.replicate _ 0) }) fun _ => False := by
  unfold balloc
  refine .get_bind ?_
  cases found : findFree sb s.disk with
  | none => exact .pure (.inl ⟨rfl, rfl, findFree_eq_none found⟩)
  | some b =>
    obtain ⟨inside, free⟩ := findFree_eq_some found
    have low : sb.datastart ≤ b := by
      by_contra high
      rw [reserved b (by omega)] at free
      cases free
    refine bread_bind (logWrite_bind (logWrite_bind (.pure (.inr ⟨b, rfl, inside, free, ?_, fun c other => ?_, ?_⟩))))
    · exact append_assoc ..
    · obtain ⟨bitmap, block⟩ : c ≠ sb.bblock b ∧ c ≠ b := by simpa using other
      exact (update_of_ne block ..).trans (update_of_ne bitmap ..)
    rw [sb.image_data _ low, sb.image_bitmap _ inside _ true fun j small => ?_]
    have room : b % bpb < 8 * bsize := Nat.mod_lt _ (by decide)
    simp only [Vector.bit_setBit, room, and_true]

theorem bfree_spec {b : ℕ} (inside : b < sb.size) (used : (sb.image s.disk).bit b = true) :
    Ensures (bfree sb b) s (fun _ s' => sb.image s'.disk =
      { sb.image s.disk with bit := update (sb.image s.disk).bit b false }) fun _ => False := by
  unfold bfree
  refine bread_bind ?_
  rw [bit_eq inside] at used
  rw [if_pos used]
  refine logWrite_spec ?_
  rw [sb.image_bitmap _ inside _ false fun j _ => Vector.bit_clearBit ..]

theorem iupdate_noted (ip : Inode) (known : ip.inum < sb.ninodes) :
    Ensures (iupdate sb ip) s (fun _ s' => sb.image s'.disk = view sb s ip ∧ s'.logged = s.logged ++
      [sb.iblock ip.inum] ∧ ∀ c ≠ sb.iblock ip.inum, s'.disk c = s.disk c) fun _ => False := by
  unfold iupdate
  refine bread_bind (logWrite_spec ⟨?_, rfl, fun c other => update_of_ne other ..⟩)
  rw [sb.image_inode _ known]
  rfl

theorem iupdate_spec (ip : Inode) (known : ip.inum < sb.ninodes) :
    Ensures (iupdate sb ip) s (fun _ s' => sb.image s'.disk = view sb s ip) fun _ => False :=
  (iupdate_noted ip known).mono fun _ _ done => done.1

section Map

/-- Blocks are added to an in-memory inode. The inodes on the disk, and what is mapped, stay. -/
structure Grows (sb : Superblock) (s : Store) (ip : Inode) (s' : Store) (ip' : Inode) : Prop where
  kept : ip' = { ip with addrs := ip'.addrs }
  inodes : (sb.image s'.disk).inode = (sb.image s.disk).inode
  sound : Sound sb (view sb s' ip')
  held : ∀ x b, (view sb s ip).held x = some b → (view sb s' ip').held x = some b

theorem Grows.refl (sound : Sound sb (view sb s ip)) : Grows sb s ip s ip := ⟨rfl, rfl, sound, fun _ _ => id⟩

theorem Grows.trans (first : Grows sb s ip s' ip') (second : Grows sb s' ip' s'' ip'') : Grows sb s ip s'' ip'' where
  kept := by
    rw [second.kept, first.kept]
  inodes := second.inodes.trans first.inodes
  sound := second.sound
  held x b present := second.held x b (first.held x b present)

theorem Grows.inum (grows : Grows sb s ip s' ip') : ip'.inum = ip.inum := by rw [grows.kept]
theorem Grows.type (grows : Grows sb s ip s' ip') : ip'.type = ip.type := by rw [grows.kept]
theorem Grows.size (grows : Grows sb s ip s' ip') : ip'.size = ip.size := by rw [grows.kept]

/-- Blocks are added and no byte of any file changes. -/
structure Extends (sb : Superblock) (s : Store) (ip : Inode) (s' : Store) (ip' : Inode) : Prop
    extends Grows sb s ip s' ip' where
  byte : ∀ i o, (view sb s' ip').byte i o = (view sb s ip).byte i o

theorem Extends.refl (sound : Sound sb (view sb s ip)) : Extends sb s ip s ip := ⟨.refl sound, fun _ _ => rfl⟩

theorem Extends.trans (first : Extends sb s ip s' ip') (second : Extends sb s' ip' s'' ip'') :
    Extends sb s ip s'' ip'' :=
  ⟨first.toGrows.trans second.toGrows, fun i o => (second.byte i o).trans (first.byte i o)⟩

/-- Block `bn` of the inode is added, and a block changes only if it is noted in the log. Of the blocks noted, none is
one in which the inode has had bytes. -/
structure Maps (sb : Superblock) (bn : ℕ) (s : Store) (ip : Inode) (s' : Store) (ip' : Inode) (l : List ℕ) : Prop
    extends Extends sb s ip s' ip' where
  logged : s'.logged = s.logged ++ l
  same : ∀ b ∉ l, s'.disk b = s.disk b
  spare : ∀ b ∈ l, ∀ bn, (view sb s ip).held (ip.inum, dataSlot bn) ≠ some b
  fresh : ∀ x b, (view sb s' ip').held x = some b → (view sb s ip).held x = some b ∨ b ∈ l
  slots : ∀ x, (view sb s' ip').held x ≠ (view sb s ip).held x →
    x = (ip.inum, ndirect) ∧ ndirect ≤ bn ∨ x = (ip.inum, dataSlot bn)

variable {l : List ℕ} {b ind j bn : ℕ}

theorem Maps.refl (sound : Sound sb (view sb s ip)) : Maps sb bn s ip s ip [] where
  toExtends := .refl sound
  logged := (append_nil _).symm
  same _ _ := rfl
  spare _ listed := (not_mem_nil listed).elim
  fresh _ _ := .inl
  slots _ changed := (changed rfl).elim

theorem Maps.trans {l' : List ℕ} (first : Maps sb bn s ip s' ip' l) (second : Maps sb bn s' ip' s'' ip'' l') :
    Maps sb bn s ip s'' ip'' (l ++ l') where
  toExtends := first.toExtends.trans second.toExtends
  logged := by rw [second.logged, first.logged, append_assoc]
  same b absent := by
    rw [mem_append, not_or] at absent
    rw [second.same b absent.2, first.same b absent.1]
  spare b listed bn present := by
    rcases mem_append.mp listed with early | late
    · exact first.spare b early bn present
    · refine second.spare b late bn ?_
      rw [first.inum]
      exact first.held _ b present
  fresh x b present := by
    rcases second.fresh x b present with before | late
    · exact (first.fresh x b before).imp_right (mem_append_left _)
    · exact .inr (mem_append_right _ late)
  slots x changed := by
    by_cases early : (view sb s' ip').held x = (view sb s ip).held x
    · exact first.inum ▸ second.slots x (early ▸ changed)
    · exact first.slots x early

theorem maps_of_assigned {x : ℕ × ℕ} (sound : Sound sb (view sb s ip))
    (kept : ip' = { ip with addrs := ip'.addrs }) (inodes : (sb.image s'.disk).inode = (sb.image s.disk).inode)
    (assigned : Assigned sb (view sb s ip) (view sb s' ip') x b) (logged : s'.logged = s.logged ++ l)
    (same : ∀ c ∉ l, s'.disk c = s.disk c)
    (spare : ∀ c ∈ l, ∀ bn, (view sb s ip).held (ip.inum, dataSlot bn) ≠ some c) (listed : b ∈ l)
    (slot : x = (ip.inum, ndirect) ∧ ndirect ≤ bn ∨ x = (ip.inum, dataSlot bn)) : Maps sb bn s ip s' ip' l where
  toExtends := ⟨⟨kept, inodes, assigned.sound sound, fun _ _ => assigned.held_of_some⟩, assigned.byte⟩
  logged := logged
  same := same
  spare := spare
  fresh y c present := by
    rw [assigned.held, update_apply] at present
    by_cases here : y = x
    · rw [if_pos here] at present
      cases present
      exact .inr listed
    · rw [if_neg here] at present
      exact .inl present
  slots y changed := by
    rw [assigned.held, update_apply] at changed
    by_cases here : y = x
    · rwa [here]
    · exact (changed (if_neg here)).elim

theorem spare_of_free (sound : Sound sb (view sb s ip)) (free : (sb.image s.disk).bit b = false)
    (inside : b < sb.size) :
    ∀ c ∈ [sb.bblock b, b], ∀ x, (view sb s ip).held x ≠ some c := by
  intro c listed x present
  have data := (sound.in_data present).1
  have bitmap := sb.bblock_lt inside
  rcases mem_pair.mp listed with rfl | rfl
  · omega
  · exact sound.held_ne_free free present rfl

variable (sound : Sound sb (view sb s ip)) (live : ip.type ≠ 0)
include sound

theorem reserved_of_view (b : ℕ) (low : b < sb.datastart) : (sb.image s.disk).bit b = true := sound.reserved b low

include live

/-- The first half of `bmap`: a slot of the inode is filled, or no block is free. -/
theorem filled_spec {k : ℕ} (direct : k ≤ ndirect) (slot : k = ndirect ∧ ndirect ≤ bn ∨ k = dataSlot bn) :
    Ensures (filled sb (ip.addr k)) s (fun a s' =>
      (a = 0 → s' = s ∧ ip.addr k = 0 ∧ ∀ b < sb.size, (sb.image s.disk).bit b = true) ∧
      (a ≠ 0 → (∃ l, Maps sb bn s ip s' { ip with toDinode := ip.setAddr k a } l) ∧
        (view sb s' { ip with toDinode := ip.setAddr k a }).held (ip.inum, k) = some a.toNat)) fun _ => False := by
  have inode : (view sb s ip).inode ip.inum = ip.toDinode := put_inode_self
  have live' : ((view sb s ip).inode ip.inum).type ≠ 0 := by rwa [inode]
  have current : (view sb s ip).slot ip.inum k = ip.addr k := by rw [slot_direct live' direct, inode]
  refine .ite (fun empty => ?_) fun present => ?_
  · refine (balloc_spec (reserved_of_view sound)).mono ?_
    rintro a s' (⟨rfl, rfl, full⟩ | ⟨b, rfl, inside, free, logged, same, image⟩)
    · exact ⟨fun _ => ⟨rfl, empty, full⟩, fun nonzero => (nonzero rfl).elim⟩
    · obtain ⟨nonzero, value⟩ := ofNat_block (sound.datastart_le_of_free free) inside
      refine ⟨fun zero => (nonzero zero).elim, fun _ => ?_⟩
      have assigned := sound.assign_addr live' direct (by rw [inode]; exact empty) free inside
      have after : view sb s' { ip with toDinode := ip.setAddr k (UInt32.ofNat b) } = _ := congrArg (put · ..) image
      simp only [view, put, update_self, update_idem] at assigned after
      rw [← after] at assigned
      refine ⟨⟨_, maps_of_assigned sound rfl (by rw [image]) assigned logged same (fun c listed _ =>
        spare_of_free sound free inside c listed _) (mem_pair.mpr (.inr rfl)) ?_⟩, ?_⟩
      · rcases slot with ⟨same, high⟩ | same
        · exact .inl ⟨by rw [same], high⟩
        · exact .inr (by rw [same])
      rw [value]
      exact (congrFun assigned.held _).trans (update_self ..)
  · refine .pure ⟨fun zero => (present zero).elim, fun _ => ?_⟩
    rw [Dinode.setAddr_addr]
    exact ⟨⟨[], .refl sound⟩, by rw [← current]; exact held_of_slot_ne (by rwa [current])⟩

omit sound live in
theorem bmapEntry_of_ne (nonzero : (s.disk ind).word j ≠ 0) :
    Ensures (bmapEntry sb ind j) s (fun a s' => s' = s ∧ a = (s.disk ind).word j) fun _ => False :=
  bread_bind (.ite (fun zero => (nonzero zero).elim) fun _ => .pure ⟨rfl, rfl⟩)

omit live in
theorem bmapEntry_spec (present : (view sb s ip).held (ip.inum, ndirect) = some ind) (small : j < nindirect)
    (slot : dataSlot bn = ndirect + 1 + j) :
    Ensures (bmapEntry sb ind j) s (fun a s' => (∃ l, Maps sb bn s ip s' ip l) ∧
      (a = 0 → (view sb s' ip).held (ip.inum, dataSlot bn) = none ∧ ∀ b < sb.size, (sb.image s'.disk).bit b = true) ∧
      (a ≠ 0 → (view sb s' ip).held (ip.inum, dataSlot bn) = some a.toNat)) fun _ => False := by
  rw [slot]
  have read : s.disk ind = (view sb s ip).block ind := disk_eq_block (sound.in_data present).1
  by_cases empty : (s.disk ind).word j = 0
  · refine bread_bind ?_
    rw [if_pos empty]
    refine (balloc_spec (reserved_of_view sound)).bind ?_
    rintro a s' (⟨rfl, rfl, full⟩ | ⟨b, rfl, inside, free, logged, same, image⟩)
    · refine .pure ⟨⟨[], .refl sound⟩, fun _ => ⟨held_eq_none.mpr ?_, full⟩, fun nonzero => (nonzero rfl).elim⟩
      rw [slot_entry_of_held present small, ← read]
      exact empty
    · obtain ⟨nonzero, value⟩ := ofNat_block (sound.datastart_le_of_free free) inside
      rw [if_neg nonzero]
      refine bread_bind (logWrite_bind (.pure ?_))
      have apart : ind ≠ b := sound.held_ne_free free present
      have low := (sound.in_data present).1
      have reread : s'.disk ind = (view sb s ip).block ind := by
        rw [disk_eq_block low, image]
        exact update_of_ne apart ..
      have assigned := sound.assign_entry present small (read ▸ empty) free inside
      set final : Store := ⟨update s'.disk ind _, _⟩
      have written : sb.image final.disk = _ := sb.image_data _ low _
      rw [image, reread] at written
      have after : view sb final ip = ⟨update (view sb s ip).bit b true, (view sb s ip).inode,
          update (update (view sb s ip).block b (Vector.replicate _ 0)) ind
            (((view sb s ip).block ind).setWord j (UInt32.ofNat b))⟩ := by
        rw [view, written]
        rfl
      rw [← after] at assigned
      refine ⟨⟨[sb.bblock b, b] ++ [ind], maps_of_assigned sound rfl (by rw [written]) assigned ?_ (fun c absent => ?_)
        (fun c listed bn held => ?_) (by simp) (.inr (by rw [slot]))⟩, fun zero => (nonzero zero).elim, fun _ => ?_⟩
      · rw [← append_assoc, ← logged]
      · rw [mem_append, mem_singleton, not_or] at absent
        exact (update_of_ne absent.2 ..).trans (same c absent.1)
      · rcases mem_append.mp listed with early | late
        · exact spare_of_free sound free inside c early _ held
        · rw [mem_singleton.mp late] at held
          exact dataSlot_ne_ndirect bn (congrArg Prod.snd (sound.owned.unique _ _ _ held present))
      rw [value]
      exact (congrFun assigned.held _).trans (update_self ..)
  · refine (bmapEntry_of_ne empty).mono ?_
    rintro _ _ ⟨rfl, rfl⟩
    refine ⟨⟨[], .refl sound⟩, fun zero => (empty zero).elim, fun nonzero => ?_⟩
    rw [read, ← slot_entry_of_held present small] at nonzero ⊢
    exact held_of_slot_ne nonzero

theorem bmap_spec (inside : bn < maxfile) :
    Ensures (bmap sb ip bn) s (fun r s' => (∃ l, Maps sb bn s ip s' r.1 l) ∧
      (r.2 = 0 → (view sb s' r.1).held (ip.inum, dataSlot bn) = none ∧ ∀ b < sb.size, (sb.image s'.disk).bit b = true) ∧
      (r.2 ≠ 0 → (view sb s' r.1).held (ip.inum, dataSlot bn) = some r.2.toNat)) fun _ => False := by
  have inode : (view sb s ip).inode ip.inum = ip.toDinode := put_inode_self
  have live' : ((view sb s ip).inode ip.inum).type ≠ 0 := by rwa [inode]
  unfold bmap
  refine .ite (fun direct => ?_) fun indirect => .ite (fun small => ?_) fun beyond => ?_
  · have slot : dataSlot bn = bn := if_pos direct
    refine (filled_spec sound live direct.le (.inr slot.symm)).bind ?_
    rintro a s' ⟨full, found⟩
    rw [slot]
    by_cases zero : a = 0
    · obtain ⟨rfl, empty, bits⟩ := full zero
      rw [if_pos zero]
      refine .pure ⟨⟨[], .refl sound⟩, fun _ => ⟨held_eq_none.mpr ?_, bits⟩, fun nonzero => (nonzero rfl).elim⟩
      rw [slot_direct live' direct.le, inode, empty]
    · rw [if_neg zero]
      exact .pure ⟨(found zero).1, fun h => (zero h).elim, fun _ => (found zero).2⟩
  · have slot : dataSlot bn = ndirect + 1 + (bn - ndirect) := by
      rw [dataSlot, if_neg indirect]
      omega
    refine (filled_spec sound live le_rfl (.inl ⟨rfl, Nat.not_lt.mp indirect⟩)).bind ?_
    rintro ind s' ⟨full, found⟩
    refine .ite (fun zero => ?_) fun nonzero => ?_
    · obtain ⟨rfl, empty, bits⟩ := full zero
      refine .pure ⟨⟨[], .refl sound⟩, fun _ => ⟨held_eq_none.mpr ?_, bits⟩, fun nonzero => (nonzero rfl).elim⟩
      rw [slot, slot_entry (by omega), slot_direct live' le_rfl, inode, empty, if_neg (by simp)]
    · obtain ⟨⟨l, grown⟩, present⟩ := found nonzero
      refine (bmapEntry_spec grown.sound present small slot).bind ?_
      rintro a s'' ⟨⟨l', grown'⟩, full, found⟩
      exact .pure ⟨⟨l ++ l', grown.trans grown'⟩, full, found⟩
  · unfold maxfile at inside
    omega

omit live in
theorem bmap_of_held (present : (view sb s ip).held (ip.inum, dataSlot bn) = some b) :
    Ensures (bmap sb ip bn) s (fun r s' => s' = s ∧ r.1 = ip ∧ r.2 ≠ 0 ∧ r.2.toNat = b) fun _ => False := by
  have inode : (view sb s ip).inode ip.inum = ip.toDinode := put_inode_self
  obtain ⟨nonzero, value⟩ := held_eq_some.mp present
  have live : ((view sb s ip).inode ip.inum).type ≠ 0 := fun free => nonzero (slot_of_free free _)
  unfold bmap
  refine .ite (fun direct => ?_) fun indirect => .ite (fun small => ?_) fun beyond => ?_
  · rw [dataSlot, if_pos direct, slot_direct live direct.le, inode] at nonzero value
    rw [filled, if_neg nonzero]
    refine .pure_bind ?_
    rw [if_neg nonzero, Dinode.setAddr_addr]
    exact .pure ⟨rfl, rfl, nonzero, value⟩
  · have slotted : dataSlot bn = ndirect + 1 + (bn - ndirect) := by
      rw [dataSlot, if_neg indirect]
      omega
    have ind : (view sb s ip).slot ip.inum ndirect ≠ 0 := fun zero => nonzero (by
      rw [slotted, slot_entry (by omega), if_neg (by simp [zero])])
    have entry := slot_entry_of_held (held_of_slot_ne ind) small
    have low := (sound.in_data (held_of_slot_ne ind)).1
    rw [slot_direct live le_rfl, inode] at ind entry low
    rw [slotted, entry, show (view sb s ip).block _ = s.disk _ from (disk_eq_block low).symm] at nonzero value
    rw [filled, if_neg ind]
    refine .pure_bind ?_
    rw [if_neg ind, Dinode.setAddr_addr]
    refine (bmapEntry_of_ne nonzero).bind ?_
    rintro _ _ ⟨rfl, rfl⟩
    exact .pure ⟨rfl, rfl, nonzero, value⟩
  · refine (nonzero (slot_of_maxfile_lt ?_)).elim
    rw [dataSlot, if_neg indirect, maxfile]
    omega

end Map

end Op

end Xv6.Fs
