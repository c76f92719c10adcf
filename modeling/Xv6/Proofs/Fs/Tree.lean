import Xv6.Model.Fs.Mkfs
import Xv6.Proofs.Fs.DirectoryMap

/-! # Trees of files

An image is seen as the tree that it is for: the inodes that are allocated, their fields but for the block
numbers, and the bytes of their files. The map of a directory is part of its bytes.
-/

namespace Xv6.Fs

open Machine Image Op
open Mkfs (rootino)

/-- Directories are made of whole entries, and an entry is for an inode that the disk has. -/
structure Tidy (sb : Superblock) (im : Image) : Prop where
  consistent : Consistent sb im
  root : rootino < sb.ninodes
  whole : ∀ i, (im.inode i).type = tDir → (im.inode i).size.toNat % direntSize = 0
  listed : ∀ i, (im.inode i).type = tDir → ∀ j < im.entries i, (im.entry i j).inum.toNat < sb.ninodes

namespace Image

variable {im im' im'' : Image} {i j d : ℕ} {de : Dirent}

/-- An inode is the same in two trees. -/
structure Alike (im im' : Image) (i : ℕ) : Prop where
  type : (im'.inode i).type = (im.inode i).type
  kept : (im.inode i).type ≠ 0 → im'.inode i = { im.inode i with addrs := (im'.inode i).addrs }
  byte : (im.inode i).type ≠ 0 → ∀ o, im'.byte i o = im.byte i o

def SameTree (im im' : Image) : Prop := ∀ i, Alike im im' i

theorem Alike.refl : Alike im im i := ⟨rfl, fun _ => rfl, fun _ _ => rfl⟩

theorem Alike.trans (first : Alike im im' i) (second : Alike im' im'' i) : Alike im im'' i := by
  refine ⟨second.type.trans first.type, fun live => ?_, fun live o => ?_⟩
  · have live' : (im'.inode i).type ≠ 0 := by rwa [first.type]
    rw [second.kept live', first.kept live]
  · have live' : (im'.inode i).type ≠ 0 := by rwa [first.type]
    rw [second.byte live', first.byte live]

theorem SameTree.refl (im : Image) : SameTree im im := fun _ => .refl

theorem Alike.live (alike : Alike im im' i) : (im'.inode i).type ≠ 0 ↔ (im.inode i).type ≠ 0 := by rw [alike.type]

section

variable (alike : Alike im im' i) (live : (im.inode i).type ≠ 0)
include alike live

theorem Alike.size : (im'.inode i).size = (im.inode i).size := by
  rw [alike.kept live]

theorem Alike.nlink : (im'.inode i).nlink = (im.inode i).nlink := by
  rw [alike.kept live]

theorem Alike.file : im'.file i = im.file i := by
  rw [Image.file, Image.file, alike.size live, funext (alike.byte live)]

theorem Alike.entries : im'.entries i = im.entries i := by
  rw [Image.entries, Image.entries, alike.size live]

theorem Alike.entry (j : ℕ) : im'.entry i j = im.entry i j := by
  rw [Image.entry, Image.entry, alike.file live]

theorem Alike.directory : im'.directory i = im.directory i := by
  rw [Image.directory, Image.directory, alike.entries live]
  simp only [alike.entry live]

end

theorem SameElsewhere.alike (same : SameElsewhere im d im') (other : i ≠ d) : Alike im im' i := by
  have inode := same.inode i other
  exact ⟨by rw [inode], fun _ => by rw [inode], fun _ => same.byte i other⟩

theorem live_of_dir (dir : (im.inode i).type = tDir) : (im.inode i).type ≠ 0 := by
  rw [dir]
  decide

/-- An inode with another number of links. -/
def relinked (im : Image) (i : ℕ) (nlink : Int16) : Image := im.put i { im.inode i with nlink }

variable {nlink : Int16}

theorem relinked_inode_self : (im.relinked i nlink).inode i = { im.inode i with nlink } := put_inode_self

theorem byte_put_kept {din : Dinode} (type : din.type = (im.inode i).type)
    (addrs : din.addrs = (im.inode i).addrs) (j o : ℕ) :
    (im.put i din).byte j o = im.byte j o :=
  byte_congr (fun _ => held_congr (slot_put_kept type addrs j _)) (fun _ _ _ => rfl) o

theorem byte_relinked (j o : ℕ) : (im.relinked i nlink).byte j o = im.byte j o := by
  apply byte_put_kept
  · rfl
  · rfl

theorem fields_relinked (j : ℕ) : ((im.relinked i nlink).inode j).type = (im.inode j).type ∧
    ((im.relinked i nlink).inode j).size = (im.inode j).size := by
  by_cases here : j = i
  · subst here
    rw [relinked_inode_self]
    exact ⟨rfl, rfl⟩
  · rw [relinked, put_inode_of_ne here]
    exact ⟨rfl, rfl⟩

theorem entries_relinked (j : ℕ) : (im.relinked i nlink).entries j = im.entries j := by
  rw [Image.entries, Image.entries, (fields_relinked j).2]

theorem entry_relinked (j e : ℕ) : (im.relinked i nlink).entry j e = im.entry j e := by
  rw [Image.entry, Image.entry, Image.file, Image.file, (fields_relinked j).2, funext (byte_relinked j)]

theorem directory_relinked (j : ℕ) : (im.relinked i nlink).directory j = im.directory j := by
  rw [Image.directory, Image.directory, entries_relinked]
  simp only [entry_relinked]

/-- The links of an inode are counted up and down again. -/
theorem SameTree.rollback (live : (im.inode i).type ≠ 0) (same : SameTree (im.relinked i nlink) im') :
    SameTree im (im'.relinked i (im.inode i).nlink) := by
  intro j
  by_cases here : j = i
  · subst here
    have alike := same j
    have before : ((im.relinked j nlink).inode j).type ≠ 0 := by rwa [relinked_inode_self]
    have kept := alike.kept before
    rw [relinked_inode_self] at kept
    refine ⟨?_, fun _ => ?_, fun _ o => ?_⟩
    · rw [relinked_inode_self, kept]
    · rw [relinked_inode_self, kept]
    · rw [byte_relinked, alike.byte before, byte_relinked]
  · have first : Alike im (im.relinked i nlink) j := SameElsewhere.put.alike here
    exact (first.trans (same j)).trans (SameElsewhere.put.alike here)

theorem SameTree.of_elsewhere (same : ∀ j ≠ i, Alike im im' j) (free : (im.inode i).type = 0)
    (free' : (im'.inode i).type = 0) :
    SameTree im im' := by
  intro j
  by_cases here : j = i
  · subst here
    exact ⟨by rw [free, free'], fun live => absurd free live, fun live => absurd free live⟩
  · exact same j here

end Image

namespace Tidy

variable {sb : Superblock} {im im' : Image} {i d j : ℕ} {de : Dirent}

theorem of_sameTree (tidy : Tidy sb im) (consistent : Consistent sb im') (same : SameTree im im') : Tidy sb im' := by
  have before {i : ℕ} (dir : (im'.inode i).type = tDir) : (im.inode i).type = tDir ∧ (im.inode i).type ≠ 0 := by
    rw [(same i).type] at dir
    exact ⟨dir, live_of_dir dir⟩
  refine ⟨consistent, tidy.root, fun i dir => ?_, fun i dir j inside => ?_⟩
  · obtain ⟨dir, live⟩ := before dir
    rw [(same i).size live]
    exact tidy.whole i dir
  · obtain ⟨dir, live⟩ := before dir
    rw [(same i).entries live] at inside
    rw [(same i).entry live]
    exact tidy.listed i dir j inside

theorem put_kept {din : Dinode} (tidy : Tidy sb im) (type : din.type = (im.inode i).type)
    (addrs : din.addrs = (im.inode i).addrs)
    (size : din.size = (im.inode i).size) : Tidy sb (im.put i din) := by
  have fields (j : ℕ) :
      ((im.put i din).inode j).type = (im.inode j).type ∧ ((im.put i din).inode j).size = (im.inode j).size := by
    by_cases here : j = i
    · subst here
      rw [put_inode_self]
      exact ⟨type, size⟩
    · rw [put_inode_of_ne here]
      exact ⟨rfl, rfl⟩
  have entry (j e : ℕ) : (im.put i din).entry j e = im.entry j e := by
    rw [Image.entry, Image.entry, Image.file, Image.file, (fields j).2, funext (byte_put_kept type addrs j)]
  refine ⟨tidy.consistent.put_kept type addrs size, tidy.root, fun j dir => ?_, fun j dir e inside => ?_⟩
  · rw [(fields j).1] at dir
    rw [(fields j).2]
    exact tidy.whole j dir
  · rw [(fields j).1] at dir
    rw [Image.entries, (fields j).2] at inside
    rw [entry]
    exact tidy.listed j dir e inside

theorem put_new {din : Dinode} (tidy : Tidy sb im) (consistent : Consistent sb (im.put i din)) (size : din.size = 0) :
    Tidy sb (im.put i din) := by
  have none : (im.put i din).entries i = 0 := by
    rw [Image.entries, put_inode_self, size]
    rfl
  refine ⟨consistent, tidy.root, fun x dir => ?_, fun x dir j inside => ?_⟩
  · by_cases here : x = i
    · rw [here, put_inode_self, size]
      rfl
    · rw [put_inode_of_ne here] at dir ⊢
      exact tidy.whole x dir
  · by_cases here : x = i
    · subst here
      rw [none] at inside
      exact absurd inside (Nat.not_lt_zero j)
    · have alike : Alike im (im.put i din) x := SameElsewhere.put.alike here
      rw [alike.type] at dir
      rw [alike.entries (live_of_dir dir)] at inside
      rw [alike.entry (live_of_dir dir)]
      exact tidy.listed x dir j inside

theorem relinked {nlink : Int16} (tidy : Tidy sb im) : Tidy sb (im.relinked i nlink) := tidy.put_kept rfl rfl rfl

end Tidy

namespace Op

variable {sb : Superblock} {s s' : Store} {dp dp' : Inode} {im im' : Image} {i d j : ℕ} {de : Dirent}

/-- One entry of a directory is written, and nothing else. -/
structure Added (sb : Superblock) (im im' : Image) (d j : ℕ) (de : Dirent) : Prop extends Entered im im' d j de where
  reach : j ≤ im.entries d
  consistent : Consistent sb im'
  elsewhere : SameElsewhere im d im'
  kept : im'.inode d = { im.inode d with addrs := (im'.inode d).addrs, size := (im'.inode d).size }
  whole : (im'.inode d).size.toNat % direntSize = 0

theorem Written.added (written : Written sb (fun i => de.encode[i]?) direntSize (direntSize * j) s dp s' dp' direntSize)
    (loaded : Loaded sb s dp) (whole : dp.size.toNat % direntSize = 0) (reach : j ≤ (sb.image s.disk).entries dp.inum)
    (length : de.name.length = dirsiz) : Added sb (sb.image s.disk) (sb.image s'.disk) dp.inum j de := by
  obtain ⟨entered, whole'⟩ := written.entered loaded whole reach length
  have after := written.loaded.current
  rw [written.inum] at after
  refine ⟨entered, reach, written.consistent, written.elsewhere, ?_, by rwa [after]⟩
  rw [after, loaded.current, written.kept]

theorem Unchanged.sameTree (unchanged : Unchanged sb s dp s' dp') (loaded : Loaded sb s dp) :
    SameTree (sb.image s.disk) (sb.image s'.disk) := by
  intro i
  by_cases here : i = dp.inum
  · subst here
    have inode := unchanged.inode loaded
    exact ⟨by rw [inode], fun _ => by rw [inode], fun _ => unchanged.byte⟩
  · exact unchanged.elsewhere.alike here

theorem Added.tidy (added : Added sb im im' d j de) (tidy : Tidy sb im) (dir : (im.inode d).type = tDir)
    (known : de.inum.toNat < sb.ninodes) : Tidy sb im' := by
  refine ⟨added.consistent, tidy.root, fun i dir' => ?_, fun i dir' e inside => ?_⟩
  · by_cases here : i = d
    · rw [here]
      exact added.whole
    · rw [added.elsewhere.inode i here] at dir' ⊢
      exact tidy.whole i dir'
  · by_cases here : i = d
    · subst here
      by_cases new : e = j
      · rw [new, added.here]
        exact known
      · have size := added.size
        have reach := added.reach
        have old : e < im.entries i := by omega
        rw [added.others e old new]
        exact tidy.listed i dir e old
    · have alike := added.elsewhere.alike here
      rw [alike.type] at dir'
      have live := live_of_dir dir'
      rw [alike.entries live] at inside
      rw [alike.entry live]
      exact tidy.listed i dir' e inside

end Op

end Xv6.Fs
