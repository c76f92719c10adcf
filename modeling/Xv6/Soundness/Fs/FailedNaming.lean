import Xv6.Proofs.Fs.Create
import Xv6.Proofs.Fs.Unlinking
import Xv6.Soundness.Fs.PathResolution

/-! # Naming calls that fail

A call that returns `-1` leaves the tree as it was: `sys_link` takes the link back that it had counted, and `create`
frees the inode that it had made. Blocks may have been added to a directory without its size, which no one can see.
-/

namespace Xv6.Fs

open Machine Image Op
open Itable (ninode)

namespace Kern

variable {sb : Superblock} {k k' : Kernel} {cwd : Fin ninode}

theorem makeNode_ensures {type major minor : Int16} (quiet : Quiet sb k) (here : 0 < (k.table cwd).ref)
    (proper : type ≠ 0)
    (path : Option (List UInt8)) :
    Ensures (makeNode sb cwd path type major minor) k (fun r k' => r = -1 → Unmoved sb k k') fun _ => True := by
  cases path with
  | none => exact .pure fun _ => .of_store quiet rfl quiet.idle
  | some path =>
    refine ((create_ensures quiet here path proper).allow fun _ _ => trivial).bind ?_
    rintro r k₁ creating
    have succeeds (ip : Fin ninode) :
        Ensures (do iunlockput sb ip; return (0 : ℤ)) k₁ (fun r k' => r = -1 → Unmoved sb k k')
        fun _ => True := Ensures.always.bind fun _ _ _ => .pure fun no => by cases no
    cases creating with
    | refused _ unmoved _ => exact .pure fun _ => unmoved
    | found ip | made ip => exact succeeds ip

theorem perform_ensures (quiet : Quiet sb k) (here : 0 < (k.table cwd).ref) (call : NamingCall) :
    Ensures (call.perform sb cwd) k (fun r k' => r = -1 → Unmoved sb k k') fun _ => True := by
  cases call with
  | link old new =>
    refine ((sysLink_ensures quiet here old new).allow fun _ _ => trivial).mono ?_
    rintro r k' linking failed
    cases linking with
    | refused _ unmoved _ => exact unmoved
    | linked => cases failed
  | unlink path =>
    refine ((sysUnlink_ensures quiet here path).allow fun _ _ => trivial).mono ?_
    rintro r k' unlinking failed
    cases unlinking with
    | refused _ unmoved _ => exact unmoved
    | removed => cases failed
  | mkdir path | mknod path => exact makeNode_ensures quiet here (by decide) path

/-- The inodes, their fields and contents, and the maps of the directories, and with them all that a later call can
find. -/
theorem failed_naming (sb : Superblock) (k k' : Kernel) (cwd : Fin ninode) (call : NamingCall) (quiet : Quiet sb k)
    (here : 0 < (k.table cwd).ref) (failed : (call.perform sb cwd).run k = .ok (-1, k')) :
    (∀ i, ((sb.image k'.store.disk).inode i).type = ((sb.image k.store.disk).inode i).type) ∧
    (∀ i, ((sb.image k.store.disk).inode i).type ≠ 0 →
      ((sb.image k'.store.disk).inode i).nlink = ((sb.image k.store.disk).inode i).nlink ∧
      ((sb.image k'.store.disk).inode i).size = ((sb.image k.store.disk).inode i).size ∧
      (sb.image k'.store.disk).file i = (sb.image k.store.disk).file i) ∧
    (∀ i, ((sb.image k.store.disk).inode i).type = tDir →
      ((sb.image k'.store.disk).directory i).lookup = ((sb.image k.store.disk).directory i).lookup) ∧
    Quiet sb k' ∧ ∀ p, (k'.table p).ref = (k.table p).ref := by
  have unmoved := (perform_ensures quiet here call).of_run failed rfl
  have same := unmoved.tree
  refine ⟨fun i => (same i).type, fun i live => ⟨(same i).nlink live, (same i).size live, (same i).file live⟩,
    fun i dir => ?_, unmoved.quiet quiet, fun p => ?_⟩
  · rw [(same i).directory (live_of_dir dir)]
  · rw [unmoved.owns.ref, Multiset.count_zero, Nat.add_zero]

/-- A link under a name that is there. -/
theorem failed_naming_twice :
    ∃ s k', (NamingCall.perform Mkfs.sb Sample.cwd (.link (some [slash, 102]) (some [slash, 97]))).run
      ⟨s, Sample.table⟩ = .ok (-1, k') ∧ ((Mkfs.sb.image k'.store.disk).inode 4).nlink = 1 := by
  obtain ⟨s, shown⟩ := Sample.exists_store
  have quiet := Sample.quiet shown
  have used := Sample.used_cwd
  have components_file : components [slash, 102] = [[102]] := by decide
  have components_folder : components [slash, 97] = [[97]] := by decide
  obtain ⟨r, k', ran, linking⟩ := ((sysLink_ensures quiet used (some [slash, 102]) (some [slash, 97])).allow (by
    rintro e (⟨-, full⟩ | ⟨-, path, given, broken⟩)
    · exact Sample.not_packed full
    · rcases given with same | same <;> obtain rfl := Option.some.inj same
      · exact Sample.not_broken shown rfl components_file Sample.lookup_file (by decide) broken
      · exact Sample.not_broken shown rfl components_folder Sample.lookup_folder (by decide) broken)).exists_run
  obtain rfl : r = -1 := by
    cases linking with
    | refused => rfl
    | linked _ _ n i d j name _ _ given _ names newLink _ =>
      cases given
      dsimp only at names newLink
      rw [shown] at names newLink
      have parent := names.parent
      have last := names.last
      rw [components_folder] at parent last
      obtain rfl := Option.some.inj ((Sample.parent_root _).symm.trans parent)
      obtain rfl : [97] = name := Option.some.inj last
      have absent := newLink.absent
      rw [Sample.lookup_folder] at absent
      cases absent
  obtain ⟨-, fields, -⟩ := failed_naming Mkfs.sb ⟨s, Sample.table⟩ k' Sample.cwd
    (.link (some [slash, 102]) (some [slash, 97])) quiet used ran
  dsimp only at fields
  rw [shown] at fields
  refine ⟨s, k', ran, ?_⟩
  obtain ⟨type, nlink, -⟩ := Sample.inode_image (i := 4) (by decide) le_rfl
  rw [(fields 4 (by rw [type]; decide)).1, nlink]
  rfl

end Kern

end Xv6.Fs
