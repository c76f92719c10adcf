import Xv6.Model.Fs.Log

/-! # What the log functions write

The loops of the log copy blocks between the log area and the home blocks, which do not overlap. Each
loop is therefore one batch of writes whose data are read off the cache before it (`foldl_copy`), and
the header block decodes to what was encoded into it.
-/

namespace Xv6.Fs

open Machine List

section Area
variable {start : UInt32}

theorem start_inLog (start : UInt32) : InLog start start := by
  simp [InLog]

private theorem slot_sub_start (start : UInt32) {tail : ℕ} (listed : tail < logBlocks) :
    (Log.slot start tail - start).toNat = tail + 1 := by
  have offset : Log.slot start tail - start = UInt32.ofNat (tail + 1) := by
    rw [UInt32.ofNat_add, Log.slot]
    grind
  have bound : tail < 30 := listed
  rw [offset, UInt32.toNat_ofNat', Nat.mod_eq_of_lt (by omega)]

theorem slot_inLog {tail : ℕ} (listed : tail < logBlocks) : InLog start (Log.slot start tail) := by
  rw [InLog, slot_sub_start start listed]
  omega

theorem slot_ne_start {tail : ℕ} (listed : tail < logBlocks) : Log.slot start tail ≠ start := by
  intro same
  have offset := slot_sub_start start listed
  rw [same] at offset
  simp at offset

theorem slot_inj {first second : ℕ} (left : first < logBlocks) (right : second < logBlocks)
    (same : Log.slot start first = Log.slot start second) : first = second := by
  have offset := slot_sub_start start left
  rw [same, slot_sub_start start right] at offset
  omega

end Area

/-- The log lists home blocks, and no more of them than the log area holds. -/
structure Listable (start : UInt32) (lh : List UInt32) : Prop where
  home : ∀ blockno ∈ lh, ¬ InLog start blockno
  fits : lh.length ≤ logBlocks

section Absorption

/-- The listed blocks after one accepted `log_write`. -/
def absorb (lh : List UInt32) (blockno : UInt32) : List UInt32 :=
  if blockno ∈ lh then lh else lh ++ [blockno]

variable {lh : List UInt32}

theorem mem_absorb {blockno other : UInt32} :
    other ∈ absorb lh blockno ↔ other ∈ lh ∨ other = blockno := by
  unfold absorb
  split
  · next listed =>
    constructor
    · exact .inl
    · rintro (member | rfl)
      · exact member
      · exact listed
  · simp

theorem nodup_absorb (nodup : lh.Nodup) (blockno : UInt32) : (absorb lh blockno).Nodup := by
  unfold absorb
  split
  · exact nodup
  · next fresh =>
    rw [← concat_eq_append]
    exact nodup.concat fresh

theorem length_absorb_le (lh : List UInt32) (blockno : UInt32) : (absorb lh blockno).length ≤ lh.length + 1 := by
  unfold absorb
  split <;> simp

/-- With room in the log and an operation outstanding, `log_write` lists the block once. -/
theorem Log.logWrite_eq {log : Log} (room : log.lh.length < logBlocks) (begun : 1 ≤ log.outstanding)
    (blockno : UInt32) :
    log.logWrite blockno = .ok ({ log with lh := absorb log.lh blockno }, decide (blockno ∉ log.lh)) := by
  rw [Log.logWrite, if_neg (by omega), if_neg (by omega), absorb]
  split <;> simp_all

end Absorption

section Header

private theorem word_foldl_setWord (entries : List UInt32) (base : ℕ) (bytes : Block) (i : ℕ)
    (inside : base + entries.length ≤ logBlocks) :
    ((entries.zipIdx base).foldl (fun bytes entry => bytes.setWord (entry.2 + 1) entry.1) bytes).word i =
      if base < i ∧ i ≤ base + entries.length then entries[i - 1 - base]?.getD 0 else bytes.word i := by
  have size : base + entries.length ≤ 30 := inside
  induction entries generalizing base bytes with
  | nil =>
    rw [if_neg (by simp)]
    rfl
  | cons entry rest ih =>
    simp only [length_cons] at inside size ⊢
    rw [zipIdx_cons, foldl_cons, ih _ _ (by omega) (by omega)]
    by_cases here : i = base + 1
    · subst here
      rw [if_neg (by omega), if_pos (by omega), Vector.word_setWord_self _ _ (by simp only [bsize]; omega)]
      simp
    · rw [Vector.word_setWord_of_ne _ _ (by omega)]
      by_cases later : base + 1 < i ∧ i ≤ base + 1 + rest.length
      · have position : i - 1 - base = (i - 1 - (base + 1)) + 1 := by omega
        rw [if_pos later, if_pos (by omega), position, getElem?_cons_succ]
      · rw [if_neg later, if_neg (by omega)]

variable {lh : List UInt32}

theorem decodeHead?_encodeHead (bytes : Block) (fits : lh.length ≤ logBlocks) :
    decodeHead? (encodeHead lh bytes) = some lh := by
  have size : lh.length ≤ 30 := fits
  have count : ((encodeHead lh bytes).word 0).toInt32.toInt.toNat = lh.length := by
    rw [encodeHead, word_foldl_setWord _ _ _ _ (by omega), if_neg (by omega),
      Vector.word_setWord_self _ _ (by simp [bsize]), UInt32.toInt32_ofNat',
      Int32.toInt_ofNat_of_lt (by omega), Int.toNat_natCast]
  simp only [decodeHead?, count, fits, ↓reduceIte, Option.some.injEq]
  apply ext_getElem
  · simp
  · intro i left right
    rw [getElem_map, getElem_range, encodeHead, word_foldl_setWord _ _ _ _ (by omega),
      if_pos (by omega)]
    simp [right]

theorem length_of_decodeHead? {bytes : Block} (decoded : decodeHead? bytes = some lh) :
    lh.length ≤ logBlocks := by
  simp only [decodeHead?] at decoded
  split at decoded
  · next fits =>
    cases decoded
    simpa using fits
  · cases decoded

end Header

variable {α : Type*}

namespace Volume

/-- A batch of blocks changed in the cache and written to the disk, with the pins left after it. -/
def puts (v : Volume) (pins : UInt32 → ℤ) (writes : List (UInt32 × Block)) : Volume :=
  { v with cache := replay v.cache writes, pins, writes := v.writes ++ writes }

theorem modify_bwrite (v : Volume) (blockno : UInt32) (data : Block) :
    (v.modify blockno data).bwrite blockno = v.puts v.pins [(blockno, data)] := by
  simp [modify, bwrite, puts]

/-- A loop that copies blocks, none of which it reads after writing it, is one batch. -/
theorem foldl_copy (target source : UInt32 → α → UInt32)
    (settle : (UInt32 → ℤ) → α → UInt32 → ℤ) (items : List α) (v : Volume)
    (apart : ∀ x ∈ items, ∀ y ∈ items, target v.log.start x ≠ source v.log.start y) :
    items.foldl (fun v x =>
        v.puts (settle v.pins x) [(target v.log.start x, v.cache (source v.log.start x))]) v =
      v.puts (items.foldl settle v.pins)
        (items.map fun x => (target v.log.start x, v.cache (source v.log.start x))) := by
  induction items generalizing v with
  | nil => simp [puts]
  | cons x rest ih =>
    have unread : ∀ y ∈ rest, Function.update v.cache (target v.log.start x)
        (v.cache (source v.log.start x)) (source v.log.start y) = v.cache (source v.log.start y) :=
      fun y member => Function.update_of_ne
        (apart x mem_cons_self y (mem_cons_of_mem x member)).symm _ _
    have later := map_congr_left fun y member =>
      congrArg (Prod.mk (target v.log.start y)) (unread y member)
    rw [foldl_cons, ih]
    · simp only [puts, replay_cons, replay_nil, map_cons, foldl_cons, append_assoc,
        singleton_append, later]
    · intro y member z other
      exact apart y (mem_cons_of_mem x member) z (mem_cons_of_mem x other)

theorem foldl_log {body : Volume → α → Volume} (kept : ∀ v x, (body v x).log = v.log)
    (items : List α) (v : Volume) : (items.foldl body v).log = v.log := by
  induction items generalizing v with
  | nil => rfl
  | cons x rest ih => rw [foldl_cons, ih, kept]

/-- A commit clears the list of logged blocks and changes nothing else in the log, as the commit step
of concurrent operations does. -/
theorem commit_log (v : Volume) : v.commit.log = { v.log with lh := [] } := by
  have written (v : Volume) : v.writeLog.log = v.log := by
    rw [writeLog, foldl_log]
    exact fun _ _ => rfl
  have installed (v : Volume) : (v.installTrans false).log = v.log := by
    rw [installTrans, foldl_log]
    exact fun _ _ => rfl
  unfold commit
  split
  · simp only [writeHead, clearHead, modify, bwrite, installed, written]
  · next idle => rw [← length_eq_zero_iff.mp (Nat.eq_zero_of_not_pos idle)]

/-- The log blocks as `write_log` fills them. -/
def logCopies (v : Volume) : List (UInt32 × Block) :=
  v.log.lh.zipIdx.map fun entry => (Log.slot v.log.start entry.2, v.cache entry.1)

/-- The home blocks with their cached data. -/
def homeCopies (v : Volume) : List (UInt32 × Block) :=
  v.log.lh.map fun blockno => (blockno, v.cache blockno)

/-- The home blocks as `install_trans` reads them from the log. -/
def installs (start : UInt32) (lh : List UInt32) (disk : Disk) : List (UInt32 × Block) :=
  lh.zipIdx.map fun entry => (entry.1, disk (Log.slot start entry.2))

/-- The writes of a recovery: the logged blocks go home, then the header is cleared. -/
def recoveryTrace (start : UInt32) (lh : List UInt32) (disk : Disk) : List (UInt32 × Block) :=
  installs start lh disk ++ [(start, encodeHead [] (disk start))]

/-- The header block after the commit point. -/
def committedHead (v : Volume) : Block := encodeHead v.log.lh (v.cache v.log.start)

/-- The writes of a commit: the log blocks, the header, the home blocks, the cleared header. -/
def commitTrace (v : Volume) : List (UInt32 × Block) :=
  v.logCopies ++ (v.log.start, v.committedHead) ::
    (v.homeCopies ++ [(v.log.start, encodeHead [] v.committedHead)])

/-- A disk at the commit point: the log area has the blocks and the header that lists them. -/
def committedDisk (v : Volume) (disk : Disk) : Disk :=
  Function.update (replay disk v.logCopies) v.log.start v.committedHead

section Listed
variable {start : UInt32} {lh : List UInt32}

theorem lt_logBlocks_of_mem (listable : Listable start lh) {entry : UInt32 × ℕ}
    (member : entry ∈ lh.zipIdx) : entry.2 < logBlocks :=
  (snd_lt_of_mem_zipIdx member).trans_le (by simpa using listable.fits)

theorem slot_ne_home (listable : Listable start lh) {entry other : UInt32 × ℕ}
    (left : entry ∈ lh.zipIdx) (right : other ∈ lh.zipIdx) : Log.slot start entry.2 ≠ other.1 := by
  intro same
  exact listable.home _ (fst_mem_of_mem_zipIdx right)
    (same ▸ slot_inLog (lt_logBlocks_of_mem listable left))

theorem home_of_mem_installs {disk : Disk} (home : ∀ blockno ∈ lh, ¬ InLog start blockno)
    {write : UInt32 × Block} (member : write ∈ installs start lh disk) : ¬ InLog start write.1 := by
  obtain ⟨entry, listed, rfl⟩ := mem_map.mp member
  exact home _ (fst_mem_of_mem_zipIdx listed)

theorem replay_take_installs {disk : Disk} (home : ∀ blockno ∈ lh, ¬ InLog start blockno) (count : ℕ)
    {blockno : UInt32} (inside : InLog start blockno) :
    replay disk ((installs start lh disk).take count) blockno = disk blockno :=
  replay_of_not_written fun _ member same =>
    home_of_mem_installs home (mem_of_mem_take member) (same ▸ inside)

theorem installs_eq {store : Disk} {data : UInt32 → Block}
    (copied : ∀ entry ∈ lh.zipIdx, store (Log.slot start entry.2) = data entry.1) :
    installs start lh store = lh.map fun blockno => (blockno, data blockno) := by
  have pairs : installs start lh store = lh.zipIdx.map fun entry => (entry.1, data entry.1) :=
    map_congr_left fun entry member => congrArg (Prod.mk entry.1) (copied entry member)
  conv_rhs => rw [← zipIdx_map_fst 0 lh, map_map]
  exact pairs

end Listed

section Batches
variable {v : Volume}

theorem writeLog_eq (listable : Listable v.log.start v.log.lh) :
    v.writeLog = v.puts v.pins v.logCopies := by
  have apart : ∀ entry ∈ v.log.lh.zipIdx, ∀ other ∈ v.log.lh.zipIdx,
      Log.slot v.log.start entry.2 ≠ other.1 :=
    fun entry left other right => slot_ne_home listable left right
  have batch := foldl_copy (fun start (entry : UInt32 × ℕ) => Log.slot start entry.2)
    (fun _ entry => entry.1) (fun pins _ => pins) _ v apart
  simp only [writeLog, modify_bwrite, batch, logCopies, foldl_fixed]

theorem installTrans_eq (listable : Listable v.log.start v.log.lh) (recovering : Bool) :
    ∃ pins, v.installTrans recovering = v.puts pins (installs v.log.start v.log.lh v.cache) := by
  have step : v.installTrans recovering = v.log.lh.zipIdx.foldl (fun v entry =>
      v.puts (if recovering then v.pins else Function.update v.pins entry.1 (v.pins entry.1 - 1))
        [(entry.1, v.cache (Log.slot v.log.start entry.2))]) v := by
    simp only [installTrans, modify_bwrite]
    congr 1
    funext v entry
    cases recovering <;> rfl
  have apart : ∀ entry ∈ v.log.lh.zipIdx, ∀ other ∈ v.log.lh.zipIdx,
      entry.1 ≠ Log.slot v.log.start other.2 :=
    fun entry left other right => (slot_ne_home listable right left).symm
  have batch := foldl_copy (fun _ (entry : UInt32 × ℕ) => entry.1)
    (fun start entry => Log.slot start entry.2)
    (fun pins entry => if recovering then pins else Function.update pins entry.1 (pins entry.1 - 1)) _ v apart
  exact ⟨_, step.trans batch⟩

theorem puts_puts (v : Volume) (first last : UInt32 → ℤ) (earlier later : List (UInt32 × Block)) :
    (v.puts first earlier).puts last later = v.puts last (earlier ++ later) := by
  simp [puts]

theorem writeHead_puts (v : Volume) (pins : UInt32 → ℤ) (writes : List (UInt32 × Block)) :
    (v.puts pins writes).writeHead = v.puts pins
      (writes ++ [(v.log.start, encodeHead v.log.lh (replay v.cache writes v.log.start))]) := by
  rw [writeHead, modify_bwrite, puts_puts]
  rfl

theorem clearHead_puts (v : Volume) (pins : UInt32 → ℤ) (writes : List (UInt32 × Block)) :
    (v.puts pins writes).clearHead = v.clearHead.puts pins writes := rfl

section

variable (listable : Listable v.log.start v.log.lh)
include listable

theorem inLog_of_mem_logCopies {write : UInt32 × Block}
    (copied : write ∈ v.logCopies) : InLog v.log.start write.1 ∧ write.1 ≠ v.log.start := by
  obtain ⟨entry, listed, rfl⟩ := mem_map.mp copied
  have bound := lt_logBlocks_of_mem listable listed
  exact ⟨slot_inLog bound, slot_ne_start bound⟩

/-- Once the log blocks are written, they hold the home blocks to install. -/
theorem replay_logCopies (store : Disk) {entry : UInt32 × ℕ} (member : entry ∈ v.log.lh.zipIdx) :
    replay store v.logCopies (Log.slot v.log.start entry.2) = v.cache entry.1 := by
  refine replay_eq ?_ (.inl ⟨_, mem_map_of_mem member, rfl⟩)
  intro write copied same
  obtain ⟨other, listed, rfl⟩ := mem_map.mp copied
  have position : other.2 = entry.2 :=
    slot_inj (lt_logBlocks_of_mem listable listed) (lt_logBlocks_of_mem listable member) same
  have left := mem_zipIdx_iff_getElem?.mp listed
  have right := mem_zipIdx_iff_getElem?.mp member
  rw [position, right] at left
  rw [Option.some.inj left]

/-- From the commit point on, the log yields the cached data of the listed blocks. -/
theorem installs_committedDisk (disk : Disk) :
    installs v.log.start v.log.lh (v.committedDisk disk) = v.homeCopies := by
  refine installs_eq fun entry member => ?_
  rw [committedDisk, Function.update_of_ne (slot_ne_start (lt_logBlocks_of_mem listable member)),
    replay_logCopies listable disk member]

/-- From its commit point on, a commit writes what a recovery would. -/
theorem commitTrace_eq (disk : Disk) :
    v.commitTrace = v.logCopies ++ (v.log.start, v.committedHead) ::
      recoveryTrace v.log.start v.log.lh (v.committedDisk disk) := by
  rw [recoveryTrace, installs_committedDisk listable, committedDisk, Function.update_self, commitTrace]

theorem commit_eq (pending : v.log.lh.length > 0) :
    ∃ pins, v.commit = v.clearHead.puts pins v.commitTrace := by
  have head : replay v.cache v.logCopies v.log.start = v.cache v.log.start :=
    replay_of_not_written fun _ copied => (inLog_of_mem_logCopies listable copied).2
  have logged : v.writeLog.writeHead = v.puts v.pins (v.logCopies ++ [(v.log.start, v.committedHead)]) := by
    rw [writeLog_eq listable, writeHead_puts, head]
    rfl
  have disk : replay v.cache (v.logCopies ++ [(v.log.start, v.committedHead)]) = v.committedDisk v.cache :=
    replay_append _ _ _
  obtain ⟨pins, installed⟩ := installTrans_eq (v := v.writeLog.writeHead) (by rwa [logged]) false
  have home : v.writeLog.writeHead.installTrans false = v.puts pins
      ((v.logCopies ++ [(v.log.start, v.committedHead)]) ++
        installs v.log.start v.log.lh (v.committedDisk v.cache)) := by
    rw [installed, logged, puts_puts, ← disk]
    rfl
  have kept : replay v.cache ((v.logCopies ++ [(v.log.start, v.committedHead)]) ++
      installs v.log.start v.log.lh (v.committedDisk v.cache)) v.log.start =
        v.committedDisk v.cache v.log.start := by
    rw [replay_append, disk]
    exact replay_of_not_written fun _ member same =>
      home_of_mem_installs listable.home member (same ▸ start_inLog _)
  refine ⟨pins, ?_⟩
  rw [commit, if_pos pending, home, clearHead_puts, writeHead_puts, commitTrace_eq listable v.cache,
    recoveryTrace, ← kept, append_assoc, append_assoc]
  rfl

end

theorem initlog?_eq {start : UInt32} {image : Disk} {lh : List UInt32}
    (decoded : decodeHead? (image start) = some lh) (home : ∀ blockno ∈ lh, ¬ InLog start blockno) :
    ∃ pins, initlog? start image = some ((⟨⟨start, 0, false, []⟩, image, fun _ => 0, image, []⟩ : Volume).puts
      pins (recoveryTrace start lh image)) := by
  obtain ⟨pins, installed⟩ := installTrans_eq
    (v := ⟨⟨start, 0, false, lh⟩, image, fun _ => 0, image, []⟩) ⟨home, length_of_decodeHead? decoded⟩ true
  have head : replay image (installs start lh image) start = image start :=
    replay_of_not_written fun _ member same => home_of_mem_installs home member (same ▸ start_inLog _)
  refine ⟨pins, ?_⟩
  simp only [initlog?, recoverFromLog?, readHead?, decoded, Option.map_some, installed, clearHead_puts,
    writeHead_puts]
  simp only [clearHead, head, recoveryTrace]

end Batches

end Volume

end Xv6.Fs
