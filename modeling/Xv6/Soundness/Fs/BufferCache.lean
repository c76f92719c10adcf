import Xv6.Proofs.Fs.Bcache

/-! # The buffer cache is transparent

A buffer is recycled only when nobody refers to it, and then what was given to its block is on the disk.
It follows that callers see a flat map from block numbers to blocks, as long as different addresses have
different sectors: the driver ignores the device, and doubles the block number in 32 bits.
-/

namespace Xv6.Fs.Bio

open Machine Function Bcache Bio.System

/-- Every buffer is listed, and no two hold the same block of a device other than 0. -/
structure Keyed (c : Bcache) : Prop where
  complete : ∀ i, i ∈ c.order
  unique : ∀ i j, (c.buf i).addr = (c.buf j).addr → (c.buf i).dev ≠ 0 → i = j

variable {i : Fin nbuf} {act : Act}

theorem Keyed.step? {s s' : System} (keyed : Keyed s.cache) (enabled : s.step? act = some s') :
    Keyed s'.cache := by
  obtain ⟨listed, same | ⟨k, addr, missing, -, fresh, others⟩⟩ := step?_addr enabled
  · refine ⟨fun i => listed i (keyed.complete i), fun i j both device => keyed.unique i j ?_ ?_⟩
    · rw [← same, ← same, both]
    · exact fun zero => device ((congrArg Address.dev (same i)).trans zero)
  · refine ⟨fun i => listed i (keyed.complete i), fun i j both device => ?_⟩
    have absent (i : Fin nbuf) : (s.cache.buf i).addr ≠ addr := lookup?_eq_none missing (keyed.complete i)
    by_cases first : i = k <;> by_cases second : j = k
    · rw [first, second]
    · rw [first, fresh, others j second] at both
      exact absurd both.symm (absent j)
    · rw [second, fresh, others i first] at both
      exact absurd both (absent i)
    · rw [others i first, others j second] at both
      exact keyed.unique i j both fun zero => device ((congrArg Address.dev (others i first)).trans zero)

section Record
variable {image : Disk} {trace : List Io} {addr : Address} {data : Block}

theorem latest_read : latest image (trace ++ [.read addr data]) = latest image trace := by
  funext blockno
  simp [latest, given]

theorem latest_write :
    latest image (trace ++ [.write addr data]) = update (latest image trace) addr.blockno data := by
  funext blockno
  simp only [latest, given, List.filterMap_append, replay_append]
  rfl

theorem Transparent.read (transparent : Transparent image trace) (seen : data = latest image trace addr.blockno) :
    Transparent image (trace ++ [.read addr data]) := by
  intro past other found rest split
  rcases concat_eq_append_cons.mp split with ⟨rfl, rfl, same⟩ | ⟨earlier, rfl, before⟩
  · cases same
    exact seen
  · exact transparent past other found earlier before

theorem Transparent.write (transparent : Transparent image trace) :
    Transparent image (trace ++ [.write addr data]) := by
  intro past other found rest split
  rcases concat_eq_append_cons.mp split with ⟨-, -, same⟩ | ⟨earlier, rfl, before⟩
  · cases same
  · exact transparent past other found earlier before

end Record

/-- The valid buffers hold the flat map, and where no buffer is modified the disk does. -/
structure Mapped (image : Disk) (asks : Address → Prop) (s : System) : Prop where
  kept : ∀ i, s.dirty i = true → (s.cache.buf i).refcnt ≠ 0 ∧ (s.cache.buf i).valid = true
  asked : ∀ i, (s.cache.buf i).valid = true ∨ (s.cache.buf i).refcnt ≠ 0 → asks (s.cache.buf i).addr
  stored : ∀ i, (s.cache.buf i).valid = true → s.dirty i = false →
    (s.cache.buf i).data = s.disk (sector (s.cache.buf i).blockno)
  current : ∀ i, (s.cache.buf i).valid = true → (s.cache.buf i).data = latest image s.trace (s.cache.buf i).blockno
  flushed : ∀ addr, asks addr → (∀ i, (s.cache.buf i).blockno = addr.blockno → s.dirty i = false) →
    s.disk (sector addr.blockno) = latest image s.trace addr.blockno
  transparent : Transparent image s.trace

namespace Mapped

variable {image : Disk} {asks : Address → Prop} {s s' : System} {call : ℕ} {r : Ref}

theorem boot (image : Disk) (asks : Address → Prop) : Mapped image asks (.boot image) where
  kept := nofun
  asked := by simp [System.boot, binit]
  stored := nofun
  current := nofun
  flushed := fun _ _ _ => rfl
  transparent := by simp [System.boot, Transparent]

theorem frame (mapped : Mapped image asks s) (disk : s'.disk = s.disk) (dirty : s'.dirty = s.dirty)
    (trace : s'.trace = s.trace)
    (same : ∀ i, (s'.cache.buf i).addr = (s.cache.buf i).addr ∧ (s'.cache.buf i).valid = (s.cache.buf i).valid ∧
      (s'.cache.buf i).data = (s.cache.buf i).data)
    (kept : ∀ i, s.dirty i = true → (s'.cache.buf i).refcnt ≠ 0)
    (asked : ∀ i, (s'.cache.buf i).refcnt ≠ 0 → asks (s.cache.buf i).addr) : Mapped image asks s' := by
  have block (i : Fin nbuf) : (s'.cache.buf i).blockno = (s.cache.buf i).blockno :=
    congrArg Address.blockno (same i).1
  refine ⟨fun i set => ?_, fun i live => ?_, fun i valid clean => ?_, fun i valid => ?_, fun addr known clean => ?_, ?_⟩
  · rw [dirty] at set
    exact ⟨kept i set, (same i).2.1.trans (mapped.kept i set).2⟩
  · rw [(same i).1]
    rcases live with valid | counted
    · exact mapped.asked i (.inl ((same i).2.1 ▸ valid))
    · exact asked i counted
  · rw [(same i).2.2, disk, block]
    exact mapped.stored i ((same i).2.1 ▸ valid) (dirty ▸ clean)
  · rw [(same i).2.2, trace, block]
    exact mapped.current i ((same i).2.1 ▸ valid)
  · rw [disk, trace]
    refine mapped.flushed addr known fun i here => ?_
    rw [← dirty]
    exact clean i ((block i).trans here)
  · rw [trace]
    exact mapped.transparent

theorem breadReturn (mapped : Mapped image asks s) (valid : (s.cache.buf r.buf).valid = true)
    (named : (s.cache.buf r.buf).addr = r.addr) : Mapped image asks (s.breadReturn call r) := by
  have seen : (s.cache.buf r.buf).data = latest image s.trace r.addr.blockno := by
    rw [mapped.current r.buf valid, ← named]
    rfl
  refine ⟨mapped.kept, mapped.asked, mapped.stored, ?_, ?_, mapped.transparent.read seen⟩
  · simp only [System.breadReturn, latest_read]
    exact mapped.current
  · simp only [System.breadReturn, latest_read]
    exact mapped.flushed

section Separate
variable (separate : ∀ a b, asks a → asks b → sector a.blockno = sector b.blockno → a = b)

include separate

theorem apart (mapped : Mapped image asks s) (held : Held s) {j : Fin nbuf}
    (first : (s.cache.buf i).valid = true ∨ (s.cache.buf i).refcnt ≠ 0)
    (second : (s.cache.buf j).valid = true ∨ (s.cache.buf j).refcnt ≠ 0)
    (same : sector (s.cache.buf i).blockno = sector (s.cache.buf j).blockno) : i = j :=
  held.apart first second (separate _ _ (mapped.asked i first) (mapped.asked j second) same)

section

variable (mapped : Mapped image asks s) (held : Held s) (refers : s.ref call = some r)
include mapped held refers

theorem fill (reading : r.phase = .reading) :
    Mapped image asks { s with cache := s.cache.fill s.disk r.buf } := by
  have invalid := held.pending call r refers reading
  have used := held.used refers
  have clean : s.dirty r.buf = false := by
    by_contra set
    rw [(mapped.kept r.buf (by simpa using set)).2] at invalid
    cases invalid
  have flushed : s.disk (sector (s.cache.buf r.buf).blockno) = latest image s.trace (s.cache.buf r.buf).blockno := by
    refine mapped.flushed (s.cache.buf r.buf).addr (mapped.asked r.buf (.inr used)) fun j here => ?_
    by_contra set
    have dirty := mapped.kept j (by simpa using set)
    rw [mapped.apart separate held (.inr dirty.1) (.inr used) (congrArg sector here)] at set
    exact set clean
  refine ⟨fun i set => ?_, fun i live => ?_, fun i valid kept => ?_, fun i valid => ?_, fun addr known kept => ?_,
    mapped.transparent⟩ <;> simp only [Bcache.fill] at *
  · rcases eq_or_ne i r.buf with rfl | distinct
    · simpa using used
    · simpa only [set_buf_of_ne distinct] using mapped.kept i set
  · rcases eq_or_ne i r.buf with rfl | distinct
    · rw [set_buf_self]
      exact mapped.asked _ (.inr used)
    · rw [set_buf_of_ne distinct] at live ⊢
      exact mapped.asked i live
  · rcases eq_or_ne i r.buf with rfl | distinct
    · simp
    · rw [set_buf_of_ne distinct] at valid ⊢
      exact mapped.stored i valid kept
  · rcases eq_or_ne i r.buf with rfl | distinct
    · simpa using flushed
    · rw [set_buf_of_ne distinct] at valid ⊢
      exact mapped.current i valid
  · refine mapped.flushed addr known fun i here => kept i ?_
    rcases eq_or_ne i r.buf with rfl | distinct
    · simpa using here
    · rwa [set_buf_of_ne distinct]

theorem modify (holding : r.phase = .holding) (data : Block) :
    Mapped image asks { s with
      cache := s.cache.modify r.buf data
      dirty := update s.dirty r.buf true
      trace := s.trace ++ [.write r.addr data] } := by
  have valid := held.filled call r refers holding
  have used := held.used refers
  have block : (s.cache.buf r.buf).blockno = r.addr.blockno := congrArg Address.blockno (held.named call r refers)
  refine ⟨fun i set => ?_, fun i live => ?_, fun i kept clean => ?_, fun i kept => ?_, fun addr known clean => ?_,
    mapped.transparent.write⟩ <;> simp only [Bcache.modify, latest_write] at *
  · rcases eq_or_ne i r.buf with rfl | distinct
    · simpa using ⟨used, valid⟩
    · rw [update_of_ne distinct] at set
      simpa only [set_buf_of_ne distinct] using mapped.kept i set
  · rcases eq_or_ne i r.buf with rfl | distinct
    · rw [set_buf_self]
      exact mapped.asked _ (.inr used)
    · rw [set_buf_of_ne distinct] at live ⊢
      exact mapped.asked i live
  · rcases eq_or_ne i r.buf with rfl | distinct
    · simp at clean
    · rw [set_buf_of_ne distinct] at kept ⊢
      rw [update_of_ne distinct] at clean
      exact mapped.stored i kept clean
  · rcases eq_or_ne i r.buf with rfl | distinct
    · simp [block]
    · rw [set_buf_of_ne distinct] at kept ⊢
      rw [update_of_ne, mapped.current i kept]
      intro same
      exact distinct (mapped.apart separate held (.inl kept) (.inr used) (congrArg sector (same.trans block.symm)))
  · have other : addr.blockno ≠ r.addr.blockno := by
      intro same
      have dirty := clean r.buf (by rw [set_buf_self, same]; exact block)
      simp at dirty
    rw [update_of_ne other]
    refine mapped.flushed addr known fun i here => ?_
    have distinct : i ≠ r.buf := by
      rintro rfl
      exact other (here.symm.trans block)
    have kept := clean i (by rwa [set_buf_of_ne distinct])
    rwa [update_of_ne distinct] at kept

theorem bwrite (holding : r.phase = .holding) :
    Mapped image asks { s with
      disk := update s.disk (sector (s.cache.buf r.buf).blockno) (s.cache.buf r.buf).data
      dirty := update s.dirty r.buf false } := by
  have valid := held.filled call r refers holding
  have used := held.used refers
  refine ⟨fun i set => ?_, mapped.asked, fun i kept clean => ?_, mapped.current, fun addr known clean => ?_,
    mapped.transparent⟩
  · rcases eq_or_ne i r.buf with rfl | distinct
    · simp at set
    · simp only [update_of_ne distinct] at set
      exact mapped.kept i set
  · rcases eq_or_ne i r.buf with rfl | distinct
    · simp
    · simp only [update_of_ne distinct] at clean
      change _ = update s.disk _ _ (sector (s.cache.buf i).blockno)
      rw [update_of_ne]
      · exact mapped.stored i kept clean
      exact fun same => distinct (mapped.apart separate held (.inl kept) (.inr used) same)
  · change update s.disk _ _ (sector addr.blockno) = _
    by_cases same : sector addr.blockno = sector (s.cache.buf r.buf).blockno
    · have here := separate _ _ known (mapped.asked r.buf (.inr used)) same
      rw [same, update_self, here]
      exact mapped.current r.buf valid
    · rw [update_of_ne same]
      refine mapped.flushed addr known fun i here => ?_
      have distinct : i ≠ r.buf := by
        rintro rfl
        exact same (congrArg sector here.symm)
      have kept := clean i here
      simpa only [update_of_ne distinct] using kept

end

omit separate in
theorem recycle (mapped : Mapped image asks s) {addr : Address} (free : (s.cache.buf i).refcnt = 0)
    (known : asks addr) (call : ℕ) : Mapped image asks { s.setRef call (some ⟨.waiting, i, addr⟩) with
      cache := s.cache.set i
        { s.cache.buf i with dev := addr.dev, blockno := addr.blockno, valid := false, refcnt := 1 } } := by
  have clean : s.dirty i = false := by
    by_contra set
    exact (mapped.kept i (by simpa using set)).1 free
  refine ⟨fun j set => ?_, fun j live => ?_, fun j valid kept => ?_, fun j valid => ?_, fun other asked kept => ?_,
    mapped.transparent⟩ <;> simp only [setRef] at *
  · rcases eq_or_ne j i with rfl | distinct
    · simp [clean] at set
    · simpa only [set_buf_of_ne distinct] using mapped.kept j set
  · rcases eq_or_ne j i with rfl | distinct
    · rw [set_buf_self]
      exact known
    · rw [set_buf_of_ne distinct] at live ⊢
      exact mapped.asked j live
  · rcases eq_or_ne j i with rfl | distinct
    · simp at valid
    · rw [set_buf_of_ne distinct] at valid ⊢
      exact mapped.stored j valid kept
  · rcases eq_or_ne j i with rfl | distinct
    · simp at valid
    · rw [set_buf_of_ne distinct] at valid ⊢
      exact mapped.current j valid
  · refine mapped.flushed other asked fun j here => ?_
    rcases eq_or_ne j i with rfl | distinct
    · exact clean
    · exact kept j (by rwa [set_buf_of_ne distinct])

omit separate in
/-- A buffer keeps its contents, and its lock or reference count changes. -/
private theorem frame_one (mapped : Mapped image asks s) {locked : Bool} {refcnt : UInt32}
    (disk : s'.disk = s.disk) (dirty : s'.dirty = s.dirty) (trace : s'.trace = s.trace)
    (cache : s'.cache.buf = (s.cache.set i { s.cache.buf i with locked, refcnt }).buf)
    (kept : s.dirty i = true → refcnt ≠ 0) (asked : asks (s.cache.buf i).addr) : Mapped image asks s' := by
  refine mapped.frame disk dirty trace (fun j => ?_) (fun j set => ?_) (fun j used => ?_) <;> rw [cache] at *
  · rcases eq_or_ne j i with rfl | distinct
    · rw [set_buf_self]
      exact ⟨rfl, rfl, rfl⟩
    · rw [set_buf_of_ne distinct]
      exact ⟨rfl, rfl, rfl⟩
  · rcases eq_or_ne j i with rfl | distinct
    · rw [set_buf_self]
      exact kept set
    · rw [set_buf_of_ne distinct]
      exact (mapped.kept j set).1
  · rcases eq_or_ne j i with rfl | distinct
    · exact asked
    · rw [set_buf_of_ne distinct] at used
      exact mapped.asked j (.inr used)

theorem step (mapped : Mapped image asks s) (held : Held s) (counts : s.Counts act)
    (known : ∀ call addr, act = .bget call addr → asks addr) (enabled : s.step? act = some s') :
    Mapped image asks s' := by
  cases System.Step.of_step? enabled with
  | @bget call addr cache i idle found =>
    rcases Bcache.bget?_cases found with ⟨hit, rfl⟩ | ⟨missing, free, rfl⟩
    · refine mapped.frame_one rfl rfl rfl rfl (fun _ => ?_) ?_
      · intro zero
        have added := Held.toNat_succ (counts i hit)
        rw [zero] at added
        cases added
      · rw [(Bcache.lookup?_eq_some hit).1]
        exact known call addr rfl
    · exact mapped.recycle free (known call addr rfl) call
  | noBuffers | miss => exact { mapped with }
  | acquire refers | release refers =>
    exact mapped.frame_one rfl rfl rfl rfl (fun _ => held.used refers) (mapped.asked _ (.inr (held.used refers)))
  | @hit call r refers testing valid => exact mapped.breadReturn valid (held.named call r refers)
  | @fill call r refers reading =>
    refine (mapped.fill separate held refers reading).breadReturn ?_ ?_
    · simp [Bcache.fill]
    · rw [← held.named call r refers]
      simp only [Bcache.fill, Bcache.set_buf_self]
      rfl
  | modify refers holding => exact mapped.modify separate held refers holding _
  | bwrite refers holding => exact mapped.bwrite separate held refers holding
  | @brelse call r refers releasing allowed =>
    have buffers : (s.cache.brelse r.buf).buf =
        (s.cache.set r.buf { s.cache.buf r.buf with refcnt := (s.cache.buf r.buf).refcnt - 1 }).buf := by
      unfold Bcache.brelse
      split <;> rfl
    refine mapped.frame_one rfl rfl rfl buffers (fun set => ?_) (mapped.asked _ (.inr (held.used refers)))
    simpa [System.mayDrop, set] using allowed
  | bpin used =>
    refine mapped.frame_one rfl rfl rfl rfl (fun _ zero => ?_) (mapped.asked _ (.inr used))
    have added := Held.toNat_succ counts
    rw [zero] at added
    cases added
  | bunpin pinned allowed =>
    refine mapped.frame_one rfl rfl rfl rfl (fun set => ?_) (mapped.asked _ (.inr (held.used_of_pinned pinned)))
    simpa [System.mayDrop, set] using allowed

end Separate

end Mapped

/-- The addresses that are asked for have sectors of their own, as on one device with fewer than `2 ^ 31`
blocks. -/
def OwnSectors (acts : List Act) : Prop :=
  ∀ a ∈ requests acts, ∀ b ∈ requests acts, sector a.blockno = sector b.blockno → a = b

instance (acts : List Act) : Decidable (OwnSectors acts) := inferInstanceAs (Decidable (∀ a ∈ _, ∀ b ∈ _, _ → _))

/-- In every run of disciplined callers no two buffers hold the same block of a device other than 0, and
a buffer that is referred to keeps its block. When the addresses have sectors of their own and no
reference count overflows, each `bread` returns what was last given to its block. -/
theorem cache_transparent (image : Disk) {acts : List Act} {s : System}
    (reached : run? System.step? (.boot image) acts = some s) :
    (∀ i j, (s.cache.buf i).addr = (s.cache.buf j).addr → (s.cache.buf i).dev ≠ 0 → i = j) ∧
      (∀ act s' i, s.step? act = some s' → (s.cache.buf i).refcnt ≠ 0 →
        (s'.cache.buf i).addr = (s.cache.buf i).addr) ∧
      (OwnSectors acts → Along System.step? System.Counts (.boot image) acts → Transparent image s.trace) := by
  have keyed : Keyed s.cache := by
    refine run?_history System.step? (fun _ s => Keyed s.cache) ⟨Bcache.Placed.binit.complete,
      fun _ _ _ device => absurd rfl device⟩ ?_ reached
    exact fun _ _ _ _ _ keyed enabled => keyed.step? enabled
  refine ⟨keyed.unique, fun act s' i enabled used => ?_, fun separate counts => ?_⟩
  · obtain ⟨-, same | ⟨j, addr, -, free, -, others⟩⟩ := System.step?_addr enabled
    · exact same i
    · refine others i ?_
      rintro rfl
      exact used free
  · have along : Along System.step? (fun s act => s.Counts act ∧
        ∀ call addr, act = .bget call addr → addr ∈ requests acts) (.boot image) acts := by
      intro past act rest middle split before
      refine ⟨counts past act rest middle split before, ?_⟩
      rintro call addr rfl
      simp [requests, split]
    obtain ⟨-, mapped⟩ : Held s ∧ Mapped image (· ∈ requests acts) s :=
      run?_along _ along (fun _ s => Held s ∧ Mapped image (· ∈ requests acts) s) ⟨.boot image, .boot image _⟩
        (fun _ _ _ _ ⟨held, mapped⟩ ⟨counts, known⟩ enabled =>
          ⟨held.step counts enabled,
            mapped.step (fun a b first second => separate a first b second) held counts known enabled⟩) reached
    exact mapped.transparent

/-- A call of `bread` that nobody disturbs. -/
def bread (call : ℕ) (addr : Address) : List Act := [.bget call addr, .acquire call, .test call, .fill call]

/-- Block 5 is modified, written and released. The other buffers come into use, so its buffer is recycled for block 6,
and again when block 5 is read. -/
def recycling : List Act :=
  bread 0 ⟨1, 5⟩ ++ [.modify 0 (Vector.replicate bsize 7), .bwrite 0, .release 0, .brelse 0] ++
    (List.range 29).map (fun k => .bget (k + 1) ⟨1, UInt32.ofNat (100 + k)⟩) ++
    bread 30 ⟨1, 6⟩ ++ [.release 30, .brelse 30] ++ bread 31 ⟨1, 5⟩

theorem bsize_pos : 0 < bsize := by decide

/-- The block and the first byte that were seen or given. -/
def Io.firstByte : Io → UInt32 × UInt8
  | .read addr data | .write addr data => (addr.blockno, data.get ⟨0, bsize_pos⟩)

theorem trace_recycling : (run? System.step? (.boot fun _ => Vector.replicate bsize 0) recycling).map
    (fun s => s.trace.map Io.firstByte) = some [(5, 0), (5, 7), (6, 0), (5, 7)] := by decide +kernel

theorem cache_transparent_recycling :
    ∃ s, run? System.step? (.boot fun _ => Vector.replicate bsize 0) recycling = some s ∧
    s.trace.map Io.firstByte = [(5, 0), (5, 7), (6, 0), (5, 7)] ∧
    Transparent (fun _ => Vector.replicate bsize 0) s.trace := by
  obtain ⟨s, reached, seen⟩ := Option.map_eq_some_iff.mp trace_recycling
  exact ⟨s, reached, seen, (cache_transparent _ reached).2.2 (by decide +kernel) (by decide +kernel)⟩

/-- The state after a `bread` that misses. -/
def System.fetched (s : System) (call : ℕ) (addr : Address) (i : Fin nbuf) : System :=
  { s with
    cache := s.cache.set i ⟨addr.dev, addr.blockno, true, true, 1, s.disk (sector addr.blockno)⟩
    ref := Function.update s.ref call (some ⟨.holding, i, addr⟩)
    trace := s.trace ++ [.read addr (s.disk (sector addr.blockno))] }

theorem run?_bread {s : System} (call : ℕ) (addr : Address) (running : s.panic = false)
    (idle : s.ref call = none) (missing : s.cache.lookup? addr = none) (free : s.cache.unused? = some i)
    (unlocked : (s.cache.buf i).locked = false) :
    run? step? s (bread call addr) = some (s.fetched call addr i) := by
  simp [run?, bread, step?, bget?, running, idle, missing, free, unlocked, at?, Option.filter,
    setRef, setLocked, Bcache.set, breadReturn, fill, fetched]

/-- A caller modifies block 5 of device 1; then another one reads block 5 of device 2. -/
def twoDevices (data : Block) : List Act := bread 0 ⟨1, 5⟩ ++ ([.modify 0 data] ++ bread 1 ⟨2, 5⟩)

/-- The driver ignores the device, so the second caller is served old data from the same disk. -/
theorem run?_twoDevices (old new : Block) : ∃ s, run? step? (.boot fun _ => old) (twoDevices new) = some s ∧
    s.trace = [.read ⟨1, 5⟩ old, .write ⟨1, 5⟩ new, .read ⟨2, 5⟩ old] := by
  let oldest : Fin nbuf := ⟨0, by decide⟩
  let first : System := (boot fun _ => old).fetched 0 ⟨1, 5⟩ oldest
  let changed : System :=
    { first with
      cache := first.cache.modify oldest new
      dirty := update first.dirty oldest true
      trace := first.trace ++ [.write ⟨1, 5⟩ new] }
  have fetched : run? step? (.boot fun _ => old) (bread 0 ⟨1, 5⟩) = some first :=
    run?_bread 0 ⟨1, 5⟩ rfl rfl (by rfl) (by rfl) rfl
  have again : run? step? changed (bread 1 ⟨2, 5⟩) = some (changed.fetched 1 ⟨2, 5⟩ ⟨1, by decide⟩) :=
    run?_bread 1 ⟨2, 5⟩ rfl rfl (by rfl) (by rfl) rfl
  exact ⟨_, (run?_append _).mpr ⟨first, fetched, (run?_append _).mpr ⟨changed, rfl, again⟩⟩, rfl⟩

theorem cache_not_transparent : ∃ s, run? System.step? (.boot fun _ => Vector.replicate bsize 0)
    (twoDevices (Vector.replicate bsize 7)) = some s ∧ ¬ Transparent (fun _ => Vector.replicate bsize 0) s.trace := by
  obtain ⟨s, reached, seen⟩ := run?_twoDevices (Vector.replicate bsize 0) (Vector.replicate bsize 7)
  refine ⟨s, reached, fun transparent => ?_⟩
  have stale := transparent [.read ⟨1, 5⟩ (Vector.replicate bsize 0), .write ⟨1, 5⟩ (Vector.replicate bsize 7)]
    ⟨2, 5⟩ (Vector.replicate bsize 0) [] seen
  have same : (0 : UInt8) = 7 := congrArg (fun block : Block => block.get ⟨0, by decide⟩) stale
  exact absurd same (by decide)

end Xv6.Fs.Bio
