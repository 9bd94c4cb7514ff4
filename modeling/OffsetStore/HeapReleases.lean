import OffsetStore.HeapSessions
import OffsetStore.RequestSizes
import OffsetStore.Objects

/- One allocation or release after another, with nobody in between. The blocks of the
   allocations that stay keep their headers and their bytes. -/
namespace OffsetStore
open ByteMemory Program Prog Words Tiling CellChain Pool

/-- The heap goes from the allocations of S to those of S'; what is live before and after keeps
    its block and its bytes. -/
structure HeapStep (n : Nat) (S : Set Alloc) (m : Mem) (S' : Set Alloc) (m' : Mem) : Prop where
  heap : HeapLive n m' S'
  width : ∀ a ∈ S, a ∈ S' → load m' a.block 8 = load m a.block 8
  bytes : ∀ a ∈ S, a ∈ S' → SameOn m m' a.ptr (a.ptr + a.size)

section Steps
variable {n : Nat} {S S' S'' : Set Alloc} {m m' m'' : Mem} {a : Alloc}

theorem HeapStep.refl (heap : HeapLive n m S) : HeapStep n S m S m :=
  ⟨heap, fun _ _ _ => rfl, fun _ _ _ => SameOn.refl m _ _⟩

theorem HeapStep.trans (first : HeapStep n S m S' m') (second : HeapStep n S' m' S'' m'')
    (stays : ∀ a ∈ S, a ∈ S'' → a ∈ S') : HeapStep n S m S'' m'' := by
  refine ⟨second.heap, fun a before after => ?_, fun a before after => ?_⟩
  · have between := stays a before after
    rw [second.width a between after, first.width a before between]
  · have between := stays a before after
    exact (first.bytes a before between).trans (second.bytes a between after)

theorem HeapStep.span (step : HeapStep n S m S' m') (before : a ∈ S) (after : a ∈ S') : spanOf m' a = spanOf m a := by
  unfold spanOf
  rw [step.width a before after]

/-- The blocks in use, and their sizes, are those of before. -/
structure SameUse (m m' : Mem) : Prop where
  blocks : liveBlocks m' = liveBlocks m
  sizes : ∀ b ∈ liveBlocks m, blockSizeOf m' b = blockSizeOf m b

theorem HeapStep.same_use (step : HeapStep n S m S m') (heap : HeapLive n m S) : SameUse m m' := by
  refine ⟨by rw [step.heap.blocks, heap.blocks], fun b mem => ?_⟩
  rw [heap.blocks] at mem
  obtain ⟨a, ma, rfl⟩ := mem
  exact step.width a ma ma

/-- Different allocations have different blocks. -/
theorem HeapLive.block_injective (heap : HeapLive n m S) : Set.InjOn Alloc.block S := by
  obtain ⟨V, inv, _, live⟩ := heap
  intro a ma c mc same
  obtain ⟨s, small, b, mb, kind, fits, _⟩ := inv.live_block ((live a).mpr ma)
  obtain ⟨t, small', d, md, kind', fits', _⟩ := inv.live_block ((live c).mpr mc)
  have large := (inv.shards s small).large b mb
  have large' := (inv.shards t small').large d md
  rw [fits.block, fits'.block] at same
  rcases inv.blocks_apart small small' mb md with ⟨_, eq⟩ | apart | apart
  · rw [eq, kind'] at kind
    exact (Use.live.inj kind).symm
  · omega
  · omega

/-- An allocation too many shows in the blocks. -/
theorem HeapLive.not_same_use (before : HeapLive n m S) (after : HeapLive n m' (insert a S)) (fresh : a ∉ S) :
    ¬SameUse m m' := by
  intro same
  have blocks := same.blocks
  rw [after.blocks, before.blocks] at blocks
  have mem : a.block ∈ Alloc.block '' S := by
    rw [← blocks]
    exact Set.mem_image_of_mem _ (Set.mem_insert _ _)
  obtain ⟨c, mc, eq⟩ := mem
  have injective := after.block_injective
  have here := injective (Set.mem_insert_of_mem a mc) (Set.mem_insert a S) eq
  exact fresh (here ▸ mc)

end Steps

section Release
variable {n : Nat} {region : ShmRegion} {m : Mem} {S : Set Alloc} {a : Alloc}

theorem exec_release (map : region.Mapped) (total : region.size = n) (heap : HeapLive n m S) (mem : a ∈ S)
    (near : a.ptr - a.block < 2 ^ 32) :
    ∃ m', exec (allocatorFree region (add64 region.base a.ptr)) m = some (.ok, m') ∧ HeapStep n S m (S \ {a}) m' := by
  obtain ⟨V, inv, intact, live⟩ := heap
  have alive := (live a).mpr mem
  obtain ⟨s, shard, b, mb, kind, fits, _⟩ := inv.live_block alive
  obtain ⟨V', released, run⟩ := exec_free_near inv map total alive near
  have touch := releaseStores_touch (h := load m (headCell s) 8) (inv.shards s shard) mb
  refine ⟨_, run, ⟨_, released.inv, released.intact intact, fun c => ?_⟩, fun c before after => ?_, fun c before after => ?_⟩
  · rw [released.live c, live c]
    rfl
  · have kept := touch.width inv shard mb (Or.inl rfl) ((live c).mpr before) (by
      rw [kind]
      intro same
      exact after.2 (Use.live.inj same).symm)
    rw [← fits.owner, ← fits.block] at kept
    exact kept
  · exact released.payload c ((live c).mpr before) after.2

theorem exec_release_below (map : region.Mapped) (total : region.size = n) (heap : HeapLive n m S) {a : Alloc} (mem : a ∈ S)
    (near : a.ptr - a.block < 2 ^ 32) {status : OffsetStoreStatus}
    (run : exec (allocatorFree region (add64 region.base a.ptr)) m = some (status, m')) : SameOn m m' 0 2688 := by
  obtain ⟨V, inv, _, live⟩ := heap
  obtain ⟨V', released, freed⟩ := exec_free_near inv map total ((live a).mpr mem) near
  rw [freed] at run
  obtain ⟨_, rfl⟩ := Prod.mk.inj (Option.some.inj run)
  exact released.below

theorem HeapLive.store (heap : HeapLive n m S) (mem : a ∈ S) {o k v : Nat} (left : a.ptr ≤ o)
    (right : o + k ≤ a.ptr + a.size) : HeapLive n (ByteMemory.store m o k v) S ∧
      (∀ c ∈ S, load (ByteMemory.store m o k v) c.block 8 = load m c.block 8) ∧
      ∀ c ∈ S, c ≠ a → SameOn m (ByteMemory.store m o k v) c.ptr (c.ptr + c.size) := by
  have foot := heap.footprint
  obtain ⟨V, inv, intact, live⟩ := heap
  have alive := (live a).mpr mem
  refine ⟨⟨V, inv.write_payload alive (SameOff.store left right), intact, live⟩, fun c mc => ?_, fun c mc other => ?_⟩
  · obtain ⟨s, shard, b, mb, kind, fits, _⟩ := inv.live_block alive
    obtain ⟨t, small, d, md, kind', fits', _⟩ := inv.live_block ((live c).mpr mc)
    have low := fits.ptr_ge
    have high := fits.ptr_le
    have large := (inv.shards t small).large d md
    rw [fits'.block]
    refine load_store_apart ?_
    rcases inv.blocks_apart shard small mb md with ⟨_, eq⟩ | apart | apart
    · rw [← eq]
      omega
    · omega
    · omega
  · have apart := foot.disjoint mem mc fun same => other same.symm
    exact SameOn.store (by omega)

end Release

/-- The size of block x after an allocation from it, aligned to 16 bytes. -/
def takenWidth (m : Mem) (x size : Nat) : Nat :=
  if required x size 16 + 56 ≤ load m x 8 then required x size 16 else load m x 8

section Take
variable {n fuel : Nat} {region : ShmRegion} {m : Mem} {V : HeapView} {S : Set Alloc} {size : Nat}

/-- Bytes between the list heads and the heap belong to nobody. -/
theorem HeapStep.counted (heap : HeapLive n m S) {v : Nat} : HeapStep n S m S (store m 2720 8 v) := by
  have foot := heap.footprint
  obtain ⟨V, inv, intact, live⟩ := heap
  refine ⟨⟨V, inv.congr (SameOn.store (by omega)) (SameOn.store (by omega)), intact, live⟩, fun c mc _ => ?_,
    fun c mc _ => SameOn.store ?_⟩
  · obtain ⟨s, shard, b, mb, kind, fits, low, _⟩ := inv.live_block ((live c).mpr mc)
    have start := shardStart_ge n s
    rw [fits.block]
    exact load_store_apart (by omega)
  · have bounds := foot.bounds c mc
    unfold heapBase at bounds
    omega

/-- The link cell before a free block lies outside the size word of that block. -/
theorem HeapInv.cell_apart (inv : HeapInv n m V) {s x : Nat} {pre post : List Nat} (shard : s < 4)
    (listed : (V s).free = pre ++ x :: post) :
    cellAfter 8 (headCell s) pre + 8 ≤ x ∨ x + 8 ≤ cellAfter 8 (headCell s) pre := by
  obtain ⟨b, mb, rfl, free⟩ := (inv.shards s shard).block_of_free (x := x) (by simp [listed])
  have inside := (inv.shards s shard).bounds mb
  have first := shardStart_ge n s
  rcases (inv.shards s shard).free_cell listed with eq | ⟨d, md, _, eq⟩
  · rw [eq, headCell_eq]
    omega
  · have insideD := (inv.shards s shard).bounds md
    rcases tiles_apart (inv.shards s shard).tiles md mb with same | left | right
    · rw [same] at eq
      omega
    · omega
    · omega

/-- The request is served from the first block of the scan that is large enough. -/
structure Served (n : Nat) (m : Mem) (V : HeapView) (S : Set Alloc) (size : Nat) (a : Alloc) (m' : Mem) : Prop where
  stops : ∃ s pre, Stops m V (scanOrder V (allocatorSelectShard (roundUp size 16)) shardCount) size 16 s a.block pre
  sized : a.size = size
  aligned : a.align = 16
  place : a.ptr = payloadPtr a.block 16
  fresh : a ∉ S
  step : HeapStep n S m (insert a S) m'
  width : load m' a.block 8 = takenWidth m a.block size

/-- No block of the scan is large enough. -/
def Starved (m : Mem) (V : HeapView) (size : Nat) : Prop :=
  ∀ s x pre, ¬Stops m V (scanOrder V (allocatorSelectShard (roundUp size 16)) shardCount) size 16 s x pre

theorem exec_alloc_first (map : region.Mapped) (total : region.size = n) (enough : n ≤ fuel) (inv : HeapInv n m V)
    (intact : V.Intact) (live : ∀ a, V.Live a ↔ a ∈ S) (positive : 0 < size) (small : size ≤ 2 ^ 62) :
    (∃ a m', Served n m V S size a m' ∧
      exec (allocatorAlloc fuel region size 16) m = some (.ok (add64 region.base a.ptr), m')) ∨
    (Starved m V size ∧ ∃ e m', exec (allocatorAlloc fuel region size 16) m = some (.error e, m') ∧ HeapStep n S m S m') := by
  have user := map.user
  obtain ⟨s, pre, x, link, stops, at', runs⟩ | ⟨none, same⟩ := exec_alloc_scan map total enough inv positive (by omega)
    (show 4 < 64 by omega) (show max 16 16 = 2 ^ 4 by rfl)
  · obtain ⟨post, listed⟩ := stops.listed
    obtain ⟨b, mb, rfl, free⟩ := (inv.shards s stops.shard).block_of_free (x := x) (by simp [listed])
    have inside := (inv.shards s stops.shard).bounds mb
    have finish := shardStart_end_le (Nat.le_of_lt inv.base_lt) stops.shard
    have ptrLow : b.start + 40 ≤ payloadPtr b.start 16 := payloadPtr_ge (Nat.le_refl 16)
    have ptrHigh : payloadPtr b.start 16 < b.start + 40 + 16 := roundUp_lt (by omega)
    have rounded := roundUp_sixteen size
    have width := ((inv.shards s stops.shard).repr b mb).size
    obtain ⟨fit, V', taken, run⟩ := exec_stop_taken inv map total stops.shard positive
      (Nat.le_refl 4) listed at' (by simp only [Nat.reducePow]; omega) stops.stopped
    simp only [Nat.reducePow] at fit taken run
    have cell := (inv.shards s stops.shard).free_cell listed
    have large : 56 ≤ required b.start size 16 := required_ge positive (Nat.le_refl 16)
    have ends := payload_end_le_required b.start size 16
    have touch : Touches b (cellAfter 8 (headCell s) pre) (takeStores m s (cellAfter 8 (headCell s) pre) b.start
        (payloadPtr b.start 16 - b.start) (required b.start size 16)) := by
      refine takeStores_touch width ?_ ?_ ?_ ?_
      all_goals omega
    refine Or.inl ⟨carved s b.start size 16, _, ⟨⟨s, pre, stops⟩, rfl, rfl, rfl, fun mem => taken.fresh ((live _).mpr mem),
      ⟨⟨V', taken.inv, taken.intact intact, fun c => ?_⟩, fun c mc _ => ?_, fun c mc _ => ?_⟩, ?_⟩, runs _ _ run⟩
    · rw [taken.live c, live c, Set.mem_insert_iff, or_comm]
    · exact touch.width inv stops.shard mb cell ((live c).mpr mc) (by simp [free])
    · exact taken.payload c ((live c).mpr mc)
    · refine takeStores_width (by omega) ?_ ?_ large
      · omega
      · exact inv.cell_apart stops.shard listed
  · refine Or.inr ⟨fun s x pre stops => stops.not_passed none, _, _, same, ?_⟩
    exact HeapStep.counted ⟨V, inv, intact, live⟩

variable {a : Alloc} {m' : Mem}

/-- Only bytes in the payload of a have changed. -/
structure Scribbled (n : Nat) (S : Set Alloc) (a : Alloc) (m m' : Mem) : Prop where
  heap : HeapLive n m' S
  width : ∀ c ∈ S, load m' c.block 8 = load m c.block 8
  bytes : ∀ c ∈ S, c ≠ a → SameOn m m' c.ptr (c.ptr + c.size)

theorem Scribbled.refl (heap : HeapLive n m S) (a : Alloc) : Scribbled n S a m m :=
  ⟨heap, fun _ _ => rfl, fun _ _ _ => SameOn.refl m _ _⟩

theorem Scribbled.store (before : Scribbled n S a m m') (mem : a ∈ S) {o k v : Nat} (left : a.ptr ≤ o)
    (right : o + k ≤ a.ptr + a.size) : Scribbled n S a m (store m' o k v) := by
  obtain ⟨heap, width, bytes⟩ := before.heap.store mem left right (v := v)
  refine ⟨heap, fun c mc => ?_, fun c mc other => ?_⟩
  · rw [width c mc, before.width c mc]
  · exact (before.bytes c mc other).trans (bytes c mc other)

theorem Scribbled.release {m'' : Mem} (before : Scribbled n S a m m') (after : HeapStep n S m' (S \ {a}) m'') :
    HeapStep n S m (S \ {a}) m'' := by
  refine ⟨after.heap, fun c mc stays => ?_, fun c mc stays => ?_⟩
  · rw [after.width c mc stays, before.width c mc]
  · exact (before.bytes c mc stays.2).trans (after.bytes c mc stays)

/-- Bytes stored into a new payload are of no concern to the others. -/
theorem HeapStep.scribbled {m'' : Mem} (step : HeapStep n S m (insert a S) m') (fresh : a ∉ S)
    (bytes : Scribbled n (insert a S) a m' m'') : HeapStep n S m (insert a S) m'' := by
  refine ⟨bytes.heap, fun c mc after => ?_, fun c mc after => ?_⟩
  · rw [bytes.width c after, step.width c mc after]
  · exact (step.bytes c mc after).trans (bytes.bytes c after fun same => fresh (same ▸ mc))

theorem Served.scribbled (served : Served n m V S size a m') {m'' : Mem} (bytes : Scribbled n (insert a S) a m' m'') :
    Served n m V S size a m'' := by
  have mem : a ∈ insert a S := Set.mem_insert a S
  refine ⟨served.stops, served.sized, served.aligned, served.place, served.fresh,
    served.step.scribbled served.fresh bytes, ?_⟩
  rw [bytes.width a mem, served.width]

theorem exec_objectAlloc_first (map : region.Mapped) (total : region.size = n) (enough : n ≤ fuel) (inv : HeapInv n m V)
    (intact : V.Intact) (live : ∀ a, V.Live a ↔ a ∈ S) (type : Nat) {payloadSize : Nat} (small : payloadSize < 2 ^ 32) :
    (∃ a m', Served n m V S (16 + payloadSize) a m' ∧
      exec (objectStoreAlloc fuel region type payloadSize) m = some (.ok a.ptr, m')) ∨
    (Starved m V (16 + payloadSize) ∧ ∃ e m', exec (objectStoreAlloc fuel region type payloadSize) m = some (.error e, m') ∧
      HeapStep n S m S m') := by
  have user := map.user
  unfold objectStoreAlloc
  rw [if_neg (by simp only [uint32Max]; omega)]
  simp only [ObjectHeader.sizeof, alignofMax, show add64 16 payloadSize = 16 + payloadSize from add64_eq (by omega)]
  obtain ⟨a, m', served, run⟩ | ⟨starved, e, m', run, step⟩ :=
    exec_alloc_first map total enough inv intact live (show 0 < 16 + payloadSize by omega) (by omega)
  · have bounds := served.step.heap.footprint.bounds a (Set.mem_insert a S)
    have size := served.sized
    unfold heapBase at bounds
    have mem : a ∈ insert a S := Set.mem_insert a S
    have written := ((((Scribbled.refl served.step.heap a).store mem (o := a.ptr) (k := 4) (v := payloadSize) (by omega)
      (by omega)).store mem (o := a.ptr + 4) (k := 4) (v := type) (by omega) (by omega)).store mem (o := a.ptr + 8) (k := 4)
      (v := 0) (by omega) (by omega)).store mem (o := a.ptr + 12) (k := 4) (v := 0) (by omega) (by omega)
    refine Or.inl ⟨a, _, served.scribbled written, ?_⟩
    rw [exec_bind_of_some run]
    simp (disch := omega) only [ObjectHeader.size, ObjectHeader.type, ObjectHeader.flags, ObjectHeader.reserved, store32_field]
    rw [from_raw_eq_some map (by omega) (by omega)]
    rfl
  · refine Or.inr ⟨starved, e, m', ?_, step⟩
    rw [exec_bind_of_some run]
    rfl

theorem exec_objectRelease (map : region.Mapped) (total : region.size = n) (heap : HeapLive n m S) {a : Alloc} (mem : a ∈ S)
    (plain : a.align = 16) (whole : 16 ≤ a.size) (flags : Nat) :
    ∃ m', exec (objectRelease region (add64 region.base a.ptr) (load m a.ptr 4) flags) m = some (.ok, m') ∧
      HeapStep n S m (S \ {a}) m' ∧ SameOn m m' 0 2496 := by
  have user := map.user
  have near := heap.footprint.near a mem
  have bounds := heap.footprint.bounds a mem
  unfold heapBase at bounds
  unfold objectRelease
  simp (disch := omega) only [ObjectHeader.size, ObjectHeader.type, ObjectHeader.flags, ObjectHeader.reserved, store32_field]
  simp only [storeWord_bind, exec_write]
  have marked := ((((Scribbled.refl heap a).store mem (o := a.ptr + 8) (k := 4) (v := flags ||| objectFlagFreed) (by omega)
    (by omega)).store mem (o := a.ptr + 4) (k := 4) (v := 0) (by omega) (by omega)).store mem (o := a.ptr + 12) (k := 4)
    (v := objectFreedMark) (by omega) (by omega)).store mem (o := a.ptr + 0) (k := 4) (v := load m a.ptr 4) (by omega)
    (by omega)
  obtain ⟨m', run, step⟩ := exec_release map total marked.heap mem (by omega)
  have below := exec_release_below map total marked.heap mem (by omega) run
  refine ⟨m', run, marked.release step, fun x low high => ?_⟩
  rw [below x low (by omega), store_outside, store_outside, store_outside, store_outside]
  all_goals omega

/-- An object whose words pass the checks is released, and any other is refused. -/
theorem exec_objectFree_built (map : region.Mapped) (total : region.size = n) (enough : n ≤ fuel) (heap : HeapLive n m S)
    {a : Alloc} (mem : a ∈ S) (plain : a.align = 16) (whole : 16 ≤ a.size) :
    (Freeable m a ∧ ∃ m', exec (objectStoreFree fuel region a.ptr) m = some (.ok, m') ∧ HeapStep n S m (S \ {a}) m' ∧
      SameOn m m' 0 2496) ∨
    ¬Freeable m a ∧ exec (objectStoreFree fuel region a.ptr) m = some (.notFound, m) := by
  have near := heap.footprint.near a mem
  have held := heap
  obtain ⟨V, inv, intact, live⟩ := held
  rw [exec_burst, burst_objectFree inv map total ((live a).mpr mem) (by omega) whole enough, ← exec_burst]
  by_cases free : Freeable m a
  · rw [if_pos free]
    exact Or.inl ⟨free, exec_objectRelease map total heap mem plain whole (load m (a.ptr + 8) 4)⟩
  · rw [if_neg free]
    exact Or.inr ⟨free, rfl⟩

/-- An object goes when its words pass the checks, and nothing changes otherwise. -/
theorem exec_objectFree (map : region.Mapped) (total : region.size = n) (enough : n ≤ fuel) (heap : HeapLive n m S)
    (mem : a ∈ S) (plain : a.align = 16) (whole : 16 ≤ a.size) :
    ∃ status m', exec (objectStoreFree fuel region a.ptr) m = some (status, m') ∧
      (Freeable m a ∧ HeapStep n S m (S \ {a}) m' ∨ ¬Freeable m a ∧ m' = m) := by
  obtain ⟨free, m', run, step, _⟩ | ⟨kept, run⟩ := exec_objectFree_built map total enough heap mem plain whole
  · exact ⟨.ok, m', run, Or.inl ⟨free, step⟩⟩
  · exact ⟨.notFound, m, run, Or.inr ⟨kept, rfl⟩⟩

/-- An allocation fails and leaves the heap as it was, or returns an address in the region. -/
theorem exec_alloc_inside (map : region.Mapped) (total : region.size = n) (enough : n ≤ fuel) (heap : HeapLive n m S)
    (size : Nat) : ∃ result m', exec (allocatorAlloc fuel region size 16) m = some (result, m') ∧
      ((∃ e, result = .error e ∧ HeapStep n S m S m') ∨ ∃ p, 0 < p ∧ p < n ∧ result = .ok (add64 region.base p)) := by
  have held := heap
  obtain ⟨V, inv, _, _⟩ := held
  have user := map.user
  by_cases good : 0 < size ∧ size ≤ 2 ^ 64 - 16
  swap
  · rw [alloc_refused fuel 16 good]
    exact ⟨_, _, rfl, Or.inl ⟨_, rfl, HeapStep.refl heap⟩⟩
  obtain ⟨s, pre, x, link, stops, at', runs⟩ | ⟨_, same⟩ :=
    exec_alloc_scan map total enough inv good.1 good.2
      (show 4 < 64 by omega) (show max 16 16 = 2 ^ 4 by rfl)
  · obtain ⟨post, listed⟩ := stops.listed
    have apart := inv.cell_apart stops.shard listed
    obtain ⟨b, mb, rfl, free⟩ := (inv.shards s stops.shard).block_of_free (x := x) (by simp [listed])
    have inside := (inv.shards s stops.shard).bounds mb
    have first := shardStart_ge n s
    have finish := shardStart_end_le (Nat.le_of_lt inv.base_lt) stops.shard
    have width := ((inv.shards s stops.shard).repr b mb).size
    have ptrLow : b.start + 40 ≤ payloadPtr b.start (2 ^ 4) := payloadPtr_ge (Nat.le_refl 16)
    have ptrHigh : payloadPtr b.start (2 ^ 4) < b.start + 40 + 2 ^ 4 := roundUp_lt (by omega)
    by_cases refused : 2 ^ 64 - 16 < sumAt b.start size (2 ^ 4)
    · exact ⟨_, m, runs _ m (exec_stop_refused refused), Or.inl ⟨_, rfl, HeapStep.refl heap⟩⟩
    · have fit : roundUp (sumAt b.start size (2 ^ 4)) 16 ≤ load m b.start 8 := by
        by_contra excess
        exact stops.stopped ⟨by omega, by omega⟩
      obtain ⟨m', run, _, _⟩ := exec_take_any (s := s) map total at' (show 40 ≤ payloadPtr b.start (2 ^ 4) - b.start by omega)
        (by omega) fit (by omega) (by omega) apart
      refine ⟨_, m', runs _ m' ?_, Or.inr ⟨b.start + (payloadPtr b.start (2 ^ 4) - b.start), ?_, ?_, rfl⟩⟩
      · unfold stopAt
        rw [if_neg refused]
        exact run
      · omega
      · omega
  · exact ⟨_, _, same, Or.inl ⟨_, rfl, HeapStep.counted heap⟩⟩

theorem exec_load64 {α : Type} {off field : Nat} {f : Nat → Code α} (small : off + field < 2 ^ 64) :
    exec (region.load64 (add64 region.base off) field >>= f) m = exec (f (load m (off + field) 8)) m := by
  rw [load64_field small, loadWord_bind, exec_read]

theorem exec_store64 {α : Type} {off field v : Nat} {f : Unit → Code α} (small : off + field < 2 ^ 64) :
    exec (region.store64 (add64 region.base off) field v >>= f) m = exec (f ()) (store m (off + field) 8 v) := by
  rw [store64_field small, storeWord_bind, exec_write]

theorem exec_initLock (mutex : Nat) (m : Mem) : exec (containerInitLock mutex) m = some ((), m) := rfl

end Take

end OffsetStore
