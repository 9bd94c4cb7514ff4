import OffsetStore.HeapChange

/- The calls of the allocator on a heap that carries a view: what one attempt on a
   shard and one release come to, as a single uninterrupted burst. -/
namespace OffsetStore
open ByteMemory Program Prog Words Tiling CellChain

/-- The critical section of one attempt of allocator_alloc; `again` goes on with the
   remaining shards. -/
def allocSection (fuel : Nat) (region : ShmRegion) (header tryShard size alignment : Nat)
    (again : Code (Except OffsetStoreStatus Nat)) : Code (Except OffsetStoreStatus Nat) := do
  let valid ← allocatorHeaderValid region header
  if !valid then allocExit tryShard (.error .invalidState)
  else
    let link := add64 header (AllocatorHeader.shardFreeListHeads + 8 * tryShard)
    let currentOffset ← region.load64 link 0
    let found ← allocWalk region header tryShard size alignment fuel link currentOffset
    match found with
    | some result => return result
    | none => again

theorem allocShards_succ (fuel : Nat) (region : ShmRegion) (header shard size alignment left : Nat) :
    allocShards fuel region header shard size alignment (left + 1) =
      (do
        let tryShard := (shard + (shardCount - (left + 1))) % shardCount
        let lockResult ← Prog.request (.mutexLock (shardMutex tryShard))
        noteShardLock tryShard lockResult
        if lockResult ≠ 0 then return .error .systemError
        allocSection fuel region header tryShard size alignment
          (allocShards fuel region header shard size alignment left)) := rfl

theorem exec_noteShardLock (s : Nat) (m : Mem) : exec (noteShardLock s 0) m = some ((), m) := by
  unfold noteShardLock
  simp only [request_bind, perform_bind, exec_call]
  split
  · rfl
  · rfl

/-- Leaving a critical section of allocator_alloc. -/
def exitCalls {α : Type} (s : Nat) (rest : Code α) : Code α :=
  call (.mutexUnlock (shardMutex s)) fun _ => call (.setHeldShard (-1)) fun _ => rest

section Section
variable {n s size alignment fuel : Nat} {region : ShmRegion} {m : Mem} {V : HeapView}

theorem head_link (region : ShmRegion) (shard : s < 4) :
    LinkAt region (add64 (headerAddress region) (AllocatorHeader.shardFreeListHeads + 8 * s))
      (headCell s) := by
  unfold LinkAt ShmRegion.offsetOf headerAddress sub64 add64
  simp only [headCell, allocatorMetadataOffset, RegionHeader.sizeof,
    AllocatorHeader.shardFreeListHeads]
  omega

theorem HeapInv.nodes (inv : HeapInv n m V) (shard : s < 4) :
    ∀ x ∈ (V s).free, Node heapBase n s x := by
  intro x mem
  obtain ⟨b, mb, start, _⟩ := (inv.shards s shard).block_of_free mem
  have inside := (inv.shards s shard).bounds mb
  have finish := shardStart_end_le (Nat.le_of_lt inv.base_lt) shard
  exact ⟨by omega, by omega, by omega⟩

/-- No shard lists more nodes than it has blocks. -/
theorem HeapInv.free_length_le (inv : HeapInv n m V) (shard : s < 4) :
    (V s).free.length ≤ (V s).blocks.length := by
  have shardInv := inv.shards s shard
  have sub : (V s).free ⊆ (V s).blocks.map Block.start := by
    intro x mem
    obtain ⟨b, mb, start, _⟩ := shardInv.block_of_free mem
    exact List.mem_map.mpr ⟨b, mb, start⟩
  have bound := (shardInv.nodup.subperm sub).length_le
  rwa [List.length_map] at bound

/-- Walks along a free list need less fuel than the region has bytes. -/
theorem HeapInv.free_short (inv : HeapInv n m V) (shard : s < 4) : (V s).free.length < n := by
  have few := inv.free_length_le shard
  have blocks := tiles_length_bound (inv.shards s shard).tiles (inv.shards s shard).large
  have start := shardStart_ge n s
  have finish := shardStart_end_le (Nat.le_of_lt inv.base_lt) shard
  omega

theorem burst_walk_exit (again : Code (Except OffsetStoreStatus Nat))
    (found : Option (Except OffsetStoreStatus Nat)) (m : Mem) :
    burst m (allocExit s found >>= fun found =>
      match found with
      | some result => pure result
      | none => again) =
      ([], exitCalls s (match found with | some result => ret result | none => again)) := by
  cases found <;> simp [allocExit, exitCalls]

/-- What an attempt on shard s comes to, with its stores as the walk chose the block. -/
inductive Probe (n : Nat) (region : ShmRegion) (m : Mem) (V : HeapView) (fuel s size alignment : Nat)
    (again : Code (Except OffsetStoreStatus Nat)) :
    List Store × Code (Except OffsetStoreStatus Nat) → Prop where
  | took {pre post : List Nat} {x : Nat} {a : Alloc} (list : (V s).free = pre ++ x :: post)
      (fits : a.InBlock s x (load m x 8)) (sized : a.size = size) (aligned : a.align = alignment) :
      Probe n region m V fuel s size alignment again
        (takeStores m s (cellAfter 8 (headCell s) pre) x (a.ptr - x) (required x a.size a.align),
          exitCalls s (ret (.ok (add64 region.base a.ptr))))
  | full (none : ∀ b ∈ (V s).blocks, b.use = .free → b.size < required b.start size alignment)
      (enough : (V s).free.length < fuel) :
      Probe n region m V fuel s size alignment again ([], exitCalls s again)
  | refused (bad : ¬∃ k, alignment = 2 ^ k) (positive : 0 < fuel) :
      Probe n region m V fuel s size alignment again
        ([], exitCalls s (ret (.error .invalidArgument)))
  | spent (short : fuel ≤ (V s).free.length) :
      Probe n region m V fuel s size alignment again ([], spin)

/-- What the allocator reads of the heap in m is the same in m': its header, the list heads
    and the free blocks. -/
structure Shows (n : Nat) (V : HeapView) (m m' : Mem) : Prop where
  head : SameOn m m' 2496 2720
  free : ∀ s, s < 4 → ∀ b ∈ (V s).blocks, b.use = .free → SameOn m m' b.start (b.start + b.size)

theorem shows_self (n : Nat) (V : HeapView) (m : Mem) : Shows n V m m :=
  ⟨SameOn.refl m _ _, fun _ _ _ _ _ => SameOn.refl m _ _⟩

theorem Shows.header {m' : Mem} (shows : Shows n V m m') (header : HeaderRepr n heapBase m) : HeaderRepr n heapBase m' :=
  header.congr (shows.head.narrow (by omega) (by omega))

theorem Shows.head_word {m' : Mem} (shows : Shows n V m m') (shard : s < 4) :
    load m' (headCell s) 8 = load m (headCell s) 8 :=
  load_congr (shows.head.narrow (by rw [headCell_eq]; omega) (by rw [headCell_eq]; omega))

/-- The size and the link of a free block. -/
theorem Shows.words {m' : Mem} (shows : Shows n V m m') (inv : HeapInv n m V) (shard : s < 4) {x : Nat}
    (mem : x ∈ (V s).free) : load m' x 8 = load m x 8 ∧ load m' (x + 8) 8 = load m (x + 8) 8 := by
  obtain ⟨b, mb, rfl, free⟩ := (inv.shards s shard).block_of_free mem
  have room := (inv.shards s shard).large b mb
  have same := shows.free s shard b mb free
  exact ⟨load_congr (same.narrow (by omega) (by omega)), load_congr (same.narrow (by omega) (by omega))⟩

theorem Shows.chain {m' : Mem} (shows : Shows n V m m') (inv : HeapInv n m V) (shard : s < 4) :
    Chain (fun c => load m' c 8) 8 (headCell s) (V s).free :=
  chain_move (inv.shards s shard).chain (shows.head_word shard) fun _ mem => (shows.words inv shard mem).2

theorem burst_walk_probe {m' : Mem} {k : Nat} (inv : HeapInv n m V) (shows : Shows n V m m') (map : region.Mapped)
    (total : region.size = n) (shard : s < 4) (positive : 0 < size) (sized : size + 2 ^ k + 70 ≤ 2 ^ 64)
    (least : 16 ≤ 2 ^ k) (small : k < 64) (again : Code (Except OffsetStoreStatus Nat)) :
    Probe n region m V fuel s size (2 ^ k) again
      (burst m' (allocWalk region (headerAddress region) s (roundUp size 16) (2 ^ k) fuel
          (add64 (headerAddress region) (AllocatorHeader.shardFreeListHeads + 8 * s)) (load m' (headCell s) 8) >>=
        fun found => match found with
        | some result => pure result
        | none => again)) := by
  have user := map.user
  have shardInv := inv.shards s shard
  rcases burst_walk map total (shows.header inv.header) shard sized small fuel (head_link region shard)
      (shows.chain inv shard) (inv.nodes shard) with
    ⟨pre, x, post, link', list, short, smaller, fits, at', same⟩ | ⟨none, short, same⟩ | ⟨short, same⟩
  · have listed : x ∈ (V s).free := by simp [list]
    have words := shows.words inv shard listed
    obtain ⟨b, mb, start, free⟩ := shardInv.block_of_free listed
    have inside := shardInv.bounds mb
    have finish := shardStart_end_le (Nat.le_of_lt inv.base_lt) shard
    have width := (shardInv.repr b mb).size
    rw [start] at width
    have room : payloadPtr x (2 ^ k) - x + size ≤ required x size (2 ^ k) :=
      payload_end_le_required x size (2 ^ k)
    have low : x + 40 ≤ payloadPtr x (2 ^ k) := payloadPtr_ge least
    have stores := burst_take (s := s) map total at' (p := payloadPtr x (2 ^ k) - x)
      (by omega) (by omega) fits (by omega)
    have place : add64 (add64 region.base x) (payloadPtr x (2 ^ k) - x) =
        add64 region.base (payloadPtr x (2 ^ k)) := by
      unfold add64
      omega
    rw [burst_bind_congr same, burst_bind_of_call stores]
    simp only [call_bind, ret_bind, place]
    unfold takeStores
    rw [words.1, words.2]
    rw [words.1] at fits
    exact Probe.took list (a := ⟨x, s, payloadPtr x (2 ^ k), size, 2 ^ k⟩)
      ⟨rfl, rfl, positive, ⟨k, rfl⟩, least, rfl, fits⟩ rfl rfl
  · rw [burst_bind_congr same, burst_walk_exit]
    refine Probe.full ?_ short
    intro b mb free
    have mem : b.start ∈ (V s).free := (shardInv.free_iff b.start).mpr ⟨b, mb, rfl, free⟩
    have below := none b.start mem
    rwa [(shows.words inv shard mem).1, (shardInv.repr b mb).size] at below
  · rw [burst_bind, same]
    exact Probe.spent short

/-- An alignment that is no power of two is refused at the first block of the list. -/
theorem burst_walk_odd {m' : Mem} (inv : HeapInv n m V) (shows : Shows n V m m') (map : region.Mapped)
    (total : region.size = n) (shard : s < 4) (odd : ¬∃ k, alignment = 2 ^ k) (link : Nat)
    (again : Code (Except OffsetStoreStatus Nat)) :
    Probe n region m V fuel s size alignment again
      (burst m' (allocWalk region (headerAddress region) s (roundUp size 16) alignment fuel link
          (load m' (headCell s) 8) >>=
        fun found => match found with
        | some result => pure result
        | none => again)) := by
  have chain := shows.chain inv shard
  cases fuel with
  | zero => exact Probe.spent (Nat.zero_le _)
  | succ fuel =>
    cases list : (V s).free with
    | nil =>
      rw [list] at chain
      rw [show load m' (headCell s) 8 = 0 from chain, allocWalk]
      simp only [offsetPtrIsNull, decide_true, if_true]
      rw [burst_walk_exit]
      refine Probe.full ?_ (by simp [list])
      intro b mb free
      have mem : b.start ∈ (V s).free := ((inv.shards s shard).free_iff b.start).mpr ⟨b, mb, rfl, free⟩
      rw [list] at mem
      simp at mem
    | cons x rest =>
      rw [list] at chain
      rw [show load m' (headCell s) 8 = x from chain.1]
      have node := inv.nodes shard x (by simp [list])
      rw [burst_bind_congr (burst_walk_refused map total (shows.header inv.header) shard odd node chain.2.1),
        burst_walk_exit]
      exact Probe.refused odd (by omega)

theorem burst_section_probe {m' : Mem} (inv : HeapInv n m V) (shows : Shows n V m m') (map : region.Mapped)
    (total : region.size = n) (shard : s < 4) (positive : 0 < size)
    (sized : size < 2 ^ 62 ∨ size + alignment + 70 ≤ 2 ^ 64) (least : 16 ≤ alignment) (word : alignment < 2 ^ 64)
    (again : Code (Except OffsetStoreStatus Nat)) :
    Probe n region m V fuel s size alignment again
      (burst m' (allocSection fuel region (headerAddress region) s (roundUp size 16) alignment again)) := by
  have cell : ∀ f : Nat → Code (Except OffsetStoreStatus Nat),
      (region.load64 (add64 (headerAddress region) (AllocatorHeader.shardFreeListHeads + 8 * s)) 0 >>= f)
        = Prog.read (headCell s) 8 f := by
    intro f
    rw [ShmRegion.load64, head_link region shard]
    rfl
  unfold allocSection
  rw [burst_bind_of_ret (burst_header_valid map total (shows.header inv.header))]
  simp only [Bool.not_true, Bool.false_eq_true, if_false]
  rw [cell, burst_read]
  by_cases power : ∃ k, alignment = 2 ^ k
  · obtain ⟨k, rfl⟩ := power
    have small : k < 64 := (Nat.pow_lt_pow_iff_right (by omega)).mp word
    have half : 2 ^ k ≤ 2 ^ 63 := Nat.pow_le_pow_right (by omega) (by omega)
    exact burst_walk_probe inv shows map total shard positive (by omega) least small again
  · exact burst_walk_odd inv shows map total shard power _ again

end Section

/-- Alignments below that of max_align_t are raised to it. -/
theorem effective_alignment (alignment : Nat) :
    (if alignment < alignofMax then alignofMax else alignment) = max alignment 16 := by
  by_cases less : alignment < 16
  · rw [if_pos (by simpa using less)]
    exact (Nat.max_eq_right (Nat.le_of_lt less)).symm
  · rw [if_neg (by simpa using less)]
    exact (Nat.max_eq_left (Nat.not_lt.mp less)).symm

theorem align_up_large {v : Nat} (large : 2 ^ 64 - 16 < v) : allocatorAlignUp v 16 = none := by
  unfold allocatorAlignUp sizeMax
  rw [if_neg (by decide), if_pos (by omega)]

/-- A request of no bytes, or of more than can be rounded up, is refused at once. -/
theorem alloc_refused {region : ShmRegion} {size : Nat} (fuel alignment : Nat) (bad : ¬(0 < size ∧ size ≤ 2 ^ 64 - 16)) :
    allocatorAlloc fuel region size alignment = ret (.error .invalidArgument) := by
  unfold allocatorAlloc
  by_cases zero : size = 0
  · rw [if_pos zero]
    rfl
  · rw [if_neg zero, show alignofMax = 16 from rfl, align_up_large (by omega)]
    rfl

/-- A request that passes the checks goes through the shards. -/
theorem burst_alloc {n base size alignment fuel : Nat} {region : ShmRegion} {m : Mem} (map : region.Mapped)
    (total : region.size = n) (room : 2728 ≤ n) (header : HeaderRepr n base m) (positive : 0 < size)
    (rounds : size ≤ 2 ^ 64 - 16) :
    burst m (allocatorAlloc fuel region size alignment) = burst m (allocShards fuel region (headerAddress region)
      (allocatorSelectShard (roundUp size 16)) (roundUp size 16) (max alignment 16) shardCount) := by
  unfold allocatorAlloc
  rw [if_neg (by omega)]
  simp only [effective_alignment]
  rw [show alignofMax = 16 from rfl, align_up_sixteen (by omega)]
  simp only [allocatorHeaderMut, allocatorHeader_eq map (by omega : 2728 ≤ region.size)]
  rw [burst_bind_of_ret (burst_header_valid map total header)]
  simp only [Bool.not_true, Bool.false_eq_true, if_false]

/-- The critical section of allocator_free. -/
def freeSection (region : ShmRegion) (header ptr blockOffset shard : Nat) :
    Code OffsetStoreStatus := do
  let valid ← allocatorHeaderValid region header
  if !valid then
    Prog.perform (.mutexUnlock (shardMutex shard))
    return .invalidState
  else
    match allocatorBlockFromOffset region blockOffset with
    | none => do
      Prog.perform (.mutexUnlock (shardMutex shard))
      return .invalidState
    | some block => do
      let payloadOffset ← region.load32 block BlockHeader.payloadOffset
      let expectedPayload := add64 block payloadOffset
      if expectedPayload ≠ ptr then
        Prog.perform (.mutexUnlock (shardMutex shard))
        return .invalidArgument
      else
        region.store32 block BlockHeader.flags blockFree
        region.store32 block BlockHeader.payloadOffset 0
        let head ← region.load64 header (AllocatorHeader.shardFreeListHeads + 8 * shard)
        region.store64 block BlockHeader.nextFree head
        region.store64 header (AllocatorHeader.shardFreeListHeads + 8 * shard) blockOffset
        Prog.perform (.mutexUnlock (shardMutex shard))
        Prog.perform (.setHeldShard (-1))
        return .ok

theorem freeLocked_eq (region : ShmRegion) (header ptr blockOffset shard : Nat) :
    freeLocked region header ptr blockOffset shard =
      (do
        let lockResult ← Prog.request (.mutexLock (shardMutex shard))
        noteShardLock shard lockResult
        if lockResult ≠ 0 then return .systemError
        freeSection region header ptr blockOffset shard) := rfl

def freeStores (m : Mem) (a : Alloc) : List Store :=
  releaseStores a.block (load m (headCell a.shard) 8) ++ [(headCell a.shard, 8, a.block)]

/-- What a release comes to: an offset of 2^32 or more did not fit its field. -/
inductive Release (n : Nat) (m : Mem) (V : HeapView) (a : Alloc) :
    List Store × Code OffsetStoreStatus → Prop where
  | done {V' : HeapView} (released : Released n m (applyStores m (freeStores m a)) V V' a)
      (near : a.ptr - a.block < 2 ^ 32) :
      Release n m V a (freeStores m a, exitCalls a.shard (ret .ok))
  | refused (far : 2 ^ 32 ≤ a.ptr - a.block) :
      Release n m V a
        ([], call (.mutexUnlock (shardMutex a.shard)) fun _ => ret .invalidArgument)

section Free
variable {n : Nat} {region : ShmRegion} {m : Mem} {V : HeapView} {a : Alloc}

/-- The header of a live block up to its payload, as memory that agrees with m there shows it. -/
theorem HeapInv.live_header {m' : Mem} (inv : HeapInv n m V) (live : V.Live a) (own : SameOn m m' a.block a.ptr) :
    ∃ s, s < 4 ∧ a.shard = s ∧ shardStart heapBase n s ≤ a.block ∧ a.block + 40 ≤ a.ptr ∧ a.ptr + a.size ≤ n ∧
      load m' (a.block + 16) 4 = 0 ∧ load m' (a.block + 20) 4 = s ∧
      load m' (a.block + 24) 4 = (a.ptr - a.block) % 2 ^ 32 ∧ load m' (a.ptr - 8) 8 = a.block := by
  obtain ⟨s, shard, b, mb, kind, fits, low, high⟩ := inv.live_block live
  have finish := shardStart_end_le (Nat.le_of_lt inv.base_lt) shard
  have ptrLow := fits.ptr_ge
  have ptrHigh := fits.ptr_le
  have repr := (inv.shards s shard).repr b mb
  have use := repr.use
  unfold UseRepr at use
  rw [kind] at use
  obtain ⟨flags, _, offset, prefixWord⟩ := use
  rw [fits.block] at own ⊢
  refine ⟨s, shard, fits.owner, low, ptrLow, by omega, ?_, ?_, ?_, ?_⟩
  · rw [load_congr (own.narrow (by omega) (by omega)), flags]
  · rw [load_congr (own.narrow (by omega) (by omega)), repr.shard]
  · rw [load_congr (own.narrow (by omega) (by omega)), offset]
  · rw [load_congr (own.narrow (by omega) (by omega)), prefixWord]

theorem burst_free_shown {m' : Mem} (inv : HeapInv n m V) (shows : Shows n V m m') (own : SameOn m m' a.block a.ptr)
    (map : region.Mapped) (total : region.size = n) (live : V.Live a) :
    burst m' (allocatorFree region (add64 region.base a.ptr)) =
      ([], freeLocked region (headerAddress region) (add64 region.base a.ptr) a.block a.shard) := by
  have user := map.user
  have positive := map.base_pos
  have room := inv.room
  unfold heapBase at room
  obtain ⟨s, shard, owner, start, ptrLow, ptrHigh, flags, shardWord, _, prefixWord⟩ := inv.live_header live own
  have low := shardStart_ge n s
  have address : add64 region.base a.ptr = region.base + a.ptr := add64_eq (by omega)
  have before : region.offsetOf (add64 (sub64 (add64 region.base a.ptr) 8) 0) = a.ptr - 8 := by
    unfold ShmRegion.offsetOf sub64 add64
    omega
  have block : allocatorBlockFromOffset region a.block = some (add64 region.base a.block) :=
    resolve_eq_some map (by omega) (by omega) (by simp only [BlockHeader.sizeof]; omega)
  unfold allocatorFree
  rw [if_neg (by omega)]
  simp only [allocatorHeaderMut, allocatorHeader_eq map (by omega)]
  rw [burst_bind_of_ret (burst_header_valid map total (shows.header inv.header))]
  simp only [Bool.not_true, Bool.false_eq_true, if_false]
  simp only [ShmRegion.load64, AllocationPrefix.sizeof, AllocationPrefix.blockOffset, before,
    loadWord_bind, burst_read, prefixWord, block]
  simp (disch := omega) only [BlockHeader.flags, BlockHeader.shard, load32_field]
  simp only [loadWord_bind, burst_read, flags]
  rw [if_neg (by simp), burst_read, shardWord, if_neg (by simp only [shardCount]; omega), owner]
  rfl

/-- Up to its lock, the release of a live payload finds the block and its shard. -/
theorem burst_free (inv : HeapInv n m V) (map : region.Mapped) (total : region.size = n)
    (live : V.Live a) :
    burst m (allocatorFree region (add64 region.base a.ptr)) =
      ([], freeLocked region (headerAddress region) (add64 region.base a.ptr) a.block a.shard) :=
  burst_free_shown inv (shows_self n V m) (SameOn.refl m _ _) map total live

theorem burst_freeSection_shown {m' : Mem} (inv : HeapInv n m V) (shows : Shows n V m m')
    (own : SameOn m m' a.block a.ptr) (map : region.Mapped) (total : region.size = n) (live : V.Live a) :
    Release n m V a (burst m' (freeSection region (headerAddress region) (add64 region.base a.ptr)
      a.block a.shard)) := by
  have user := map.user
  have positive := map.base_pos
  obtain ⟨s, shard, owner, start, ptrLow, ptrHigh, _, _, offset, _⟩ := inv.live_header live own
  have low := shardStart_ge n s
  have block : allocatorBlockFromOffset region a.block = some (add64 region.base a.block) :=
    resolve_eq_some map (by omega) (by omega) (by simp only [BlockHeader.sizeof]; omega)
  obtain ⟨t, ht, b, mb, kind, fits, _⟩ := inv.live_block live
  obtain ⟨V', released⟩ := inv.released (by omega) ht mb kind
  rw [← fits.owner, ← fits.block] at released
  have headWord := shows.head_word shard
  unfold freeSection
  rw [burst_bind_of_ret (burst_header_valid map total (shows.header inv.header))]
  simp only [Bool.not_true, Bool.false_eq_true, if_false]
  simp only [block]
  simp (disch := omega) only [BlockHeader.payloadOffset, load32_field]
  simp only [loadWord_bind, burst_read, offset]
  by_cases near : a.ptr - a.block < 2 ^ 32
  · have same : add64 (add64 region.base a.block) ((a.ptr - a.block) % 2 ^ 32) =
        add64 region.base a.ptr := by
      unfold add64
      omega
    rw [if_neg (not_not_intro same)]
    have done := Release.done released near
    unfold freeStores releaseStores at done
    rw [owner] at done ⊢
    simp (disch := omega) only [BlockHeader.flags, BlockHeader.nextFree, headerAddress,
      store32_field, store64_field, load64_field, allocatorMetadataOffset, RegionHeader.sizeof,
      AllocatorHeader.shardFreeListHeads]
    have place : 2496 + (192 + 8 * s) = headCell s := by
      simp only [headCell_eq]
      omega
    have kept : load (store (store m' (a.block + 16) 4 blockFree) (a.block + 24) 4 0)
        (2496 + (192 + 8 * s)) 8 = load m (headCell s) 8 := by
      rw [place, load_store_apart (by rw [headCell_eq]; omega),
        load_store_apart (by rw [headCell_eq]; omega), headWord]
    simp only [storeWord_bind, loadWord_bind, burst_write, burst_read, perform_bind, burst_call,
      pure_eq, kept]
    rw [place]
    exact done
  · have other : add64 (add64 region.base a.block) ((a.ptr - a.block) % 2 ^ 32) ≠
        add64 region.base a.ptr := by
      unfold add64
      omega
    rw [if_pos other]
    exact Release.refused (Nat.not_lt.mp near)

theorem burst_freeSection (inv : HeapInv n m V) (map : region.Mapped) (total : region.size = n)
    (live : V.Live a) :
    Release n m V a (burst m (freeSection region (headerAddress region) (add64 region.base a.ptr)
      a.block a.shard)) :=
  burst_freeSection_shown inv (shows_self n V m) (SameOn.refl m _ _) map total live

/-- The release of a live payload is its section. -/
theorem exec_free_section (inv : HeapInv n m V) (map : region.Mapped) (total : region.size = n) (live : V.Live a)
    {ws : List Store} {rest : Code OffsetStoreStatus}
    (leaves : burst m (freeSection region (headerAddress region) (add64 region.base a.ptr) a.block a.shard) = (ws, rest)) :
    exec (allocatorFree region (add64 region.base a.ptr)) m = exec rest (applyStores m ws) := by
  rw [exec_of_burst (burst_free inv map total live), freeLocked_eq]
  simp only [request_bind, applyStores_nil, exec_call]
  rw [exec_bind_of_some (exec_noteShardLock _ m), if_neg (by simp), exec_of_burst leaves]

/-- The release of a live payload whose offset fits its field. -/
theorem exec_free_near (inv : HeapInv n m V) (map : region.Mapped) (total : region.size = n) (live : V.Live a)
    (near : a.ptr - a.block < 2 ^ 32) :
    ∃ V', Released n m (applyStores m (freeStores m a)) V V' a ∧
      exec (allocatorFree region (add64 region.base a.ptr)) m = some (.ok, applyStores m (freeStores m a)) := by
  have release := burst_freeSection inv map total live
  generalize leaves : burst m (freeSection region (headerAddress region) (add64 region.base a.ptr) a.block a.shard) = out
    at release
  cases release with
  | refused far => omega
  | done released _ => exact ⟨_, released, exec_free_section inv map total live leaves⟩

/-- The release of any other live payload is refused. -/
theorem exec_free_far (inv : HeapInv n m V) (map : region.Mapped) (total : region.size = n) (live : V.Live a)
    (far : 2 ^ 32 ≤ a.ptr - a.block) :
    exec (allocatorFree region (add64 region.base a.ptr)) m = some (.invalidArgument, m) := by
  have release := burst_freeSection inv map total live
  generalize leaves : burst m (freeSection region (headerAddress region) (add64 region.base a.ptr) a.block a.shard) = out
    at release
  cases release with
  | done _ near => omega
  | refused _ => exact exec_free_section inv map total live leaves

end Free

end OffsetStore
