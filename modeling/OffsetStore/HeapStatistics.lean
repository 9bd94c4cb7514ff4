import OffsetStore.AllocatorLedger
import OffsetStore.FirstFit
import OffsetStore.ValidatedHeap

/- allocator_get_stats in every quiet state of every run: the numbers of the physical walk
   are those of the free lists and of the live allocations. -/
namespace OffsetStore
open ByteMemory Program Prog Words Tiling CellChain Pool

section Count

/-- The blocks counted as free, and the others. -/
def freeBlocks (blocks : List Block) : List Block := blocks.filter fun b => b.use = .free
def heldBlocks (blocks : List Block) : List Block := blocks.filter fun b => ¬b.use = .free

def AllocatorStats.countView (stats : AllocatorStats) (b : Block) : AllocatorStats :=
  stats.countBlock b.size (if b.use = .free then 1 else 0)

/-- The walk adds up what it meets as long as nothing overflows. -/
theorem count_blocks (blocks : List Block) (stats : AllocatorStats)
    (room : stats.freeBytes + stats.usedBytes + (blocks.map Block.size).sum < 2 ^ 64)
    (few : stats.freeBlockCount + blocks.length < 2 ^ 64) :
    blocks.foldl AllocatorStats.countView stats =
      { stats with
        freeBytes := stats.freeBytes + ((freeBlocks blocks).map Block.size).sum
        usedBytes := stats.usedBytes + ((heldBlocks blocks).map Block.size).sum
        largestFreeBlock := ((freeBlocks blocks).map Block.size).foldl max stats.largestFreeBlock
        freeBlockCount := stats.freeBlockCount + (freeBlocks blocks).length } := by
  induction blocks generalizing stats with
  | nil => rfl
  | cons b rest ih =>
    rw [List.map_cons, List.sum_cons] at room
    rw [List.length_cons] at few
    rw [List.foldl_cons]
    by_cases free : b.use = .free
    · have counted : stats.countView b = { stats with
          freeBytes := stats.freeBytes + b.size
          largestFreeBlock := max stats.largestFreeBlock b.size
          freeBlockCount := stats.freeBlockCount + 1 } := by
        have larger : (if b.size > stats.largestFreeBlock then b.size else stats.largestFreeBlock) =
            max stats.largestFreeBlock b.size := by
          split <;> omega
        unfold AllocatorStats.countView AllocatorStats.countBlock
        rw [if_pos free, if_pos (by decide), add64_eq (by omega), add64_eq (by omega), larger]
      rw [counted, ih _ (by simp only; omega) (by simp only; omega)]
      simp [freeBlocks, heldBlocks, free, Nat.add_assoc, Nat.add_comm 1]
    · have counted : stats.countView b = { stats with usedBytes := stats.usedBytes + b.size } := by
        unfold AllocatorStats.countView AllocatorStats.countBlock
        rw [if_neg free, if_neg (by decide), add64_eq (by omega)]
      rw [counted, ih _ (by simp only; omega) (by simp only; omega)]
      simp [freeBlocks, heldBlocks, free, Nat.add_assoc]

theorem free_held_perm (blocks : List Block) : (freeBlocks blocks ++ heldBlocks blocks).Perm blocks := by
  have split := List.filter_append_perm (fun b : Block => decide (b.use = .free)) blocks
  simpa [freeBlocks, heldBlocks] using split

end Count

section Walk
variable {region : ShmRegion} {m : Mem} {n base : Nat}

/-- The statistics of a walk that ends well: it has met the given blocks and nothing after them. -/
theorem stats_of_tiles (map : region.Mapped) (total : region.size = n) (header : HeaderRepr n base m)
    {blocks : List Nat} {t stop fuel : Nat} {stats out : AllocatorStats}
    (tiles : Tiles id (blockSizeOf m) (base + t) stop blocks) (valid : ∀ b ∈ blocks, ValidBlock n m b)
    (least : stop ≤ n) (near : n < stop + 32)
    (value : burst m (statsWalk region (headerAddress region) fuel t stats) = ([], ret (.ok out))) :
    stop = n ∧ out = blocks.foldl (fun stats b => stats.countBlock (blockSizeOf m b) (load m (b + 16) 4)) stats := by
  induction blocks generalizing t fuel stats with
  | nil =>
    have finish : base + t = stop := tiles
    cases fuel with
    | zero => simp [statsWalk] at value
    | succ fuel =>
      rw [burst_stats_at map total header] at value
      by_cases more : t < n - base
      · have rejected : StatsRejects n base m t := Or.inl (by omega)
        rw [if_pos more, if_pos rejected] at value
        simp at value
      · rw [if_neg more] at value
        refine ⟨by omega, ?_⟩
        simpa using value.symm
  | cons b rest ih =>
    obtain ⟨first, positive, tail⟩ := tiles
    have here : b = base + t := first
    subst here
    have good := valid (base + t) (by simp)
    have start := good.positive
    have bound := good.fits
    have inside := good.header
    have long := good.least
    cases fuel with
    | zero => simp [statsWalk] at value
    | succ fuel =>
      rw [burst_stats_at map total header, if_pos (by omega), if_neg (by unfold StatsRejects; omega)] at value
      rw [Nat.add_assoc] at tail
      exact ih tail (fun c mem => valid c (List.mem_cons_of_mem _ mem)) value

end Walk

section View
variable {region : ShmRegion} {m : Mem} {n : Nat} {V : HeapView}

theorem HeapInv.flag_word (inv : HeapInv n m V) (intact : V.Intact) {s : Nat} (shard : s < 4) {b : Block}
    (mem : b ∈ (V s).blocks) : load m (b.start + 16) 4 = if b.use = .free then 1 else 0 := by
  have use := ((inv.shards s shard).repr b mem).use
  unfold UseRepr at use
  cases kind : b.use with
  | free =>
    rw [kind] at use
    rw [if_pos rfl]
    exact use.1
  | leaked => exact absurd kind (intact s shard b mem)
  | live a =>
    rw [kind] at use
    rw [if_neg (by simp)]
    exact use.1

/-- The free list of a shard and the free blocks of the shard are the same blocks. -/
theorem HeapInv.free_perm (inv : HeapInv n m V) {s : Nat} (shard : s < 4) :
    (V s).free.Perm ((freeBlocks (V s).blocks).map Block.start) := by
  have shardInv := inv.shards s shard
  have distinct : ((freeBlocks (V s).blocks).map Block.start).Nodup := by
    refine (List.Nodup.filter _ (tiles_nodup shardInv.tiles)).map_on ?_
    intro b mb c mc same
    exact tiles_start_injective shardInv.tiles (List.mem_filter.mp mb).1 (List.mem_filter.mp mc).1 same
  rw [List.perm_ext_iff_of_nodup shardInv.nodup distinct]
  intro x
  rw [shardInv.free_iff, List.mem_map]
  constructor
  · rintro ⟨b, mb, start, free⟩
    exact ⟨b, List.mem_filter.mpr ⟨mb, by simpa using free⟩, start⟩
  · rintro ⟨b, mb, start⟩
    obtain ⟨mb, free⟩ := List.mem_filter.mp mb
    exact ⟨b, mb, start, by simpa using free⟩

def allListed (free : Nat → List Nat) : List Nat := free 0 ++ (free 1 ++ (free 2 ++ free 3))

theorem HeapInv.listed_perm (inv : HeapInv n m V) :
    (allListed fun s => (V s).free).Perm ((freeBlocks V.allBlocks).map Block.start) := by
  have free : ∀ s, s < 4 → (V s).free.Perm ((freeBlocks (V s).blocks).map Block.start) := fun s shard => inv.free_perm shard
  have split : (freeBlocks V.allBlocks).map Block.start = (freeBlocks (V 0).blocks).map Block.start ++
      ((freeBlocks (V 1).blocks).map Block.start ++ ((freeBlocks (V 2).blocks).map Block.start ++
        (freeBlocks (V 3).blocks).map Block.start)) := by
    simp [freeBlocks, HeapView.allBlocks]
  rw [split]
  exact (free 0 (by omega)).append ((free 1 (by omega)).append ((free 2 (by omega)).append (free 3 (by omega))))

theorem HeapInv.stats_value (inv : HeapInv n m V) (intact : V.Intact) (map : region.Mapped) (total : region.size = n)
    {fuel : Nat} {stats : AllocatorStats}
    (value : burst m (allocatorGetStats fuel region) = ([], ret (.ok stats))) :
    shardStart heapBase n 4 = n ∧ stats =
      { heapSize := n - heapBase
        freeBytes := ((freeBlocks V.allBlocks).map Block.size).sum
        usedBytes := ((heldBlocks V.allBlocks).map Block.size).sum
        largestFreeBlock := ((freeBlocks V.allBlocks).map Block.size).foldl max 0
        freeBlockCount := (freeBlocks V.allBlocks).length
        allocationFailures := load m 2720 8 } := by
  have user := map.user
  have room := inv.room
  have tiles := inv.all_tiles
  have bound : shardStart heapBase n 4 ≤ n ∧ n < shardStart heapBase n 4 + 4 := by
    unfold shardStart shardSize
    omega
  have sum := tiles_sum tiles
  have large : ∀ b ∈ V.allBlocks, 56 ≤ b.size := by
    intro b mem
    obtain ⟨s, shard, mb⟩ := HeapView.mem_allBlocks.mp mem
    exact (inv.shards s shard).large b mb
  have short := tiles_length_bound tiles large
  unfold heapBase at room
  unfold allocatorGetStats at value
  simp only [allocatorHeader_eq map (total ▸ (by omega : 2728 ≤ n))] at value
  rw [burst_bind_of_ret (burst_header_valid map total inv.header)] at value
  simp only [Bool.not_true, Bool.false_eq_true, if_false] at value
  simp (disch := omega) only [headerAddress, allocatorMetadataOffset, RegionHeader.sizeof,
    AllocatorHeader.heapSize, AllocatorHeader.allocationFailures, load64_field] at value
  simp only [loadWord_bind, burst_read, Nat.reduceAdd, inv.header.heapSize] at value
  obtain ⟨whole, folded⟩ := stats_of_tiles (t := 0) map total inv.header inv.start_tiles (by
    intro x mem
    obtain ⟨b, mb, rfl⟩ := List.mem_map.mp mem
    obtain ⟨s, shard, mb⟩ := HeapView.mem_allBlocks.mp mb
    exact inv.valid_block shard mb) bound.1 (by omega) value
  refine ⟨whole, ?_⟩
  have same : (V.allBlocks.map Block.start).foldl
      (fun stats b => stats.countBlock (blockSizeOf m b) (load m (b + 16) 4)) ⟨n - heapBase, 0, 0, 0, 0, load m 2720 8⟩ =
      V.allBlocks.foldl AllocatorStats.countView ⟨n - heapBase, 0, 0, 0, 0, load m 2720 8⟩ := by
    rw [List.foldl_map]
    refine List.foldl_ext _ _ _ fun stats b mem => ?_
    obtain ⟨s, shard, mb⟩ := HeapView.mem_allBlocks.mp mem
    have size : blockSizeOf m b.start = b.size := ((inv.shards s shard).repr b mb).size
    rw [size, inv.flag_word intact shard mb]
    rfl
  rw [folded, same, count_blocks _ _ (by simp only; omega) (by simp only; omega)]
  simp

end View

/-- Statistics that say of the heap what is the case: of its blocks and free lists, its live payloads and the requests
    that found no room. The counter of the latter has 64 bits. -/
structure ExactStats (n : Nat) (m : Mem) (payloads : Set (Nat × Nat)) (failures : Nat) (stats : AllocatorStats)
    (blocks free : Nat → List Nat) (used : List Nat) : Prop where
  shards : ∀ s, s < 4 → ShardShape m s (blocks s) (free s)
  carried : PayloadShape n m blocks payloads
  distinct : used.Nodup
  carriers : ∀ b, b ∈ used ↔ ∃ s, s < 4 ∧ b ∈ blocks s ∧ ∃ x ∈ payloads, CarriesPayload m b x.1 x.2
  heap : stats.heapSize = heapSizeOf m
  count : stats.freeBlockCount = (allListed free).length
  freed : stats.freeBytes = ((allListed free).map (blockSizeOf m)).sum
  largest : stats.largestFreeBlock = ((allListed free).map (blockSizeOf m)).foldl max 0
  held : stats.usedBytes = (used.map (blockSizeOf m)).sum
  whole : stats.freeBytes + stats.usedBytes = heapSizeOf m
  failed : stats.allocationFailures = failures % 2 ^ 64
  empty : stats.usedBytes = 0 ↔ payloads = ∅

section Exactness
variable {n : Nat} {regions : Nat → ShmRegion} {before m : Mem} {S : Type} {handle : Sys → S → Int × S} {env env' : S}
  {st : State Sys HeapResult LedgerClient HeapRequest}

theorem HeapInv.exact_stats {V : HeapView} {region : ShmRegion} {failures fuel : Nat} {stats : AllocatorStats}
    (inv : HeapInv n m V) (intact : V.Intact) (small : n < 2 ^ 32) (map : region.Mapped) (total : region.size = n)
    (counter : load m 2720 8 = failures % 2 ^ 64)
    (value : burst m (allocatorGetStats fuel region) = ([], ret (.ok stats))) :
    ExactStats n m V.payloads failures stats (fun s => (V s).blocks.map Block.start) (fun s => (V s).free)
      ((heldBlocks V.allBlocks).map Block.start) := by
  have shape := inv.payload_shape intact small
  have size : ∀ b ∈ V.allBlocks, blockSizeOf m b.start = b.size := by
    intro b mem
    obtain ⟨s, shard, mb⟩ := HeapView.mem_allBlocks.mp mem
    exact ((inv.shards s shard).repr b mb).size
  have sizes : ∀ bs : List Block, (∀ b ∈ bs, b ∈ V.allBlocks) →
      (bs.map Block.start).map (blockSizeOf m) = bs.map Block.size := by
    intro bs sub
    rw [List.map_map]
    exact List.map_congr_left fun b mem => size b (sub b mem)
  have freeSizes := sizes (freeBlocks V.allBlocks) fun b mem => (List.mem_filter.mp mem).1
  have heldSizes := sizes (heldBlocks V.allBlocks) fun b mem => (List.mem_filter.mp mem).1
  have listed := inv.listed_perm.map (blockSizeOf m)
  rw [freeSizes] at listed
  obtain ⟨finish, rfl⟩ := inv.stats_value intact map total value
  have heap : heapSizeOf m = n - heapBase := inv.header.heapSize
  have tiles := inv.all_tiles
  have starts : (V.allBlocks.map Block.start).Nodup := tiles_nodup inv.start_tiles
  have held : ∀ b, b ∈ (heldBlocks V.allBlocks).map Block.start ↔ ∃ s, s < 4 ∧ b ∈ (V s).blocks.map Block.start ∧
      ∃ x ∈ V.payloads, CarriesPayload m b x.1 x.2 := by
    intro x
    rw [List.mem_map]
    constructor
    · rintro ⟨b, mem, rfl⟩
      obtain ⟨mem, kind⟩ := List.mem_filter.mp mem
      obtain ⟨s, shard, mb⟩ := HeapView.mem_allBlocks.mp mem
      have used : ¬isFreeBlock m b.start := by
        rw [inv.block_free_iff intact shard mb]
        simpa using kind
      exact ⟨s, shard, List.mem_map_of_mem mb, shape.all s shard _ (List.mem_map_of_mem mb) used⟩
    · rintro ⟨s, shard, mem, y, _, carries⟩
      obtain ⟨b, mb, rfl⟩ := List.mem_map.mp mem
      have used := carries.allocated
      rw [inv.block_free_iff intact shard mb] at used
      exact ⟨b, List.mem_filter.mpr ⟨HeapView.mem_allBlocks.mpr ⟨s, shard, mb⟩, by simpa using used⟩, rfl⟩
  refine ⟨fun s shard => inv.shard_shape intact shard, shape, ?_, held, heap.symm, ?_, ?_, ?_, ?_, ?_, counter, ?_⟩
  · exact starts.sublist (List.filter_sublist.map Block.start)
  · rw [inv.listed_perm.length_eq, List.length_map]
  · exact listed.sum_eq.symm
  · exact (listed.foldl_eq 0).symm
  · simp only [heldSizes]
  · have split := (free_held_perm V.allBlocks).map Block.size
    rw [List.map_append] at split
    have sum := split.sum_eq
    rw [List.sum_append] at sum
    have whole := tiles_sum tiles
    simp only
    omega
  · simp only
    constructor
    · intro zero
      rw [Set.eq_empty_iff_forall_notMem]
      intro x mem
      obtain ⟨s, shard, b, mb, carries⟩ := shape.carried x mem
      obtain ⟨c, mc, _⟩ := List.mem_map.mp ((held b).mpr ⟨s, shard, mb, x, mem, carries⟩)
      have none := List.sum_eq_zero_iff.mp zero c.size (List.mem_map_of_mem mc)
      have positive := (tiles_member_bounds tiles (List.mem_filter.mp mc).1).2.2
      omega
    · intro none
      have nothing : heldBlocks V.allBlocks = [] := by
        rw [List.eq_nil_iff_forall_not_mem]
        intro b mem
        obtain ⟨_, _, _, x, live, _⟩ := (held b.start).mp (List.mem_map_of_mem mem)
        rw [none] at live
        exact Set.notMem_empty x live
      rw [nothing]
      rfl

/-- Statistics are exact in every quiet state of every run. -/
theorem stats_exact (creator : Nat) (small : n < 2 ^ 32) (mapped : ∀ p, (regions p).Mapped)
    (sizes : ∀ p, (regions p).size = n)
    (init : run handle (allocatorInit (regions creator)) before env = some (.ok, m, env'))
    (runs : Reachable (ledgerRules regions) (ledgerOrigin m) st) (quiet : ∀ p, st.active p = none) {p fuel : Nat}
    {stats : AllocatorStats} {m' : Mem} {asker asker' : S}
    (asked : run handle (allocatorGetStats fuel (regions p)) st.mem asker = some (.ok stats, m', asker')) :
    ∃ blocks free used, ExactStats n st.mem st.client.1 st.client.2 stats blocks free used := by
  obtain ⟨V, failures, inv, reach, counter, idle⟩ := ledger_runs creator mapped sizes init runs
  obtain ⟨rfl, knows⟩ := idle quiet
  have known : V.payloads = st.client.1 := by
    ext x
    exact (knows x).symm
  rw [← known]
  exact ⟨_, _, _, inv.exact_stats (view_intact reach) small (mapped p) (sizes p) counter
    ((loads_stats fuel).ret_of_run asked)⟩

end Exactness

section Small

theorem HeapInv.stats_run {S : Type} {region : ShmRegion} {n : Nat} {m : Mem} {V : HeapView} (inv : HeapInv n m V)
    (aligned : n % 4 = 0) (map : region.Mapped) (total : region.size = n) (handle : Sys → S → Int × S) (s : S) :
    ∃ fuel stats m' s', run handle (allocatorGetStats fuel region) m s = some (.ok stats, m', s') := by
  obtain ⟨stats, value⟩ := burst_stats map total (valid_heap inv aligned)
  have completed : Completes handle (fun fuel => allocatorGetStats fuel region) m s fun result => result = .ok stats :=
    completes_of_burst fun fuel large => ⟨.ok stats, value fuel (Nat.lt_of_succ_le large), rfl⟩
  obtain ⟨enough, completes⟩ := completed
  obtain ⟨result, m', s', asked, rfl⟩ := completes enough (Nat.le_refl _)
  exact ⟨enough, stats, m', s', asked⟩

/-- A request for 4096 bytes finds no room in the fresh heap, however often it is made. -/
theorem refusals (k : Nat) : ∃ m, Reachable (ledgerRules fun _ => smallRegion) (ledgerOrigin initialised)
    ⟨m, (∅, k), fun _ => none⟩ ∧ HeapInv 4096 m (freshView 4096) ∧ load m 2720 8 = k % 2 ^ 64 := by
  induction k with
  | zero =>
    have zero := (run_allocatorInit_counted smallRegion_mapped rfl initialised_run).2
    exact ⟨initialised, .refl, initialised_inv, zero⟩
  | succ k ih =>
    obtain ⟨m, runs, inv, counter⟩ := ih
    have may : LedgerStart ∅ (.alloc 4096 4096 16) ∅ := .alloc 4096 (Or.inl (by decide)) (by decide)
    obtain ⟨i, pre, x, V', first, _, _⟩ | ⟨_, refused⟩ :=
      exec_alloc_fit inv smallRegion_mapped rfl (Nat.le_refl 4096) (show 0 < 4096 by decide) (Nat.le_refl 4096)
        (show 4 < 64 by decide) (show max 16 16 = 2 ^ 4 from rfl)
    · obtain ⟨post, listed⟩ := first.listed
      have shard := shardOfAttempt_lt 4096 i
      obtain ⟨b, mem, start, _⟩ := (inv.shards _ shard).block_of_free (x := x) (by simp [listed])
      have size := ((inv.shards _ shard).repr b mem).size
      have fits := first.fits
      have fresh := List.mem_singleton.mp mem
      subst fresh
      dsimp only at start size
      rw [← start, size] at fits
      have more : 4096 ≤ required (shardStart heapBase 4096 (shardOfAttempt 4096 i)) 4096 (2 ^ 4) := by
        unfold required
        simp only [roundUp_sixteen]
        omega
      have less : shardSize heapBase 4096 < 4096 := by decide
      omega
    · have result : exec (heapCode smallRegion (.alloc 4096 4096 16)) m =
          some (.allocated (.error .outOfMemory), store m 2720 8 (load m 2720 8 + 1)) := by
        unfold heapCode
        rw [exec_bind, refused]
        rfl
      have returned := ledger_call runs (p := 0) rfl may result (.refused 4096 4096 16 .outOfMemory)
      refine ⟨_, returned, inv.congr (SameOn.store (by omega)) (SameOn.store (by omega)), ?_⟩
      rw [load_store_mod]
      omega

/-- Two allocations are served and the first one is released, and a third request is refused. -/
theorem stats_exact_small : ∃ st m', Reachable (ledgerRules fun _ => smallRegion) (ledgerOrigin initialised) st ∧
    st.client = ({(3120, 200)}, 1) ∧
    run (fun (_ : Sys) (s : Unit) => (0, s)) (allocatorGetStats 8 smallRegion) st.mem () =
      some (.ok ⟨1360, 1104, 256, 340, 5, 1⟩, m', ()) ∧
    ∃ blocks free used, ExactStats 4096 st.mem {(3120, 200)} 1 ⟨1360, 1104, 256, 340, 5, 1⟩ blocks free used := by
  have served : ((exec (allocatorAlloc 8 smallRegion 100 64) initialised).bind fun one =>
      (exec (allocatorAlloc 8 smallRegion 200 16) one.2).bind fun two =>
        (exec (allocatorFree smallRegion (add64 smallRegion.base 2816)) two.2).bind fun out =>
          (exec (allocatorAlloc 8 smallRegion 5000 16) out.2).bind fun three =>
            (run (fun (_ : Sys) (s : Unit) => (0, s)) (allocatorGetStats 8 smallRegion) three.2 ()).map fun asked =>
              ((one.1, two.1), (out.1, three.1), asked.1)) =
      some ((.ok (add64 smallRegion.base 2816), .ok (add64 smallRegion.base 3120)), (.ok, .error .outOfMemory),
        .ok ⟨1360, 1104, 256, 340, 5, 1⟩) := by decide +kernel
  have init := initialised_run
  generalize initialised = m at served init ⊢
  obtain ⟨⟨one, m₁⟩, run₁, served⟩ := Option.bind_eq_some_iff.mp served
  obtain ⟨⟨two, m₂⟩, run₂, served⟩ := Option.bind_eq_some_iff.mp served
  obtain ⟨⟨out, m₃⟩, run₃, served⟩ := Option.bind_eq_some_iff.mp served
  obtain ⟨⟨three, m₄⟩, run₄, served⟩ := Option.bind_eq_some_iff.mp served
  obtain ⟨⟨stats, m₅, ⟨⟩⟩, asked, same⟩ := Option.map_eq_some_iff.mp served
  simp only [Prod.mk.injEq] at same
  obtain ⟨⟨rfl, rfl⟩, ⟨rfl, rfl⟩, rfl⟩ := same
  have may : ∀ live {size alignment}, size < 2 ^ 62 → alignment < 2 ^ 64 → LedgerStart live (.alloc 8 size alignment) live :=
    fun _ _ _ sized word => .alloc 8 (Or.inl sized) word
  have origin : Reachable (ledgerRules fun _ => smallRegion) (ledgerOrigin m) ⟨m, (∅, 0), fun _ => none⟩ := .refl
  have first := ledger_call origin (p := 0) rfl (may ∅ (by decide) (by decide))
    (exec_bind_of_some run₁ _) (.allocated 8 100 64 _)
  rw [show smallRegion.offsetOf (add64 smallRegion.base 2816) = 2816 by decide] at first
  have second := ledger_call first (p := 1) rfl (may _ (by decide) (by decide)) (exec_bind_of_some run₂ _)
    (.allocated 8 200 16 _)
  rw [show smallRegion.offsetOf (add64 smallRegion.base 3120) = 3120 by decide] at second
  have held : (2816, 100) ∈ insert (3120, 200) (insert (2816, 100) (∅ : LivePayloads)) := by simp
  have freed := ledger_call second (p := 0) rfl (.free held) (exec_bind_of_some run₃ _) (.freed 2816 100)
  have refused := ledger_call freed (p := 1) rfl (may _ (by decide) (by decide)) (exec_bind_of_some run₄ _)
    (.refused 8 5000 16 .outOfMemory)
  have client : insert (3120, 200) (insert (2816, 100) (∅ : LivePayloads)) \ {(2816, 100)} = {(3120, 200)} := by
    ext x
    simp only [Set.mem_sdiff, Set.mem_insert_iff, Set.mem_empty_iff_false, or_false, Set.mem_singleton_iff]
    grind
  rw [client] at refused
  exact ⟨_, m₅, refused, rfl, asked, stats_exact (p := 0) 0 (by decide) (fun _ => smallRegion_mapped) (fun _ => rfl) init
    refused (fun _ => rfl) asked⟩

/-- The counter of the failures has 64 bits: it is zero again after 2^64 of them. -/
theorem failures_wrap : ∃ st fuel stats m', run (fun (_ : Sys) (s : Unit) => (0, s)) (allocatorInit smallRegion)
      (fun _ => 0) () = some (.ok, initialised, ()) ∧
    Reachable (ledgerRules fun _ => smallRegion) (ledgerOrigin initialised) st ∧ (∀ p, st.active p = none) ∧
    run (fun (_ : Sys) (s : Unit) => (0, s)) (allocatorGetStats fuel smallRegion) st.mem () = some (.ok stats, m', ()) ∧
    st.client.2 = 2 ^ 64 ∧ stats.allocationFailures = 0 := by
  obtain ⟨m, runs, inv, counter⟩ := refusals (2 ^ 64)
  obtain ⟨fuel, stats, m', ⟨⟩, asked⟩ := inv.stats_run (by decide) smallRegion_mapped rfl
    (fun (_ : Sys) (s : Unit) => (0, s)) ()
  refine ⟨_, fuel, stats, m', initialised_run, runs, fun _ => rfl, asked, rfl, ?_⟩
  obtain ⟨_, same⟩ := inv.stats_value (fresh_intact 4096) smallRegion_mapped rfl ((loads_stats fuel).ret_of_run asked)
  rw [same]
  exact counter

end Small

end OffsetStore
