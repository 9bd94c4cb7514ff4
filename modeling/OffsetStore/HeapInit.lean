import OffsetStore.HeapChange
import OffsetStore.Lib.Total
import OffsetStore.RegionState

/- allocator_init lays out the four shards: when it reports success, whatever the
   system calls answered, the heap carries one free block in each shard. -/
namespace OffsetStore
open ByteMemory Program Prog Words Tiling CellChain

/-- The view of a fresh heap. -/
def freshView (n : Nat) : HeapView := fun s =>
  ⟨[⟨shardStart heapBase n s, shardSize heapBase n, .free⟩], [shardStart heapBase n s]⟩

def shardStores (n s : Nat) : List Store :=
  let start := shardStart heapBase n s
  [(headCell s, 8, start), (start, 8, shardSize heapBase n), (start + 8, 8, 0), (start + 16, 4, 1),
    (start + 20, 4, s), (start + 24, 4, 0)]

section Init
variable {region : ShmRegion} {m : Mem} {n s : Nat} {answers : Sys → Int → Prop}

theorem fresh_not_live (n : Nat) (a : Alloc) : ¬(freshView n).Live a := by
  rintro ⟨s, _, b, mem, kind⟩
  rw [List.mem_singleton.mp mem] at kind
  exact absurd kind (by simp)

theorem fresh_intact (n : Nat) : (freshView n).Intact := by
  intro s _ b mem
  rw [List.mem_singleton.mp mem]
  simp

theorem shardStores_inv (room : heapBase + 224 ≤ n) (word : n < 2 ^ 64) (shard : s < 4) (m : Mem) :
    ShardInv (applyStores m (shardStores n s)) (shardStart heapBase n s)
      (shardStart heapBase n s + shardSize heapBase n) s (freshView n s) := by
  have start := shardStart_ge n s
  have finish := heap_end_le room shard
  have size : 56 ≤ shardSize heapBase n := by
    unfold shardSize
    omega
  have head := headCell_eq s
  refine ⟨⟨rfl, by simp only; omega, rfl⟩, ?_, ?_, ?_, by simp [freshView], ?_, by omega⟩
  · intro b mem
    rw [List.mem_singleton.mp mem]
    exact size
  · intro b mem
    rw [List.mem_singleton.mp mem]
    refine ⟨?_, ?_, ?_, ?_, ?_⟩
    all_goals simp (disch := omega) only [shardStores, applyStores_cons, applyStores_nil,
      load_store_apart, load_store_mod]
    all_goals omega
  · refine ⟨?_, by omega, ?_⟩
    · simp (disch := omega) only [shardStores, applyStores_cons, applyStores_nil, load_store_apart,
        load_store_mod]
      omega
    · simp only [Chain, shardStores, applyStores_cons, applyStores_nil]
      rw [load_store_apart (by omega), load_store_apart (by omega), load_store_apart (by omega)]
      exact (load_store_mod _ _ _ _).trans (Nat.zero_mod _)
  · intro x
    simp only [freshView, List.mem_singleton]
    constructor
    · intro eq
      exact ⟨_, rfl, eq.symm, rfl⟩
    · rintro ⟨b, eq, same, _⟩
      rw [← same, eq]

theorem shardStores_frame (room : heapBase + 224 ≤ n) (m : Mem) :
    ShardFrame n s m (applyStores m (shardStores n s)) := by
  have size : 56 ≤ shardSize heapBase n := by
    unfold shardSize
    omega
  intro a range head
  apply applyStores_outside
  intro w mem
  simp only [shardStores, List.mem_cons, List.not_mem_nil, or_false] at mem
  rcases mem with rfl | rfl | rfl | rfl | rfl | rfl <;> simp only <;> omega

theorem shardStores_below (n s : Nat) (m : Mem) :
    SameOn m (applyStores m (shardStores n s)) 0 2496 := by
  have start := shardStart_ge n s
  have head := headCell_eq s
  intro a _ below
  apply applyStores_outside
  intro w mem
  simp only [shardStores, List.mem_cons, List.not_mem_nil, or_false] at mem
  rcases mem with rfl | rfl | rfl | rfl | rfl | rfl <;> simp only <;> omega

/-- The failure counter lies between the list heads and the heap. -/
theorem shardStores_failures (n : Nat) (shard : s < 4) (m : Mem) :
    load (applyStores m (shardStores n s)) 2720 8 = load m 2720 8 := by
  have start := shardStart_ge n s
  have head := headCell_eq s
  simp (disch := omega) only [shardStores, applyStores_cons, applyStores_nil, load_store_apart]

/-- What a successful allocator_init leaves: a fresh heap, and the region header as it was. -/
structure Initialised (n : Nat) (m m' : Mem) : Prop where
  inv : HeapInv n m' (freshView n)
  below : SameOn m m' 0 2496

theorem silent_destroy (shard left : Nat) : Silent (destroyShardMutexes shard left) := by
  induction left with
  | zero => exact confined_ret
  | succ left ih => exact confined_call fun _ => ih

theorem silent_initShardMutexes (left : Nat) : Silent (initShardMutexes left) := by
  induction left with
  | zero => exact confined_ret
  | succ left ih =>
    rw [initShardMutexes]
    simp only [request_bind]
    refine confined_call fun r => ?_
    split
    · exact confined_bind (silent_destroy _ _) fun _ => confined_ret
    · exact ih

theorem returns_initShardBlocks (map : region.Mapped) (total : region.size = n)
    (room : heapBase + 224 ≤ n) {left : Nat} (some : left ≤ 4)
    (header : HeaderRepr n heapBase m)
    (done : ∀ s, s + left < 4 → ShardInv m (shardStart heapBase n s)
      (shardStart heapBase n s + shardSize heapBase n) s (freshView n s)) :
    Returns answers (fun ok m' => ok = true ∧ Initialised n m m' ∧ load m' 2720 8 = load m 2720 8)
      (initShardBlocks region (headerAddress region) heapBase (n - heapBase) left) m := by
  have user := map.user
  have positive := map.base_pos
  induction left generalizing m with
  | zero => exact returns_ret ⟨rfl, ⟨⟨room, header, fun s small => done s small⟩, SameOn.refl _ _ _⟩, rfl⟩
  | succ left ih =>
    have shard : 4 - (left + 1) < 4 := by omega
    have finish := heap_end_le room shard
    have size : 56 ≤ shardSize heapBase n := by
      unfold shardSize
      omega
    have start := shardStart_ge n (4 - (left + 1))
    have frame := shardStores_frame (s := 4 - (left + 1)) room m
    have block : allocatorBlockFromOffset region (shardStart heapBase n (4 - (left + 1))) =
        Option.some (add64 region.base (shardStart heapBase n (4 - (left + 1)))) :=
      resolve_eq_some map (by omega) (by omega) (by simp only [BlockHeader.sizeof]; omega)
    have below := shardStores_below n (4 - (left + 1)) m
    have failures := shardStores_failures n shard m
    have rest : Returns answers (fun ok m' => ok = true ∧ Initialised n
        (applyStores m (shardStores n (4 - (left + 1)))) m' ∧ load m' 2720 8 =
          load (applyStores m (shardStores n (4 - (left + 1)))) 2720 8) (initShardBlocks region (headerAddress region) heapBase (n - heapBase) left)
        (applyStores m (shardStores n (4 - (left + 1)))) := by
      apply ih (by omega) (header.framed frame)
      intro s before
      by_cases same : s = 4 - (left + 1)
      · rw [same]
        exact shardStores_inv room (by omega) shard m
      · exact (done s (by omega)).framed frame shard (by omega) same
    rw [initShardBlocks]
    simp only [OffsetStore.shardCount, shard_offset (show n < 2 ^ 64 by omega)
      (show heapBase < n by omega) shard, block]
    have cell : 2496 + (192 + 8 * (4 - (left + 1))) = headCell (4 - (left + 1)) := by
      rw [headCell_eq]
      omega
    simp (disch := omega) only [headerAddress, allocatorMetadataOffset, RegionHeader.sizeof,
      AllocatorHeader.shardFreeListHeads, BlockHeader.size, BlockHeader.nextFree, BlockHeader.flags,
      BlockHeader.shard, BlockHeader.payloadOffset, store64_field, store32_field]
    rw [cell]
    simp only [storeWord_bind]
    have whole : Returns answers (fun ok m' => ok = true ∧ Initialised n m m' ∧ load m' 2720 8 = load m 2720 8)
        (initShardBlocks region (headerAddress region) heapBase (n - heapBase) left)
        (applyStores m (shardStores n (4 - (left + 1)))) := by
      refine returns_weaken rest fun ok m' built => ⟨built.1, ⟨built.2.1.inv, below.trans built.2.1.below⟩, ?_⟩
      rw [built.2.2, failures]
    iterate 6 refine returns_write ?_
    exact whole

theorem ends_initExit (region : ShmRegion) {status : OffsetStoreStatus} (failed : status ≠ .ok)
    (post : Mem → Prop) (m : Mem) :
    Ends answers (fun result m' => result = .ok → post m') (initExit region status) m :=
  ends_bind (ends_silent (silent_withLock region (silent_lockRequest _)) m)
    (fun _ _ _ => ends_ret fun ok => absurd ok failed)

/-- The writes of the allocator header, the mutexes, then the shards. -/
theorem returns_initFields (map : region.Mapped) (total : region.size = n)
    (room : heapBase + 224 ≤ n) (m : Mem) :
    Returns answers (fun _ m' => HeaderRepr n heapBase m' ∧ SameOn m m' 0 2496 ∧ load m' 2720 8 = 0)
      (writeAllocatorHeader region (headerAddress region) heapBase (n - heapBase)) m := by
  have user := map.user
  have inside : heapBase < n := by omega
  unfold writeAllocatorHeader headerAddress allocatorMetadataOffset
  simp (disch := omega) only [RegionHeader.sizeof, AllocatorHeader.magic, AllocatorHeader.version,
    AllocatorHeader.shardCount, AllocatorHeader.heapOffset, AllocatorHeader.heapSize,
    AllocatorHeader.allocationFailures, store64_field, store32_field]
  simp only [storeWord_bind, Nat.reduceAdd]
  iterate 5 refine returns_write ?_
  refine returns_write (returns_ret ⟨⟨?_, ?_, ?_, ?_, ?_, inside⟩, ?_, ?_⟩)
  · simp (disch := omega) only [load_store_apart, load_store_mod]
    decide
  · simp (disch := omega) only [load_store_apart, load_store_mod]
    decide
  · simp (disch := omega) only [load_store_apart, load_store_mod]
    decide
  · simp (disch := omega) only [load_store_apart, load_store_mod]
    decide
  · simp (disch := omega) only [load_store_apart, load_store_mod]
    omega
  · intro a _ below
    simp (disch := omega) only [store_outside]
  · exact load_store_eight (by omega)

/-- Whatever the system answers, success means a fresh heap. -/
theorem ends_initLocked (map : region.Mapped) (total : region.size = n)
    (room : heapBase + 224 ≤ n) (m : Mem) :
    Ends answers (fun result m' => result = .ok → Initialised n m m' ∧ load m' 2720 8 = 0)
      (initLocked region heapBase (n - heapBase)) m := by
  unfold initLocked
  have large : 2728 ≤ region.size := by
    unfold heapBase at room
    omega
  simp only [allocatorHeaderMut, allocatorHeader_eq map large]
  obtain ⟨ok, value, _⟩ := burst_header_check (m := m) map total
  refine ends_bind_of_ret value ?_
  split
  · exact ends_initExit region (by simp) _ _
  simp only [request_bind, perform_bind]
  refine ends_call fun attr _ => ?_
  split
  · exact ends_initExit region (by simp) _ _
  refine ends_call fun pshared _ => ?_
  split
  · refine ends_call fun _ _ => ?_
    exact ends_initExit region (by simp) _ _
  refine ends_call fun _ _ => ?_
  refine ends_bind (returns_ends (returns_initFields map total room m)) ?_
  rintro _ m₁ ⟨header, below, zero⟩
  refine ends_bind (ends_silent (silent_initShardMutexes _) m₁) ?_
  rintro mutexes _ rfl
  refine ends_call fun _ _ => ?_
  split
  · exact ends_initExit region (by simp) _ _
  refine ends_bind (returns_ends (returns_initShardBlocks map total room (Nat.le_refl 4) header
    (fun s before => by simp only [OffsetStore.shardCount] at before; omega))) ?_
  rintro blocks m₂ ⟨_, ready, same⟩
  split
  · exact ends_initExit region (by simp) _ _
  · refine ends_bind (ends_silent (silent_withLock region (silent_lockRequest _)) m₂) ?_
    rintro unlocked _ rfl
    split
    · exact ends_ret fun bad => by simp at bad
    · exact ends_ret fun _ => ⟨⟨ready.inv, below.trans ready.below⟩, same.trans zero⟩

theorem region_offsets (total : region.size = n) (large : heapBase < n) :
    allocatorRegionOffsets region = some (heapBase, n - heapBase) := by
  unfold heapBase at *
  unfold allocatorRegionOffsets
  rw [if_neg (by simp only [allocatorMetadataOffset, RegionHeader.sizeof, AllocatorHeader.sizeof]; omega)]
  simp only [allocatorMetadataOffset, RegionHeader.sizeof, AllocatorHeader.sizeof, alignofMax]
  rw [align_up_sixteen (by omega)]
  simp only [roundUp_sixteen, total]
  rw [if_neg (by omega)]

theorem region_offsets_none (total : region.size = n) (small : ¬heapBase < n) :
    allocatorRegionOffsets region = none := by
  unfold heapBase at small
  unfold allocatorRegionOffsets
  by_cases header : region.size < allocatorMetadataOffset + AllocatorHeader.sizeof
  · rw [if_pos header]
  · rw [if_neg header]
    simp only [allocatorMetadataOffset, RegionHeader.sizeof, AllocatorHeader.sizeof, alignofMax]
    rw [align_up_sixteen (by omega)]
    simp only [roundUp_sixteen, total]
    rw [if_pos (by omega)]

theorem ends_allocatorInit (map : region.Mapped) (total : region.size = n) (m : Mem) :
    Ends answers (fun result m' => result = .ok → Initialised n m m' ∧ load m' 2720 8 = 0)
      (allocatorInit region) m := by
  unfold allocatorInit
  refine ends_bind (ends_silent (silent_withLock region (silent_lockOne _)) m) ?_
  rintro locked _ rfl
  split
  · exact ends_ret fun bad => by simp at bad
  · by_cases large : heapBase < n
    · rw [region_offsets total large]
      simp only
      split
      · exact ends_initExit region (by simp) _ _
      · rename_i enough
        have least : allocatorMinBlockSize * OffsetStore.shardCount = 224 := rfl
        exact ends_initLocked map total (by omega) _
    · rw [region_offsets_none total large]
      exact ends_initExit region (by simp) _ _

theorem run_allocatorInit_counted {S : Type} {handle : Sys → S → Int × S} {m' : Mem} {env env' : S}
    (map : region.Mapped) (total : region.size = n)
    (result : run handle (allocatorInit region) m env = some (.ok, m', env')) :
    Initialised n m m' ∧ load m' 2720 8 = 0 := by
  have ends : Ends (fun _ _ => True) (fun result m' => result = .ok → Initialised n m m' ∧ load m' 2720 8 = 0)
      (allocatorInit region) m := ends_allocatorInit map total m
  exact ends_run ends (fun _ _ => trivial) result rfl

theorem run_allocatorInit {S : Type} {handle : Sys → S → Int × S} {m' : Mem} {env env' : S}
    (map : region.Mapped) (total : region.size = n)
    (result : run handle (allocatorInit region) m env = some (.ok, m', env')) : Initialised n m m' :=
  (run_allocatorInit_counted map total result).1

end Init

theorem initialised_run : run (fun (_ : Sys) (s : Unit) => (0, s)) (allocatorInit smallRegion) (fun _ => 0) () =
    some (.ok, initialised, ()) := by
  have status : (run (fun (_ : Sys) (s : Unit) => (0, s)) (allocatorInit smallRegion)
      (fun _ => 0) ()).map Prod.fst = some .ok := by decide +kernel
  obtain ⟨⟨result, m, env⟩, init, same⟩ := Option.map_eq_some_iff.mp status
  have ok : result = .ok := same
  have here : initialised = m := by
    unfold initialised
    rw [init]
  rw [init, here, ok]

theorem initialised_inv : HeapInv 4096 initialised (freshView 4096) :=
  (run_allocatorInit smallRegion_mapped rfl initialised_run).inv

end OffsetStore
