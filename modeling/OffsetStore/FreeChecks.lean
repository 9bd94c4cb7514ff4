import OffsetStore.RequestSizes

/- allocator_free of an arbitrary address. The block it releases is named by the eight
   bytes before the address, whoever wrote them, and is checked against the region, its
   own flag, shard and payload offset, not against the blocks of the heap. -/
namespace OffsetStore
open ByteMemory Program Prog Words Tiling CellChain

/-- The heap as its headers and links describe it; payload and prefix bytes are arbitrary. -/
structure HeapShape (n : Nat) (m : Mem) (blocks free : Nat → List Nat) : Prop where
  header : HeaderRepr n heapBase m
  shards : ∀ s, s < 4 → ShardShape m s (blocks s) (free s)
  large : ∀ s, s < 4 → ∀ b ∈ blocks s, BlockHeader.sizeof ≤ blockSizeOf m b

theorem HeapInv.shape {n : Nat} {m : Mem} {V : HeapView} (inv : HeapInv n m V) (intact : V.Intact) :
    HeapShape n m (fun s => (V s).blocks.map Block.start) fun s => (V s).free := by
  refine ⟨inv.header, fun s shard => inv.shard_shape intact shard, fun s shard x mem => ?_⟩
  obtain ⟨b, mb, rfl⟩ := List.mem_map.mp mem
  have large := (inv.shards s shard).large b mb
  have size := ((inv.shards s shard).repr b mb).size
  unfold blockSizeOf
  simp only [BlockHeader.size, BlockHeader.sizeof, Nat.add_zero, size]
  omega

namespace HeapShape
variable {n : Nat} {m : Mem} {blocks free : Nat → List Nat}

theorem tiles (shape : HeapShape n m blocks free) {s : Nat} (shard : s < 4) :
    Tiles id (blockSizeOf m) (shardStart heapBase n s) (shardStart heapBase n s + shardSize heapBase n)
      (blocks s) := by
  have tiles := (shape.shards s shard).tiles
  have offset : heapOffsetOf m = heapBase := shape.header.heapOffset
  have size : heapSizeOf m = n - heapBase := shape.header.heapSize
  rw [offset, size, Nat.add_mul, Nat.one_mul, ← Nat.add_assoc] at tiles
  exact tiles

theorem bounds (shape : HeapShape n m blocks free) {s b : Nat} (shard : s < 4) (mem : b ∈ blocks s) :
    shardStart heapBase n s ≤ b ∧ b + blockSizeOf m b ≤ shardStart heapBase n s + shardSize heapBase n ∧
      2736 ≤ b ∧ b + blockSizeOf m b ≤ n ∧ 32 ≤ blockSizeOf m b := by
  have inside := tiles_member_bounds (shape.tiles shard) mem
  have large := shape.large s shard b mem
  have start := shardStart_ge n s
  have finish := shardStart_end_le (Nat.le_of_lt shape.header.inside) shard
  simp only [id_eq, BlockHeader.sizeof] at inside large
  omega

theorem apart (shape : HeapShape n m blocks free) {s t b c : Nat} (hs : s < 4) (ht : t < 4) (mb : b ∈ blocks s)
    (mc : c ∈ blocks t) : (s = t ∧ b = c) ∨ b + blockSizeOf m b ≤ c ∨ c + blockSizeOf m c ≤ b :=
  tiles_apart_across blocks shardStart_mono (shape.tiles hs) (shape.tiles ht) mb mc

end HeapShape

/-- The stores of a release, wherever the block offset o points to. -/
def releasedAt (m : Mem) (s o : Nat) : Mem :=
  let marked := store (store m (o + 16) 4 blockFree) (o + 24) 4 0
  store (store marked (o + 8) 8 (load marked (headCell s) 8)) (headCell s) 8 o

theorem releasedAt_outside {m : Mem} {s o x : Nat} (block : x < o + 8 ∨ o + 28 ≤ x)
    (head : x < headCell s ∨ headCell s + 8 ≤ x) : releasedAt m s o x = m x := by
  unfold releasedAt
  rw [store_outside head, store_outside (by omega), store_outside (by omega), store_outside (by omega)]

theorem releasedAt_load {m : Mem} {s o x k : Nat} (block : x + k ≤ o + 8 ∨ o + 28 ≤ x)
    (head : x + k ≤ headCell s ∨ headCell s + 8 ≤ x) : load (releasedAt m s o) x k = load m x k := by
  refine load_congr fun y low high => releasedAt_outside ?_ ?_
  · omega
  · omega

/-- The header of a released block: marked free, linked to the old head, payload offset cleared. -/
structure FreedWords (m m' : Mem) (s b : Nat) : Prop where
  flags : load m' (b + 16) 4 = 1
  shard : load m' (b + 20) 4 = load m (b + 20) 4
  offset : load m' (b + 24) 4 = 0
  link : load m' (b + 8) 8 = load m (headCell s) 8

theorem releasedAt_words {m : Mem} {s b : Nat} (low : headCell s + 8 ≤ b) :
    FreedWords m (releasedAt m s b) s b := by
  have word := load_eight_lt m (headCell s)
  constructor
  all_goals unfold releasedAt
  all_goals simp (disch := omega) only [load_store_apart, load_store_mod, blockFree]
  all_goals omega

/-- What allocator_free requires of the block offset o it reads before the address p. -/
structure Accepted (n : Nat) (m : Mem) (o p : Nat) : Prop where
  positive : 0 < o
  inside : o + BlockHeader.sizeof ≤ n
  used : ¬isFreeBlock m o
  shard : load m (o + BlockHeader.shard) 4 < shardCount
  place : o + payloadOffsetOf m o = p

/-- The block at b becomes the first of the free list of shard s, and all other blocks,
    free lists and bytes stay as they are. -/
structure BlockFreed (n : Nat) (m m' : Mem) (blocks free : Nat → List Nat) (s b : Nat) : Prop where
  shape : HeapShape n m' blocks (Function.update free s (b :: free s))
  outside : ∀ x, x < b ∨ b + BlockHeader.sizeof ≤ x → x < headCell s ∨ headCell s + 8 ≤ x → m' x = m x

namespace HeapShape
variable {n : Nat} {m : Mem} {blocks free : Nat → List Nat}

section Released
variable {s b t c : Nat} (shape : HeapShape n m blocks free) (shard : s < 4) (mem : b ∈ blocks s)
include shape shard mem

/-- The words of other blocks, and those of b that no store hits. -/
theorem released_kept (small : t < 4) (mc : c ∈ blocks t) {x k : Nat} (left : c ≤ x) (right : x + k ≤ c + 32)
    (other : c ≠ b ∨ x + k ≤ c + 8) : load (releasedAt m s b) x k = load m x k := by
  have bound := shape.bounds shard mem
  have inside := shape.bounds small mc
  have place := shape.apart small shard mc mem
  have cell := headCell_eq s
  exact releasedAt_load (by omega) (by omega)

theorem released_width (small : t < 4) (mc : c ∈ blocks t) : blockSizeOf (releasedAt m s b) c = blockSizeOf m c :=
  shape.released_kept shard mem small mc (Nat.le_add_right _ _) (by simp) (Or.inr (by simp))

theorem released_flags (small : t < 4) (mc : c ∈ blocks t) :
    isFreeBlock (releasedAt m s b) c ↔ c = b ∨ isFreeBlock m c := by
  have bound := shape.bounds shard mem
  have words := releasedAt_words (m := m) (show headCell s + 8 ≤ b by rw [headCell_eq]; omega)
  unfold isFreeBlock
  by_cases same : c = b
  · subst same
    simp only [BlockHeader.flags, words.flags, blockFree, true_or, iff_true]
    decide
  · rw [shape.released_kept shard mem small mc (Nat.le_add_right _ _) (by simp) (Or.inl same)]
    simp [same]

theorem released_header : HeaderRepr n heapBase (releasedAt m s b) := by
  have bound := shape.bounds shard mem
  have cell := headCell_eq s
  exact shape.header.congr fun x _ high => releasedAt_outside (by omega) (by omega)

theorem released_tiles (small : t < 4) :
    Tiles id (blockSizeOf (releasedAt m s b)) (heapOffsetOf (releasedAt m s b) + t * (heapSizeOf (releasedAt m s b) / 4))
      (heapOffsetOf (releasedAt m s b) + (t + 1) * (heapSizeOf (releasedAt m s b) / 4)) (blocks t) := by
  have header := shape.released_header shard mem
  have offset : heapOffsetOf (releasedAt m s b) = heapOffsetOf m := header.heapOffset.trans shape.header.heapOffset.symm
  have size : heapSizeOf (releasedAt m s b) = heapSizeOf m := header.heapSize.trans shape.header.heapSize.symm
  rw [offset, size]
  have mapped : Tiles id (blockSizeOf (releasedAt m s b)) _ _ _ :=
    tiles_map id (shape.shards t small).tiles fun c mc => ⟨rfl, shape.released_width shard mem small mc⟩
  rwa [List.map_id] at mapped

/-- The shard of the block: its free list begins with the block. -/
theorem released_own (used : ¬isFreeBlock m b) (word : n < 2 ^ 64) :
    ShardShape (releasedAt m s b) s (blocks s) (b :: free s) := by
  have bound := shape.bounds shard mem
  have old := shape.shards s shard
  have words := releasedAt_words (m := m) (show headCell s + 8 ≤ b by rw [headCell_eq]; omega)
  have fresh : b ∉ free s := fun listed => used ((old.free_iff b).mp listed).2
  have head : load (releasedAt m s b) (headCell s) 8 = b := by
    unfold releasedAt
    exact load_store_eight (by omega)
  refine ⟨shape.released_tiles shard mem shard, fun c mc => ?_, ?_, List.nodup_cons.mpr ⟨fresh, old.nodup⟩, fun x => ?_⟩
  · by_cases here : c = b
    · subst here
      exact words.shard.trans (old.owner c mc)
    · rw [shape.released_kept shard mem shard mc (Nat.le_add_right _ _) (by simp) (Or.inl here)]
      exact old.owner c mc
  · refine chain_push old.chain head (by omega) words.link fun x listed => ?_
    exact shape.released_kept shard mem shard ((old.free_iff x).mp listed).1 (by simp) (by simp)
      (Or.inl fun here => fresh (here ▸ listed))
  · rw [List.mem_cons, old.free_iff x]
    constructor
    · rintro (rfl | ⟨mx, flagged⟩)
      · exact ⟨mem, (shape.released_flags shard mem shard mem).mpr (Or.inl rfl)⟩
      · exact ⟨mx, (shape.released_flags shard mem shard mx).mpr (Or.inr flagged)⟩
    · rintro ⟨mx, flagged⟩
      exact ((shape.released_flags shard mem shard mx).mp flagged).imp_right fun flagged => ⟨mx, flagged⟩

/-- Any other shard stays as it is. -/
theorem released_foreign (small : t < 4) (other : t ≠ s) : ShardShape (releasedAt m s b) t (blocks t) (free t) := by
  have bound := shape.bounds shard mem
  have old := shape.shards t small
  have cell := headCell_eq s
  have cell' := headCell_eq t
  have foreign : ∀ c ∈ blocks t, c ≠ b := by
    rintro c mc rfl
    have place := shape.apart small shard mc mem
    omega
  refine ⟨shape.released_tiles shard mem small, fun c mc => ?_, ?_, old.nodup, fun x => ?_⟩
  · rw [shape.released_kept shard mem small mc (Nat.le_add_right _ _) (by simp) (Or.inl (foreign c mc))]
    exact old.owner c mc
  · refine chain_move old.chain (releasedAt_load (by omega) (by omega)) fun x listed => ?_
    have mx := ((old.free_iff x).mp listed).1
    exact shape.released_kept shard mem small mx (by simp) (by simp) (Or.inl (foreign x mx))
  · rw [old.free_iff x]
    constructor
    · rintro ⟨mx, flagged⟩
      exact ⟨mx, (shape.released_flags shard mem small mx).mpr (Or.inr flagged)⟩
    · rintro ⟨mx, flagged⟩
      exact ⟨mx, ((shape.released_flags shard mem small mx).mp flagged).resolve_left (foreign x mx)⟩

/-- Releasing a block in use keeps the shape. -/
theorem released (used : ¬isFreeBlock m b) (word : n < 2 ^ 64) : BlockFreed n m (releasedAt m s b) blocks free s b := by
  refine ⟨⟨shape.released_header shard mem, fun t small => ?_, fun t small c mc => ?_⟩, fun x block head => ?_⟩
  · by_cases same : t = s
    · subst same
      rw [Function.update_self]
      exact shape.released_own small mem used word
    · rw [Function.update_of_ne same]
      exact shape.released_foreign shard mem small same
  · rw [shape.released_width shard mem small mc]
    exact shape.large t small c mc
  · simp only [BlockHeader.sizeof] at block
    exact releasedAt_outside (by omega) head

end Released

end HeapShape

section Calls
variable {region : ShmRegion} {n : Nat} {m : Mem} {o p : Nat}

structure Checked (n : Nat) (m : Mem) (o : Nat) : Prop where
  positive : 0 < o
  inside : o + BlockHeader.sizeof ≤ n
  used : ¬isFreeBlock m o
  shard : load m (o + BlockHeader.shard) 4 < shardCount

def prefixWord (region : ShmRegion) (m : Mem) (ptr : Nat) : Nat :=
  load m (region.offsetOf (add64 (sub64 ptr AllocationPrefix.sizeof) AllocationPrefix.blockOffset)) 8

/-- Up to its lock, a release of any address either passes the checks or is refused. -/
theorem burst_free_enter {base ptr : Nat} (map : region.Mapped) (total : region.size = n) (large : 2728 ≤ n)
    (header : HeaderRepr n base m) (named : ptr ≠ 0) :
    (Checked n m (prefixWord region m ptr) ∧ burst m (allocatorFree region ptr) =
      ([], freeLocked region (headerAddress region) ptr (prefixWord region m ptr)
        (load m (prefixWord region m ptr + BlockHeader.shard) 4))) ∨
    (¬Checked n m (prefixWord region m ptr) ∧ burst m (allocatorFree region ptr) = ([], ret .invalidState)) := by
  have user := map.user
  unfold allocatorFree
  rw [if_neg named]
  simp only [allocatorHeaderMut, allocatorHeader_eq map (total ▸ large)]
  rw [burst_bind_of_ret (burst_header_valid map total header)]
  simp only [Bool.not_true, Bool.false_eq_true, if_false]
  unfold prefixWord
  simp only [ShmRegion.load64, loadWord_bind, burst_read]
  generalize load m (region.offsetOf (add64 (sub64 ptr AllocationPrefix.sizeof) AllocationPrefix.blockOffset)) 8 = o
  by_cases place : 0 < o ∧ o + 32 ≤ n
  · have block : allocatorBlockFromOffset region o = some (add64 region.base o) :=
      resolve_eq_some map place.1 (by omega) (by simp only [BlockHeader.sizeof]; omega)
    simp only [block]
    simp (disch := omega) only [BlockHeader.flags, BlockHeader.shard, load32_field]
    simp only [loadWord_bind, burst_read]
    by_cases flagged : load m (o + 16) 4 &&& blockFree ≠ 0
    · rw [if_pos flagged]
      exact Or.inr ⟨fun checked => checked.used flagged, rfl⟩
    · rw [if_neg flagged, burst_read]
      by_cases owner : load m (o + 20) 4 ≥ OffsetStore.shardCount
      · rw [if_pos owner]
        exact Or.inr ⟨fun checked => absurd checked.shard (Nat.not_lt.mpr owner), rfl⟩
      · rw [if_neg owner]
        exact Or.inl ⟨⟨place.1, place.2, flagged, Nat.not_le.mp owner⟩, rfl⟩
  · have block : allocatorBlockFromOffset region o = none := resolve_eq_none map (by
      simp only [BlockHeader.sizeof]
      omega)
    simp only [block]
    exact Or.inr ⟨fun checked => place ⟨checked.positive, checked.inside⟩, rfl⟩

theorem burst_free_checks (map : region.Mapped) (total : region.size = n) (header : HeaderRepr n heapBase m)
    (low : 8 ≤ p) (high : p < n) :
    (Checked n m (load m (p - 8) 8) ∧ burst m (allocatorFree region (add64 region.base p)) =
      ([], freeLocked region (headerAddress region) (add64 region.base p) (load m (p - 8) 8)
        (load m (load m (p - 8) 8 + BlockHeader.shard) 4))) ∨
    (¬Checked n m (load m (p - 8) 8) ∧
      burst m (allocatorFree region (add64 region.base p)) = ([], ret .invalidState)) := by
  have user := map.user
  have positive := map.base_pos
  have room := header.inside
  unfold heapBase at room
  have address : add64 region.base p = region.base + p := add64_eq (by omega)
  have before : region.offsetOf (add64 (sub64 (add64 region.base p) 8) 0) = p - 8 := by
    unfold ShmRegion.offsetOf sub64 add64
    omega
  have word : prefixWord region m (add64 region.base p) = load m (p - 8) 8 := congrArg (fun x => load m x 8) before
  have named : add64 region.base p ≠ 0 := by omega
  have enter := burst_free_enter map total (by omega) header named
  rwa [word] at enter

theorem burst_section_enter {base : Nat} (map : region.Mapped) (total : region.size = n)
    (header : HeaderRepr n base m) {s : Nat} (shard : s < 4) (positive : 0 < o) (inside : o + 32 ≤ n)
    (ptr : Nat) :
    burst m (freeSection region (headerAddress region) ptr o s) =
      if add64 (add64 region.base o) (payloadOffsetOf m o) = ptr then
        ([(o + 16, 4, blockFree), (o + 24, 4, 0), (o + 8, 8,
            load (store (store m (o + 16) 4 blockFree) (o + 24) 4 0) (headCell s) 8), (headCell s, 8, o)],
          exitCalls s (ret .ok))
      else ([], call (.mutexUnlock (shardMutex s)) fun _ => ret .invalidArgument) := by
  have user := map.user
  have positive' := map.base_pos
  have block : allocatorBlockFromOffset region o = some (add64 region.base o) :=
    resolve_eq_some map positive (by omega) (by simp only [BlockHeader.sizeof]; omega)
  have offset : payloadOffsetOf m o = load m (o + 24) 4 := rfl
  unfold freeSection
  rw [burst_bind_of_ret (burst_header_valid map total header)]
  simp only [Bool.not_true, Bool.false_eq_true, if_false, block]
  simp (disch := omega) only [BlockHeader.payloadOffset, load32_field]
  simp only [loadWord_bind, burst_read, offset]
  by_cases hit : add64 (add64 region.base o) (load m (o + 24) 4) = ptr
  · rw [if_neg (not_not_intro hit), if_pos hit]
    have cell : 2496 + (192 + 8 * s) = headCell s := by
      rw [headCell_eq]
      omega
    simp (disch := omega) only [BlockHeader.flags, BlockHeader.nextFree, headerAddress,
      store32_field, store64_field, load64_field, allocatorMetadataOffset, RegionHeader.sizeof,
      AllocatorHeader.shardFreeListHeads, cell]
    simp only [storeWord_bind, loadWord_bind, burst_write, burst_read, perform_bind, burst_call, pure_eq]
    rfl
  · rw [if_pos hit, if_neg hit]
    rfl

theorem burst_free_section (map : region.Mapped) (total : region.size = n) (header : HeaderRepr n heapBase m)
    {s : Nat} (shard : s < 4) (positive : 0 < o) (inside : o + 32 ≤ n) (room : p < n) :
    burst m (freeSection region (headerAddress region) (add64 region.base p) o s) =
      if o + payloadOffsetOf m o = p then
        ([(o + 16, 4, blockFree), (o + 24, 4, 0), (o + 8, 8,
            load (store (store m (o + 16) 4 blockFree) (o + 24) 4 0) (headCell s) 8), (headCell s, 8, o)],
          exitCalls s (ret .ok))
      else ([], call (.mutexUnlock (shardMutex s)) fun _ => ret .invalidArgument) := by
  have user := map.user
  have word : payloadOffsetOf m o < 2 ^ 32 := load_four_lt m (o + 24)
  have same : add64 (add64 region.base o) (payloadOffsetOf m o) = add64 region.base p ↔ o + payloadOffsetOf m o = p := by
    unfold add64
    omega
  rw [burst_section_enter map total header shard positive inside]
  simp only [same]

theorem silent_noteShardLock (s : Nat) (r : Int) : Silent (noteShardLock s r) := by
  have last : Silent (if r = eownerdead then Prog.perform (Sys.mutexConsistent (shardMutex s)) else pure ()) := by
    split
    · exact confined_call fun _ => confined_ret
    · exact confined_ret
  unfold noteShardLock
  simp only [request_bind, perform_bind]
  refine confined_call fun held => ?_
  split
  · exact confined_call fun _ => confined_call fun _ => last
  · exact confined_call fun _ => last

/-- A release either stores nothing and fails, or is accepted. Locks may answer what they like. -/
theorem ends_free {answers : Sys → Int → Prop} (map : region.Mapped) (total : region.size = n)
    (header : HeaderRepr n heapBase m) (low : 8 ≤ p) (high : p < n) :
    Ends answers (fun status m' => (status ≠ .ok ∧ m' = m) ∨ (status = .ok ∧ Accepted n m (load m (p - 8) 8) p ∧
      m' = releasedAt m (load m (load m (p - 8) 8 + BlockHeader.shard) 4) (load m (p - 8) 8)))
      (allocatorFree region (add64 region.base p)) m := by
  rw [ends_burst]
  obtain ⟨checked, same⟩ | ⟨_, same⟩ := burst_free_checks map total header low high
  · rw [same, applyStores_nil, freeLocked_eq]
    simp only [request_bind]
    refine ends_call fun r _ => ?_
    refine ends_bind (ends_silent (silent_noteShardLock _ r) m) ?_
    intro _ m' same
    rw [same]
    split
    · exact ends_ret (Or.inl ⟨by simp, rfl⟩)
    · rw [ends_burst, burst_free_section map total header checked.shard checked.positive checked.inside high]
      by_cases hit : load m (p - 8) 8 + payloadOffsetOf m (load m (p - 8) 8) = p
      · rw [if_pos hit]
        refine ends_call fun _ _ => ends_call fun _ _ => ends_ret (Or.inr ⟨rfl, ?_, rfl⟩)
        exact ⟨checked.positive, checked.inside, checked.used, checked.shard, hit⟩
      · rw [if_neg hit]
        exact ends_call fun _ _ => ends_ret (Or.inl ⟨by simp, rfl⟩)
  · rw [same]
    exact ends_ret (Or.inl ⟨by simp, rfl⟩)

/-- When every call succeeds, an accepted release is carried out, and any other leaves the memory as it is. -/
theorem exec_free_cases (map : region.Mapped) (total : region.size = n) (header : HeaderRepr n heapBase m)
    (low : 8 ≤ p) (high : p < n) :
    (Accepted n m (load m (p - 8) 8) p ∧ exec (allocatorFree region (add64 region.base p)) m = some (.ok,
      releasedAt m (load m (load m (p - 8) 8 + BlockHeader.shard) 4) (load m (p - 8) 8))) ∨
    (¬Accepted n m (load m (p - 8) 8) p ∧
      ∃ status, exec (allocatorFree region (add64 region.base p)) m = some (status, m)) := by
  obtain ⟨checked, same⟩ | ⟨refused, same⟩ := burst_free_checks map total header low high
  · have enter : exec (allocatorFree region (add64 region.base p)) m = exec (freeSection region (headerAddress region)
        (add64 region.base p) (load m (p - 8) 8) (load m (load m (p - 8) 8 + BlockHeader.shard) 4)) m := by
      rw [exec_of_burst same, freeLocked_eq]
      simp only [request_bind, applyStores_nil, exec_call]
      rw [exec_bind_of_some (exec_noteShardLock _ m), if_neg (by simp)]
    rw [enter, exec_burst, burst_free_section map total header checked.shard checked.positive checked.inside high]
    by_cases hit : load m (p - 8) 8 + payloadOffsetOf m (load m (p - 8) 8) = p
    · rw [if_pos hit]
      exact Or.inl ⟨⟨checked.positive, checked.inside, checked.used, checked.shard, hit⟩, rfl⟩
    · rw [if_neg hit]
      exact Or.inr ⟨fun accepted => hit accepted.place, _, rfl⟩
  · refine Or.inr ⟨fun accepted => refused ?_, _, exec_of_burst same⟩
    exact ⟨accepted.positive, accepted.inside, accepted.used, accepted.shard⟩

theorem exec_free (map : region.Mapped) (total : region.size = n) (header : HeaderRepr n heapBase m)
    (low : 8 ≤ p) (high : p < n) (accepted : Accepted n m (load m (p - 8) 8) p) :
    exec (allocatorFree region (add64 region.base p)) m = some (.ok,
      releasedAt m (load m (load m (p - 8) 8 + BlockHeader.shard) 4) (load m (p - 8) 8)) := by
  obtain ⟨_, run⟩ | ⟨refused, _⟩ := exec_free_cases map total header low high
  · exact run
  · exact absurd accepted refused

end Calls

/-- What allocator_free promises about the address p: success releases the block whose
    payload starts there, and only that; a failure changes nothing. -/
def FreesLiveOnly (region : ShmRegion) (n : Nat) (m : Mem) (blocks free : Nat → List Nat) (p : Nat) : Prop :=
  Ends (fun _ _ => True) (fun status m' =>
      (status = .ok ∧ ∃ s, s < 4 ∧ ∃ b ∈ blocks s, ¬isFreeBlock m b ∧ b + payloadOffsetOf m b = p ∧
        BlockFreed n m m' blocks free s b) ∨
      (status ≠ .ok ∧ m' = m))
    (allocatorFree region (add64 region.base p)) m

/-- The eight bytes before p name a block of the heap, or are refused. -/
def PrefixHonest (n : Nat) (m : Mem) (blocks : Nat → List Nat) (p : Nat) : Prop :=
  (∃ s, s < 4 ∧ load m (p - AllocationPrefix.sizeof) 8 ∈ blocks s) ∨
    ¬Accepted n m (load m (p - AllocationPrefix.sizeof) 8) p

section Acceptance
variable {region : ShmRegion} {n : Nat} {m : Mem} {blocks free : Nat → List Nat} {o p : Nat}

/-- A forged release frees no block: the list head it stores is no block, and a flag that
    it changes lies outside every list head. -/
theorem forged_not_freed (shape : HeapShape n m blocks free) (inside : o < 2 ^ 64) {s t b : Nat} (owner : t < 4)
    (forged : ∀ s, s < 4 → o ∉ blocks s) (shard : s < 4) (mem : b ∈ blocks s) (used : ¬isFreeBlock m b) :
    ¬BlockFreed n m (releasedAt m t o) blocks free s b := by
  intro freed
  have cell := headCell_eq s
  have other := headCell_eq t
  have bound := shape.bounds shard mem
  have list := freed.shape.shards s shard
  rw [Function.update_self] at list
  have first : load (releasedAt m t o) (headCell s) 8 = b := list.chain.1
  have flagged := ((list.free_iff b).mp (by simp)).2
  unfold isFreeBlock at used flagged
  by_cases same : s = t
  · subst same
    have head : load (releasedAt m s o) (headCell s) 8 = o := by
      unfold releasedAt
      exact load_store_eight (by omega)
    exact forged s shard (head.symm.trans first ▸ mem)
  · by_cases near : o + 28 ≤ b + 16 ∨ b + 20 ≤ o + 8
    · have unchanged : load (releasedAt m t o) (b + BlockHeader.flags) 4 = load m (b + BlockHeader.flags) 4 := by
        simp only [BlockHeader.flags]
        exact releasedAt_load (by omega) (by omega)
      rw [unchanged] at flagged
      exact used flagged
    · have head : load (releasedAt m t o) (headCell s) 8 = load m (headCell s) 8 :=
        releasedAt_load (by omega) (by omega)
      rw [head] at first
      have old := shape.shards s shard
      cases listed : free s with
      | nil =>
        have chain := old.chain
        rw [listed] at chain
        have zero : load m (headCell s) 8 = 0 := chain
        omega
      | cons x rest =>
        have chain := old.chain
        rw [listed] at chain
        have here : b = x := first.symm.trans chain.1
        exact used ((old.free_iff b).mp (by simp [listed, here])).2

theorem forged_breaks_promise (map : region.Mapped) (total : region.size = n) (shape : HeapShape n m blocks free)
    (low : 8 ≤ p) (high : p < n) (accepted : Accepted n m (load m (p - 8) 8) p)
    (forged : ∀ s, s < 4 → load m (p - 8) 8 ∉ blocks s) : ¬FreesLiveOnly region n m blocks free p := by
  intro promise
  have user := map.user
  have inside := accepted.inside
  have run := exec_free map total shape.header low high accepted
  obtain ⟨_, s, shard, b, mem, used, _, freed⟩ | ⟨failed, _⟩ := ends_exec promise (fun _ => trivial) run
  · exact forged_not_freed shape (by omega) accepted.shard forged shard mem used freed
  · exact failed rfl

/-- allocator_free is as careful as promised exactly when the eight bytes before the
    address name a block of the heap or fail one of its checks. -/
theorem free_accepts_live_iff (map : region.Mapped) (total : region.size = n)
    (shape : HeapShape n m blocks free) (low : AllocationPrefix.sizeof ≤ p) (high : p < n) :
    FreesLiveOnly region n m blocks free p ↔ PrefixHonest n m blocks p := by
  have user := map.user
  simp only [AllocationPrefix.sizeof] at low
  constructor
  · intro promise
    by_contra dishonest
    obtain ⟨forged, accepted⟩ := not_or.mp dishonest
    simp only [AllocationPrefix.sizeof, not_not] at accepted forged
    exact forged_breaks_promise map total shape low high accepted (fun s shard mem => forged ⟨s, shard, mem⟩) promise
  · intro honest
    refine ends_weaken (ends_free map total shape.header low high) ?_
    rintro status m' (failed | ⟨ok, accepted, rfl⟩)
    · exact Or.inr failed
    · obtain ⟨s, shard, mem⟩ | refused := honest
      · have owner := (shape.shards s shard).owner _ mem
        simp only [AllocationPrefix.sizeof] at mem owner
        rw [owner]
        exact Or.inl ⟨ok, s, shard, _, mem, accepted.used, accepted.place,
          shape.released shard mem accepted.used (by omega)⟩
      · exact absurd accepted refused

/-- The prefix of an allocation names its block, and its release frees that block. -/
theorem free_accepts_live_iff_small : ∃ m blocks free,
    exec (allocatorAlloc 4096 smallRegion 128 16) initialised = some (.ok (add64 smallRegion.base 2784), m) ∧
    HeapShape 4096 m blocks free ∧ FreesLiveOnly smallRegion 4096 m blocks free 2784 := by
  have served : (exec (allocatorAlloc 4096 smallRegion 128 16) initialised).map Prod.fst =
    some (.ok (add64 smallRegion.base 2784)) := by decide +kernel
  obtain ⟨⟨result, m⟩, run, address⟩ := Option.map_eq_some_iff.mp served
  obtain rfl : result = .ok (add64 smallRegion.base 2784) := address
  obtain ⟨V, a, inv, intact, ⟨s, shard, b, mem, kind⟩, place, _⟩ := initialised_alloc (by decide) run
  have shape := inv.shape intact
  have carried := inv.carries_payload intact (by decide) shard mem kind
  have honest : load m (2784 - AllocationPrefix.sizeof) 8 ∈ (V s).blocks.map Block.start :=
    place ▸ carried.prefixed ▸ List.mem_map_of_mem mem
  exact ⟨m, _, _, run, shape, (free_accepts_live_iff smallRegion_mapped rfl shape (by decide) (by decide)).mpr
    (Or.inl ⟨s, shard, honest⟩)⟩

/-- A client of 128 bytes writes a block header at the start of its payload and a prefix 32 bytes
    on: the address behind the forged prefix is released. -/
theorem forged_free_accepted : ∃ m blocks free, HeapShape 4096 m blocks free ∧
    ¬FreesLiveOnly smallRegion 4096 m blocks free 2824 := by
  have served : (exec (allocatorAlloc 4096 smallRegion 128 16) initialised).map (fun r =>
      (r.1, load r.2 2800 4, load r.2 2804 4)) = some (.ok (add64 smallRegion.base 2784), 0, 0) := by decide +kernel
  obtain ⟨⟨result, m⟩, run, same⟩ := Option.map_eq_some_iff.mp served
  obtain ⟨address, words⟩ := Prod.mk.inj same
  obtain ⟨flags, owner⟩ := Prod.mk.inj words
  simp only at address flags owner
  obtain rfl : result = .ok (add64 smallRegion.base 2784) := address
  obtain ⟨V, a, inv, intact, live, place, width⟩ := initialised_alloc (by decide) run
  have first : SameOff m (store m 2808 4 40) a.ptr (a.ptr + a.size) := SameOff.store (by omega) (by omega)
  have second : SameOff (store m 2808 4 40) (store (store m 2808 4 40) 2816 8 2784) a.ptr (a.ptr + a.size) :=
    SameOff.store (by omega) (by omega)
  have forged := (inv.write_payload live first).write_payload live second
  have named : load (store (store m 2808 4 40) 2816 8 2784) (2824 - 8) 8 = 2784 := load_store_eight (by omega)
  refine ⟨_, _, _, forged.shape (intact), ?_⟩
  refine forged_breaks_promise smallRegion_mapped rfl (forged.shape (intact)) (by decide)
    (by decide) ?_ ?_
  · rw [named]
    refine ⟨by decide, by decide, ?_, ?_, ?_⟩
    · unfold isFreeBlock
      rw [BlockHeader.flags, load_store_apart (by omega), load_store_apart (by omega), flags]
      decide
    · rw [BlockHeader.shard, load_store_apart (by omega), load_store_apart (by omega), owner]
      decide
    · unfold payloadOffsetOf
      rw [BlockHeader.payloadOffset, load_store_apart (by omega), load_store_four (by omega)]
  · rw [named]
    intro s shard mem
    obtain ⟨c, mc, start⟩ := List.mem_map.mp mem
    obtain ⟨t, small, b, mb, kind, fits, _⟩ := forged.live_block live
    have inside := (forged.shards s shard).bounds mc
    have low := fits.ptr_ge
    have high := fits.ptr_le
    rcases forged.blocks_apart small shard mb mc with ⟨_, eq⟩ | left | right
    · rw [eq] at low
      omega
    · omega
    · omega

end Acceptance

end OffsetStore
