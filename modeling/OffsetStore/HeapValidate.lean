import OffsetStore.HeapCalls
import OffsetStore.HeapShape

/- What allocator_validate accepts, for any content of the region: the physical walk
   from the heap offset ends exactly at the end of the region, the free lists end and
   stay in their shards, and no more nodes are listed than blocks were counted. -/
namespace OffsetStore
open ByteMemory Program Prog Words Tiling CellChain

/-- A block header the physical walk accepts at b. -/
structure ValidBlock (n : Nat) (m : Mem) (b : Nat) : Prop where
  positive : 0 < b
  header : b + 32 ≤ n
  least : 32 ≤ blockSizeOf m b
  fits : b + blockSizeOf m b ≤ n
  flags : load m (b + 16) 4 = 0 ∨ load m (b + 16) 4 = 1
  shard : load m (b + 20) 4 < 4

structure Walk (n : Nat) (m : Mem) (lo : Nat) (blocks : List Nat) : Prop where
  tiles : Tiles id (blockSizeOf m) lo n blocks
  valid : ∀ b ∈ blocks, ValidBlock n m b

/-- A node the walk along the free list of shard s accepts. -/
structure ValidNode (n base s : Nat) (m : Mem) (x : Nat) : Prop where
  node : Node base n s x
  free : load m (x + 16) 4 &&& 1 ≠ 0
  owner : load m (x + 20) 4 = s

structure FreeList (n base s : Nat) (m : Mem) (xs : List Nat) : Prop where
  chain : Chain (fun c => load m c 8) 8 (headCell s) xs
  nodes : ∀ x ∈ xs, ValidNode n base s m x

/-- The nodes on the lists of the last shards. -/
def freeCount (lists : Nat → List Nat) : Nat → Nat
  | 0 => 0
  | left + 1 => (lists (4 - (left + 1))).length + freeCount lists left

structure ValidHeap (n base : Nat) (m : Mem) (blocks : List Nat) (lists : Nat → List Nat) : Prop where
  room : 2728 ≤ n
  header : HeaderRepr n base m
  walk : Walk n m base blocks
  free : ∀ s, s < 4 → FreeList n base s m (lists s)
  count : freeCount lists 4 ≤ blocks.length

/- Validation only loads. -/
section Loads
variable {region : ShmRegion}

theorem loads_header (header : Nat) : Loads (allocatorHeaderValid region header) := by
  unfold allocatorHeaderValid ShmRegion.load64 ShmRegion.load32
  simp only [loadWord_bind]
  refine loads_read fun _ => loads_ite loads_ret (loads_read fun _ => loads_ite loads_ret ?_)
  refine loads_read fun _ => loads_ite loads_ret (loads_read fun _ => loads_read fun _ => ?_)
  exact loads_ite loads_ret (loads_ite loads_ret loads_ret)

theorem loads_size (header block t : Nat) : Loads (validateSize region header block t) := by
  unfold validateSize ShmRegion.load64
  simp only [loadWord_bind]
  exact loads_read fun _ => loads_ite loads_ret (loads_read fun _ => loads_read fun _ => loads_ret)

theorem loads_flags (block : Nat) : Loads (validateFlags region block) := by
  unfold validateFlags ShmRegion.load32
  simp only [loadWord_bind]
  exact loads_read fun _ => loads_ite loads_ret (loads_read fun _ => loads_ret)

theorem loads_blocks (header fuel t c : Nat) : Loads (validateBlocks region header fuel t c) := by
  induction fuel generalizing t c with
  | zero => exact loads_spin
  | succ fuel ih =>
    unfold validateBlocks ShmRegion.load64 ShmRegion.load32
    simp only [loadWord_bind]
    refine loads_read fun _ => loads_ite (loads_read fun _ => ?_) loads_ret
    split
    · exact loads_ret
    · refine loads_bind (loads_size _ _ _) fun _ => loads_ite loads_ret ?_
      refine loads_bind (loads_flags _) fun _ => loads_ite loads_ret ?_
      exact loads_read fun _ => loads_ite loads_ret (loads_read fun _ => ih _ _)

theorem loads_list (s start size fuel x count : Nat) :
    Loads (validateFreeList region s start size fuel x count) := by
  induction fuel generalizing x count with
  | zero => exact loads_spin
  | succ fuel ih =>
    unfold validateFreeList ShmRegion.load64 ShmRegion.load32
    simp only [loadWord_bind]
    refine loads_ite loads_ret (loads_ite loads_ret (loads_ite loads_ret ?_))
    split
    · exact loads_ret
    · refine loads_read fun _ => loads_ite loads_ret (loads_read fun _ => loads_ite loads_ret ?_)
      exact loads_read fun _ => ih _ _

theorem loads_shards (header fuel left count : Nat) :
    Loads (validateShards fuel region header left count) := by
  induction left generalizing count with
  | zero => exact loads_ret
  | succ left ih =>
    unfold validateShards ShmRegion.load64
    simp only [loadWord_bind]
    refine loads_read fun _ => loads_read fun _ => loads_read fun _ => ?_
    refine loads_bind (loads_list _ _ _ _ _ _) fun rest => ?_
    split
    · exact loads_ret
    · exact ih _

theorem loads_validate (fuel : Nat) : Loads (allocatorValidate fuel region) := by
  unfold allocatorValidate
  split
  · exact loads_ret
  · refine loads_bind (loads_header _) fun valid => loads_ite loads_ret ?_
    refine loads_bind (loads_blocks _ _ _ _) fun blocks => ?_
    split
    · exact loads_ret
    · exact loads_shards _ _ _ _

end Loads

section Physical
variable {region : ShmRegion} {m : Mem} {n base t c : Nat}

section Tests
variable (map : region.Mapped) {x : Nat}
include map

theorem burst_size (total : region.size = n) (header : HeaderRepr n base m) (low : base ≤ x) (fits : x + 32 ≤ n) :
    burst m (validateSize region (headerAddress region) (add64 region.base x) (x - base)) =
      ([], ret (decide (32 ≤ load m x 8 ∧ x + load m x 8 ≤ n))) := by
  have user := map.user
  have bounded := header.inside
  have left : sub64 (n - base) (x - base) = n - x := by
    rw [sub64_eq (by omega) (by omega)]
    omega
  unfold validateSize
  simp (disch := omega) only [headerAddress, allocatorMetadataOffset, RegionHeader.sizeof,
    AllocatorHeader.heapSize, BlockHeader.size, load64_field]
  simp only [loadWord_bind, burst_read, Nat.reduceAdd, Nat.add_zero]
  by_cases least : 32 ≤ load m x 8
  · rw [if_neg (by simpa using least)]
    simp only [burst_read, header.heapSize, left, pure_eq, burst_ret, least, true_and]
    have bound : load m x 8 ≤ n - x ↔ x + load m x 8 ≤ n := by omega
    simp only [bound]
  · rw [if_pos (by simpa using least)]
    simp [least]

theorem burst_flags (small : x + 32 ≤ region.size) :
    burst m (validateFlags region (add64 region.base x)) =
      ([], ret (decide (load m (x + 16) 4 = 0 ∨ load m (x + 16) 4 = 1))) := by
  have user := map.user
  unfold validateFlags
  simp (disch := omega) only [BlockHeader.flags, load32_field]
  simp only [loadWord_bind, burst_read]
  by_cases used : load m (x + 16) 4 = 0
  · rw [if_pos used]
    simp [used]
  · rw [if_neg used]
    simp only [burst_read, pure_eq, burst_ret, used, false_or]
    rfl

end Tests

theorem burst_blocks_step (map : region.Mapped) (total : region.size = n) (header : HeaderRepr n base m)
    (fuel : Nat) (inside : base + t < n) :
    (ValidBlock n m (base + t) ∧ burst m (validateBlocks region (headerAddress region) (fuel + 1) t c) =
      burst m (validateBlocks region (headerAddress region) fuel (add64 t (blockSizeOf m (base + t)))
        (add64 c 1))) ∨
    (¬ValidBlock n m (base + t) ∧
      burst m (validateBlocks region (headerAddress region) (fuel + 1) t c) = ([], ret none)) := by
  have user := map.user
  have bounded := header.inside
  rw [validateBlocks]
  simp (disch := omega) only [AllocatorHeader.heapOffset, AllocatorHeader.heapSize, headerAddress, allocatorMetadataOffset,
    RegionHeader.sizeof, load64_field]
  simp only [loadWord_bind, burst_read, Nat.reduceAdd, header.heapSize]
  rw [if_pos (by omega), burst_read, header.heapOffset, add64_eq (by omega)]
  by_cases fits : 0 < base + t ∧ base + t + 32 ≤ n
  swap
  · have block : allocatorBlockFromOffset region (base + t) = none := resolve_eq_none map (by
      simp only [BlockHeader.sizeof]
      omega)
    simp only [block]
    exact Or.inr ⟨fun valid => fits ⟨valid.positive, valid.header⟩, rfl⟩
  have block : allocatorBlockFromOffset region (base + t) = some (add64 region.base (base + t)) :=
    resolve_eq_some map fits.1 (by omega) (by simpa [total] using fits.2)
  have sized := burst_size map total header (Nat.le_add_right base t) fits.2
  rw [Nat.add_sub_cancel_left, headerAddress, allocatorMetadataOffset, RegionHeader.sizeof] at sized
  simp only [block]
  rw [burst_bind_of_ret sized]
  by_cases size : 32 ≤ load m (base + t) 8 ∧ base + t + load m (base + t) 8 ≤ n
  swap
  · rw [if_pos (by rw [decide_eq_false size]; rfl)]
    exact Or.inr ⟨fun valid => size ⟨valid.least, valid.fits⟩, rfl⟩
  rw [if_neg (by simpa using size), burst_bind_of_ret (burst_flags map (total.symm ▸ fits.2))]
  by_cases flags : load m (base + t + 16) 4 = 0 ∨ load m (base + t + 16) 4 = 1
  swap
  · rw [if_pos (by simpa [not_or] using flags)]
    exact Or.inr ⟨fun valid => flags valid.flags, rfl⟩
  simp (disch := omega) only [BlockHeader.size, BlockHeader.shard, load64_field, load32_field]
  rw [if_neg (by simpa [or_iff_not_imp_left] using flags)]
  simp only [loadWord_bind, burst_read]
  by_cases shard : load m (base + t + 20) 4 < 4
  swap
  · rw [if_pos (by simpa using shard)]
    exact Or.inr ⟨fun valid => shard valid.shard, rfl⟩
  rw [if_neg (by simpa using shard)]
  exact Or.inl ⟨⟨fits.1, fits.2, size.1, size.2, flags, shard⟩, rfl⟩

theorem burst_blocks_end (header : HeaderRepr n base m) (fuel : Nat)
    (finish : base + t = n) :
    burst m (validateBlocks region (headerAddress region) (fuel + 1) t c) = ([], ret (some c)) := by
  rw [validateBlocks]
  simp (disch := omega) only [headerAddress, allocatorMetadataOffset, RegionHeader.sizeof,
    AllocatorHeader.heapSize, load64_field]
  simp only [loadWord_bind, burst_read, Nat.reduceAdd, header.heapSize]
  rw [if_neg (by omega)]
  rfl

theorem burst_blocks (map : region.Mapped) (total : region.size = n) (header : HeaderRepr n base m)
    {blocks : List Nat} {fuel : Nat} (walk : Walk n m (base + t) blocks) (enough : blocks.length < fuel)
    (counted : 32 * c ≤ t) :
    burst m (validateBlocks region (headerAddress region) fuel t c) =
      ([], ret (some (c + blocks.length))) := by
  induction blocks generalizing t c fuel with
  | nil =>
    cases fuel with
    | zero => simp at enough
    | succ fuel => exact burst_blocks_end header fuel walk.tiles
  | cons b rest ih =>
    cases fuel with
    | zero => simp at enough
    | succ fuel =>
      have user := map.user
      obtain ⟨first, positive, tail⟩ := walk.tiles
      have here : b = base + t := first
      have valid : ValidBlock n m (base + t) := here ▸ walk.valid b (by simp)
      have bound := valid.fits
      have least := valid.least
      have inside := valid.header
      rcases burst_blocks_step (t := t) (c := c) map total header fuel (by omega) with ⟨_, step⟩ | ⟨bad, _⟩
      · rw [step, add64_eq (by omega), add64_eq (by omega)]
        rw [here] at tail
        rw [Nat.add_assoc] at tail
        rw [ih ⟨tail, fun x mem => walk.valid x (List.mem_cons_of_mem b mem)⟩
          (by simpa using enough) (by omega), List.length_cons]
        simp only [Prod.mk.injEq, ret.injEq, Option.some.injEq, true_and]
        omega
      · exact absurd valid bad

/-- The physical walk returns a count only when it found such blocks. -/
theorem walk_of_burst (map : region.Mapped) (total : region.size = n) (header : HeaderRepr n base m)
    {fuel count : Nat} (inside : base + t ≤ n) (counted : 32 * c ≤ t)
    (value : burst m (validateBlocks region (headerAddress region) fuel t c) = ([], ret (some count))) :
    ∃ blocks, Walk n m (base + t) blocks ∧ count = c + blocks.length := by
  induction fuel generalizing t c with
  | zero => simp [validateBlocks] at value
  | succ fuel ih =>
    have user := map.user
    rcases Nat.lt_or_eq_of_le inside with before | finish
    · rcases burst_blocks_step (c := c) map total header fuel before with ⟨valid, step⟩ | ⟨_, step⟩
      · have bound := valid.fits
        have least := valid.least
        rw [step, add64_eq (by omega), add64_eq (by omega)] at value
        obtain ⟨blocks, walk, same⟩ := ih (by omega) (by omega) value
        refine ⟨(base + t) :: blocks, ⟨⟨rfl, by omega, ?_⟩, ?_⟩, by rw [List.length_cons]; omega⟩
        · rw [Nat.add_assoc]
          exact walk.tiles
        · intro b mem
          rcases List.mem_cons.mp mem with same | later
          · rw [same]
            exact valid
          · exact walk.valid b later
      · simp [step] at value
    · rw [burst_blocks_end header fuel finish] at value
      simp only [Prod.mk.injEq, ret.injEq, Option.some.injEq, true_and] at value
      exact ⟨[], ⟨finish, by simp⟩, by simpa using value.symm⟩

end Physical

section Lists
variable {region : ShmRegion} {m : Mem} {n base s : Nat}

theorem burst_list_step (map : region.Mapped) (total : region.size = n) (inside : base < n) (shard : s < 4)
    (fuel : Nat) {x count : Nat} (positive : x ≠ 0) (left : count ≠ 0) :
    (ValidNode n base s m x ∧
      burst m (validateFreeList region s (shardStart base n s) (shardSize base n) (fuel + 1) x count) =
        burst m (validateFreeList region s (shardStart base n s) (shardSize base n) fuel
          (load m (x + 8) 8) (count - 1))) ∨
    (¬ValidNode n base s m x ∧
      burst m (validateFreeList region s (shardStart base n s) (shardSize base n) (fuel + 1) x count) =
        ([], ret none)) := by
  have user := map.user
  have finish := shardStart_end_le (Nat.le_of_lt inside) shard
  rw [validateFreeList, if_neg (by simpa using positive), if_neg left, add64_eq (by omega)]
  by_cases range : shardStart base n s ≤ x ∧ x < shardStart base n s + shardSize base n
  swap
  · rw [if_pos (by omega)]
    exact Or.inr ⟨fun valid => range ⟨valid.node.left, valid.node.right⟩, rfl⟩
  rw [if_neg (by omega)]
  by_cases fits : x + 32 ≤ n
  swap
  · have block : allocatorBlockFromOffset region x = none := resolve_eq_none map (by
      simp only [BlockHeader.sizeof]
      omega)
    simp only [block]
    exact Or.inr ⟨fun valid => fits valid.node.header, rfl⟩
  have block : allocatorBlockFromOffset region x = some (add64 region.base x) :=
    resolve_eq_some map (by omega) (by omega) (by simpa [total] using fits)
  simp only [block]
  simp (disch := omega) only [BlockHeader.nextFree, BlockHeader.flags, BlockHeader.shard, load64_field,
    load32_field]
  simp only [loadWord_bind, burst_read]
  by_cases free : load m (x + 16) 4 &&& 1 ≠ 0
  swap
  · rw [if_pos (by simpa using free)]
    exact Or.inr ⟨fun valid => free valid.free, rfl⟩
  rw [if_neg (by simpa using free), burst_read]
  by_cases owner : load m (x + 20) 4 = s
  swap
  · rw [if_pos owner]
    exact Or.inr ⟨fun valid => owner valid.owner, rfl⟩
  rw [if_neg (not_not_intro owner), burst_read]
  exact Or.inl ⟨⟨⟨range.1, range.2, fits⟩, free, owner⟩, rfl⟩

theorem burst_list (map : region.Mapped) (total : region.size = n) (inside : base < n) (shard : s < 4)
    {xs : List Nat} {cell count fuel : Nat} (chain : Chain (fun c => load m c 8) 8 cell xs)
    (nodes : ∀ x ∈ xs, ValidNode n base s m x) (room : xs.length ≤ count) (enough : xs.length < fuel) :
    burst m (validateFreeList region s (shardStart base n s) (shardSize base n) fuel (load m cell 8) count) =
      ([], ret (some (count - xs.length))) := by
  induction xs generalizing cell count fuel with
  | nil =>
    cases fuel with
    | zero => simp at enough
    | succ fuel =>
      rw [show load m cell 8 = 0 from chain, validateFreeList]
      simp
  | cons x rest ih =>
    cases fuel with
    | zero => simp at enough
    | succ fuel =>
      obtain ⟨first, positive, tail⟩ := chain
      rw [List.length_cons] at room enough
      rw [show load m cell 8 = x from first]
      rcases burst_list_step (m := m) map total inside shard fuel positive (show count ≠ 0 by omega)
        with ⟨_, step⟩ | ⟨bad, _⟩
      · rw [step, ih tail (fun y mem => nodes y (List.mem_cons_of_mem x mem)) (by omega) (by omega),
          List.length_cons]
        simp only [Prod.mk.injEq, ret.injEq, Option.some.injEq, true_and]
        omega
      · exact absurd (nodes x (by simp)) bad

/-- The walk along a free list returns a count only when the list ends. -/
theorem list_of_burst (map : region.Mapped) (total : region.size = n) (inside : base < n) (shard : s < 4)
    {cell count fuel rest : Nat}
    (value : burst m (validateFreeList region s (shardStart base n s) (shardSize base n) fuel
      (load m cell 8) count) = ([], ret (some rest))) :
    ∃ xs, Chain (fun c => load m c 8) 8 cell xs ∧ (∀ x ∈ xs, ValidNode n base s m x) ∧
      count = rest + xs.length := by
  induction fuel generalizing cell count with
  | zero => simp [validateFreeList] at value
  | succ fuel ih =>
    by_cases null : load m cell 8 = 0
    · rw [null, validateFreeList] at value
      simp only [offsetPtrIsNull, decide_true, if_true, pure_eq, burst_ret, Prod.mk.injEq, ret.injEq,
        Option.some.injEq, true_and] at value
      exact ⟨[], null, by simp, by simpa using value⟩
    · by_cases empty : count = 0
      · rw [validateFreeList, if_neg (by simpa using null), if_pos empty] at value
        simp at value
      · rcases burst_list_step (m := m) map total inside shard fuel null empty with ⟨valid, step⟩ | ⟨_, step⟩
        · rw [step] at value
          obtain ⟨xs, chain, nodes, same⟩ := ih value
          refine ⟨load m cell 8 :: xs, ⟨rfl, null, chain⟩, ?_, by rw [List.length_cons]; omega⟩
          intro y mem
          rcases List.mem_cons.mp mem with same | later
          · rw [same]
            exact valid
          · exact nodes y later
        · simp [step] at value

theorem freeCount_update {lists : Nat → List Nat} {xs : List Nat} {left : Nat} (before : s < 4 - left) :
    freeCount (Function.update lists s xs) left = freeCount lists left := by
  induction left with
  | zero => rfl
  | succ left ih => rw [freeCount, freeCount, ih (by omega), Function.update_of_ne (by omega)]

theorem burst_shards_step (header : HeaderRepr n base m) (word : n < 2 ^ 64)
    (fuel left count : Nat) (few : left < 4) :
    burst m (validateShards fuel region (headerAddress region) (left + 1) count) =
      burst m (validateFreeList region (4 - (left + 1)) (shardStart base n (4 - (left + 1)))
        (shardSize base n) fuel (load m (headCell (4 - (left + 1))) 8) count >>= fun rest =>
          match rest with
          | none => return .invalidState
          | some blockCount => validateShards fuel region (headerAddress region) left blockCount) := by
  have start := shard_offset word header.inside (show 4 - (left + 1) < 4 by omega)
  rw [validateShards]
  simp (disch := omega) only [headerAddress, allocatorMetadataOffset, RegionHeader.sizeof,
    AllocatorHeader.heapOffset, AllocatorHeader.heapSize, AllocatorHeader.shardFreeListHeads, load64_field,
    OffsetStore.shardCount]
  simp only [loadWord_bind, burst_read, Nat.reduceAdd, header.heapOffset, header.heapSize, start]
  rw [show 2496 + (192 + 8 * (4 - (left + 1))) = headCell (4 - (left + 1)) by unfold headCell; simp; omega]
  rfl

theorem burst_shards (map : region.Mapped) (total : region.size = n) (header : HeaderRepr n base m)
    (word : n < 2 ^ 64) {lists : Nat → List Nat} (free : ∀ s, s < 4 → FreeList n base s m (lists s))
    {fuel left count : Nat} (few : left ≤ 4) (room : freeCount lists left ≤ count) (enough : count < fuel) :
    burst m (validateShards fuel region (headerAddress region) left count) = ([], ret .ok) := by
  induction left generalizing count with
  | zero => rfl
  | succ left ih =>
    rw [freeCount] at room
    have shard : 4 - (left + 1) < 4 := by omega
    have here := free _ shard
    rw [burst_shards_step header word fuel left count (by omega),
      burst_bind_of_ret (burst_list map total header.inside shard here.chain here.nodes (by omega) (by omega))]
    exact ih (by omega) (by omega) (by omega)

theorem lists_of_burst (map : region.Mapped) (total : region.size = n) (header : HeaderRepr n base m)
    (word : n < 2 ^ 64) {fuel left count : Nat} (few : left ≤ 4)
    (value : burst m (validateShards fuel region (headerAddress region) left count) = ([], ret .ok)) :
    ∃ lists : Nat → List Nat, (∀ s, s < 4 → 4 ≤ s + left → FreeList n base s m (lists s)) ∧
      freeCount lists left ≤ count := by
  induction left generalizing count with
  | zero => exact ⟨fun _ => [], by omega, Nat.zero_le _⟩
  | succ left ih =>
    have shard : 4 - (left + 1) < 4 := by omega
    rw [burst_shards_step header word fuel left count (by omega)] at value
    obtain ⟨rest, walked, value⟩ := ret_of_burst_bind value
    cases rest with
    | none => simp at value
    | some rest =>
      obtain ⟨xs, chain, nodes, same⟩ := list_of_burst map total header.inside shard walked
      obtain ⟨lists, free, room⟩ := ih (by omega) value
      refine ⟨Function.update lists (4 - (left + 1)) xs, ?_, ?_⟩
      · intro s small last
        by_cases first : s = 4 - (left + 1)
        · subst first
          rw [Function.update_self]
          exact ⟨chain, nodes⟩
        · rw [Function.update_of_ne first]
          exact free s small (by omega)
      · rw [freeCount, Function.update_self, freeCount_update (by omega)]
        omega

end Lists

section Validate
variable {region : ShmRegion} {m : Mem} {n base : Nat}

theorem burst_validate (map : region.Mapped) (total : region.size = n) {blocks : List Nat}
    {lists : Nat → List Nat} (valid : ValidHeap n base m blocks lists) {fuel : Nat}
    (enough : blocks.length < fuel) : burst m (allocatorValidate fuel region) = ([], ret .ok) := by
  have user := map.user
  unfold allocatorValidate
  simp only [allocatorHeader_eq map (total ▸ valid.room)]
  have walked := burst_blocks (c := 0) (t := 0) map total valid.header valid.walk enough (Nat.le_refl 0)
  rw [burst_bind_of_ret (burst_header_valid map total valid.header)]
  simp only [Bool.not_true, Bool.false_eq_true, if_false]
  rw [burst_bind_of_ret walked]
  exact burst_shards map total valid.header (by omega) valid.free (Nat.le_refl 4)
    (by simpa using valid.count) (by simpa using enough)

theorem valid_of_burst (map : region.Mapped) (total : region.size = n) {fuel : Nat}
    (value : burst m (allocatorValidate fuel region) = ([], ret .ok)) :
    ∃ base blocks lists, ValidHeap n base m blocks lists := by
  have user := map.user
  unfold allocatorValidate at value
  by_cases room : 2728 ≤ n
  swap
  · have none : allocatorHeader region = none := by
      unfold allocatorHeader
      rw [if_pos (by simp only [allocatorMetadataOffset, RegionHeader.sizeof, AllocatorHeader.sizeof]; omega)]
    simp [none] at value
  simp only [allocatorHeader_eq map (total ▸ room)] at value
  obtain ⟨ok, checked, value⟩ := ret_of_burst_bind value
  obtain ⟨ok', checked', header⟩ := burst_header_check (m := m) map total
  rw [checked'] at checked
  simp only [Prod.mk.injEq, ret.injEq, true_and] at checked
  subst checked
  cases ok' with
  | false => simp at value
  | true =>
    obtain ⟨base, header⟩ := header.mp rfl
    simp only [Bool.not_true, Bool.false_eq_true, if_false] at value
    obtain ⟨count, walked, value⟩ := ret_of_burst_bind value
    cases count with
    | none => simp at value
    | some count =>
      have inside := header.inside
      obtain ⟨blocks, walk, same⟩ := walk_of_burst (t := 0) (c := 0) map total header (by omega)
        (Nat.le_refl 0) walked
      obtain ⟨lists, free, bound⟩ := lists_of_burst map total header (by omega) (Nat.le_refl 4) value
      exact ⟨base, blocks, lists, room, header, walk, fun s small => free s small (by omega), by omega⟩

/-- A position of the physical walk that allocator_get_stats takes for no block: no header fits there, or the
    size is zero or leads out of the heap. -/
def StatsRejects (n base : Nat) (m : Mem) (t : Nat) : Prop :=
  ¬(0 < base + t ∧ base + t + 32 ≤ n) ∨ blockSizeOf m (base + t) = 0 ∨ n - base - t < blockSizeOf m (base + t)

instance (n base : Nat) (m : Mem) (t : Nat) : Decidable (StatsRejects n base m t) := instDecidableOr

theorem block_from_offset (map : region.Mapped) (total : region.size = n) (x : Nat) :
    allocatorBlockFromOffset region x = if 0 < x ∧ x + 32 ≤ n then some (add64 region.base x) else none := by
  unfold allocatorBlockFromOffset
  split
  · exact resolve_eq_some map (by omega) (by omega) (by simp only [BlockHeader.sizeof]; omega)
  · exact resolve_eq_none map (by simp only [BlockHeader.sizeof]; omega)

/-- One turn of the loop of allocator_get_stats. -/
theorem burst_stats_at (map : region.Mapped) (total : region.size = n) (header : HeaderRepr n base m) (fuel t : Nat)
    (stats : AllocatorStats) :
    burst m (statsWalk region (headerAddress region) (fuel + 1) t stats) =
      if t < n - base then
        if StatsRejects n base m t then ([], ret (.error .invalidState))
        else burst m (statsWalk region (headerAddress region) fuel (t + blockSizeOf m (base + t))
          (stats.countBlock (blockSizeOf m (base + t)) (load m (base + t + 16) 4)))
      else ([], ret (.ok stats)) := by
  have user := map.user
  have bounded := header.inside
  have size : load m (base + t) 8 = blockSizeOf m (base + t) := rfl
  rw [statsWalk]
  simp (disch := omega) only [headerAddress, allocatorMetadataOffset, RegionHeader.sizeof,
    AllocatorHeader.heapOffset, AllocatorHeader.heapSize, load64_field]
  simp only [loadWord_bind, burst_read, Nat.reduceAdd, header.heapSize]
  by_cases inside : t < n - base
  swap
  · rw [if_neg inside, if_neg inside]
    rfl
  rw [if_pos inside, if_pos inside, burst_read, header.heapOffset, add64_eq (by omega), block_from_offset map total]
  by_cases fits : 0 < base + t ∧ base + t + 32 ≤ n
  swap
  · have rejected : StatsRejects n base m t := Or.inl fits
    rw [if_neg fits, if_pos rejected]
    rfl
  simp only [if_pos fits]
  simp (disch := omega) only [BlockHeader.size, BlockHeader.flags, load64_field, load32_field]
  simp only [loadWord_bind, burst_read, Nat.add_zero, size]
  rw [sub64_eq (by omega) (by omega)]
  by_cases bad : blockSizeOf m (base + t) = 0 ∨ n - base - t < blockSizeOf m (base + t)
  · have rejected : StatsRejects n base m t := Or.inr bad
    rw [if_pos bad, if_pos rejected]
    rfl
  · have accepted : ¬StatsRejects n base m t := fun rejected => rejected.elim (fun out => out fits) bad
    have next : add64 t (blockSizeOf m (base + t)) = t + blockSizeOf m (base + t) := add64_eq (by omega)
    rw [if_neg bad, if_neg accepted, burst_read, next]

theorem loads_stats (fuel : Nat) : Loads (allocatorGetStats fuel region) := by
  have walk : ∀ header fuel t stats, Loads (statsWalk region header fuel t stats) := by
    intro header fuel
    induction fuel with
    | zero => exact fun _ _ => loads_spin
    | succ fuel ih =>
      intro t stats
      unfold statsWalk ShmRegion.load64 ShmRegion.load32
      simp only [loadWord_bind]
      refine loads_read fun _ => loads_ite (loads_read fun _ => ?_) loads_ret
      split
      · exact loads_ret
      · exact loads_read fun _ => loads_ite loads_ret (loads_read fun _ => ih _ _)
  unfold allocatorGetStats ShmRegion.load64
  split
  · exact loads_ret
  · simp only [loadWord_bind]
    exact loads_bind (loads_header _) fun valid =>
      loads_ite loads_ret (loads_read fun _ => loads_read fun _ => walk _ _ _ _)

/-- allocator_get_stats walks the same blocks and counts them. -/
theorem burst_stats_walk (map : region.Mapped) (total : region.size = n) (header : HeaderRepr n base m)
    {blocks : List Nat} {t fuel : Nat} (walk : Walk n m (base + t) blocks) (enough : blocks.length < fuel)
    (stats : AllocatorStats) :
    burst m (statsWalk region (headerAddress region) fuel t stats) = ([], ret (.ok (blocks.foldl
      (fun stats b => stats.countBlock (blockSizeOf m b) (load m (b + 16) 4)) stats))) := by
  induction blocks generalizing t fuel stats with
  | nil =>
    have finish : base + t = n := walk.tiles
    obtain ⟨fuel, rfl⟩ := Nat.exists_eq_succ_of_ne_zero (Nat.ne_of_gt enough)
    rw [burst_stats_at map total header, if_neg (by omega)]
    rfl
  | cons b rest ih =>
    rw [List.length_cons] at enough
    obtain ⟨fuel, rfl⟩ := Nat.exists_eq_succ_of_ne_zero (show fuel ≠ 0 by omega)
    obtain ⟨first, positive, tail⟩ := walk.tiles
    have here : b = base + t := first
    subst here
    have valid := walk.valid (base + t) (by simp)
    have bound := valid.fits
    have least := valid.least
    have inside := valid.header
    have start := valid.positive
    rw [Nat.add_assoc] at tail
    rw [burst_stats_at map total header, if_pos (by omega), if_neg (by unfold StatsRejects; omega), List.foldl_cons]
    exact ih ⟨tail, fun x mem => walk.valid x (List.mem_cons_of_mem _ mem)⟩ (by omega) _

theorem burst_stats (map : region.Mapped) (total : region.size = n) {blocks : List Nat}
    {lists : Nat → List Nat} (valid : ValidHeap n base m blocks lists) :
    ∃ stats, ∀ fuel, blocks.length < fuel →
      burst m (allocatorGetStats fuel region) = ([], ret (.ok stats)) := by
  refine ⟨blocks.foldl (fun stats b => stats.countBlock (blockSizeOf m b) (load m (b + 16) 4))
    ⟨load m 2520 8, 0, 0, 0, 0, load m 2720 8⟩, fun fuel enough => ?_⟩
  unfold allocatorGetStats
  simp only [allocatorHeader_eq map (total ▸ valid.room)]
  rw [burst_bind_of_ret (burst_header_valid map total valid.header)]
  simp only [Bool.not_true, Bool.false_eq_true, if_false]
  have walk := burst_stats_walk (t := 0) map total valid.header valid.walk enough
    ⟨load m 2520 8, 0, 0, 0, 0, load m 2720 8⟩
  simp (disch := omega) only [headerAddress, allocatorMetadataOffset, RegionHeader.sizeof,
    AllocatorHeader.heapSize, AllocatorHeader.allocationFailures, load64_field]
  simp only [loadWord_bind, burst_read]
  exact walk

end Validate

section View
variable {m : Mem} {n : Nat} {V : HeapView}

/-- All blocks of a view in address order. -/
def HeapView.allBlocks (V : HeapView) : List Block :=
  (V 0).blocks ++ ((V 1).blocks ++ ((V 2).blocks ++ (V 3).blocks))

theorem HeapView.mem_allBlocks {V : HeapView} {b : Block} :
    b ∈ V.allBlocks ↔ ∃ s, s < 4 ∧ b ∈ (V s).blocks := by
  unfold HeapView.allBlocks
  simp only [List.mem_append]
  constructor
  · rintro (mem | mem | mem | mem)
    · exact ⟨0, by omega, mem⟩
    · exact ⟨1, by omega, mem⟩
    · exact ⟨2, by omega, mem⟩
    · exact ⟨3, by omega, mem⟩
  · rintro ⟨s, small, mem⟩
    have cases : s = 0 ∨ s = 1 ∨ s = 2 ∨ s = 3 := by omega
    rcases cases with rfl | rfl | rfl | rfl
    · exact Or.inl mem
    · exact Or.inr (Or.inl mem)
    · exact Or.inr (Or.inr (Or.inl mem))
    · exact Or.inr (Or.inr (Or.inr mem))

theorem shardStart_succ (base n s : Nat) :
    shardStart base n s + shardSize base n = shardStart base n (s + 1) := by
  unfold shardStart
  rw [Nat.add_mul, Nat.one_mul]
  omega

namespace HeapInv

/-- The four shards together fill the heap up to the fourfold of a shard. -/
theorem all_tiles (inv : HeapInv n m V) :
    Tiles Block.start Block.size heapBase (shardStart heapBase n 4) V.allBlocks := by
  have first : heapBase = shardStart heapBase n 0 := by simp [shardStart]
  have tiles : ∀ s, s < 4 →
      Tiles Block.start Block.size (shardStart heapBase n s) (shardStart heapBase n (s + 1)) (V s).blocks := by
    intro s small
    rw [← shardStart_succ]
    exact (inv.shards s small).tiles
  have zero := tiles 0 (by omega)
  rw [← first] at zero
  exact tiles_append.mpr ⟨_, zero, tiles_append.mpr ⟨_, tiles 1 (by omega),
    tiles_append.mpr ⟨_, tiles 2 (by omega), tiles 3 (by omega)⟩⟩⟩

theorem start_tiles (inv : HeapInv n m V) :
    Tiles id (blockSizeOf m) heapBase (shardStart heapBase n 4) (V.allBlocks.map Block.start) := by
  apply tiles_map Block.start inv.all_tiles
  intro b mem
  obtain ⟨s, small, mb⟩ := HeapView.mem_allBlocks.mp mem
  exact ⟨rfl, ((inv.shards s small).repr b mb).size⟩

theorem valid_block (inv : HeapInv n m V) {s : Nat} (small : s < 4) {b : Block} (mem : b ∈ (V s).blocks) :
    ValidBlock n m b.start := by
  have shard := inv.shards s small
  have repr := shard.repr b mem
  have inside := shard.bounds mem
  have finish := heap_end_le inv.room small
  have start := shardStart_ge n s
  have size : blockSizeOf m b.start = b.size := repr.size
  refine ⟨by omega, by omega, by omega, by omega, ?_, by rw [repr.shard]; exact small⟩
  have use := repr.use
  unfold UseRepr at use
  cases kind : b.use with
  | free =>
    rw [kind] at use
    exact Or.inr use.1
  | leaked =>
    rw [kind] at use
    exact use
  | live a =>
    rw [kind] at use
    exact Or.inl use.1

theorem valid_list (inv : HeapInv n m V) {s : Nat} (small : s < 4) :
    FreeList n heapBase s m (V s).free := by
  have shard := inv.shards s small
  refine ⟨shard.chain, fun x mem => ?_⟩
  obtain ⟨b, mb, rfl, free⟩ := shard.block_of_free mem
  have repr := shard.repr b mb
  have inside := shard.bounds mb
  have finish := heap_end_le inv.room small
  have use := repr.use
  unfold UseRepr at use
  rw [free] at use
  exact ⟨⟨inside.1, by omega, by omega⟩, by rw [use.1]; decide, repr.shard⟩

theorem free_count_le (inv : HeapInv n m V) :
    freeCount (fun s => (V s).free) 4 ≤ (V.allBlocks.map Block.start).length := by
  have zero := inv.free_length_le (s := 0) (by omega)
  have one := inv.free_length_le (s := 1) (by omega)
  have two := inv.free_length_le (s := 2) (by omega)
  have three := inv.free_length_le (s := 3) (by omega)
  simp only [freeCount, HeapView.allBlocks, List.length_map, List.length_append, Nat.reduceAdd,
    Nat.reduceSub]
  omega

/-- The four shards reach the end of the region when its size is a multiple of four. -/
theorem shards_end_iff (inv : HeapInv n m V) : shardStart heapBase n 4 = n ↔ n % 4 = 0 := by
  have room := inv.room
  unfold shardStart shardSize heapBase at *
  omega

theorem valid_heap (inv : HeapInv n m V) (aligned : n % 4 = 0) :
    ValidHeap n heapBase m (V.allBlocks.map Block.start) (fun s => (V s).free) := by
  have room := inv.room
  unfold heapBase at room
  refine ⟨by omega, inv.header, ⟨?_, ?_⟩, fun s small => inv.valid_list small, inv.free_count_le⟩
  · have tiles := inv.start_tiles
    rwa [inv.shards_end_iff.mpr aligned] at tiles
  · intro x mem
    obtain ⟨b, mb, rfl⟩ := List.mem_map.mp mem
    obtain ⟨s, small, mem⟩ := HeapView.mem_allBlocks.mp mb
    exact inv.valid_block small mem

/-- A remainder of fewer than four bytes is no block: validation fails. -/
theorem aligned_of_valid (inv : HeapInv n m V) {base : Nat} {blocks : List Nat} {lists : Nat → List Nat}
    (valid : ValidHeap n base m blocks lists) : n % 4 = 0 := by
  have same : base = heapBase := valid.header.heapOffset.symm.trans inv.header.heapOffset
  subst same
  have room := inv.room
  have bound : shardStart heapBase n 4 ≤ n ∧ n < shardStart heapBase n 4 + 4 := by
    unfold shardStart shardSize
    omega
  obtain ⟨rest, _, tiles⟩ := tiles_prefix inv.start_tiles valid.walk.tiles bound.1
  rw [← inv.shards_end_iff]
  cases rest with
  | nil => exact tiles
  | cons b rest =>
    have start : b = shardStart heapBase n 4 := tiles.1
    have header := (valid.walk.valid b (by simp [*])).header
    omega

theorem validates_iff (inv : HeapInv n m V) {region : ShmRegion} (map : region.Mapped)
    (total : region.size = n) {fuel : Nat} (enough : V.allBlocks.length < fuel) :
    burst m (allocatorValidate fuel region) = ([], ret .ok) ↔ n % 4 = 0 := by
  constructor
  · intro value
    obtain ⟨base, blocks, lists, valid⟩ := valid_of_burst map total value
    exact inv.aligned_of_valid valid
  · intro aligned
    exact burst_validate map total (inv.valid_heap aligned) (by simpa using enough)

end HeapInv

end View

end OffsetStore
