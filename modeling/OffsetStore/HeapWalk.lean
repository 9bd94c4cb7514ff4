import OffsetStore.HeapStores

/- The allocator's critical sections step by step: what the header check accepts,
   where the first-fit walk stops on a given chain of nodes, and which stores the
   taking of a block makes. Nothing here assumes that the nodes are real blocks. -/
namespace OffsetStore
open ByteMemory Program Prog Words Tiling CellChain

def headerAddress (region : ShmRegion) : Nat := add64 region.base allocatorMetadataOffset

/-- A pointer to a link word, given by the offset of the word. -/
def LinkAt (region : ShmRegion) (link cell : Nat) : Prop := region.offsetOf (add64 link 0) = cell

/-- A free-list node the walk of shard s accepts. -/
structure Node (base n s x : Nat) : Prop where
  left : shardStart base n s ≤ x
  right : x < shardStart base n s + shardSize base n
  header : x + 32 ≤ n

theorem align_up_pow {v k : Nat} (fits : v + (2 ^ k - 1) < 2 ^ 64) (small : k < 64) :
    allocatorAlignUp v (2 ^ k) = some (roundUp v (2 ^ k)) := by
  have bits : 2 ^ k &&& (2 ^ k - 1) = 0 :=
    (Nat.ne_zero_and_sub_one_eq_zero_iff_isPowerOfTwo.mpr ⟨k, rfl⟩).2
  unfold allocatorAlignUp sizeMax
  rw [if_neg (by simp [bits]), if_neg (by omega), add64_eq fits, and_not64_low fits small]
  rfl

theorem align_up_sixteen {v : Nat} (fits : v + 15 < 2 ^ 64) :
    allocatorAlignUp v 16 = some (roundUp v 16) :=
  align_up_pow (k := 4) (by omega) (by omega)

theorem align_up_refused {v a : Nat} (bad : ¬∃ k, a = 2 ^ k) : allocatorAlignUp v a = none := by
  unfold allocatorAlignUp
  rw [if_pos]
  by_contra both
  rw [not_or, not_not] at both
  exact bad (two_pow_of_and_pred both.1 both.2)

section Header
variable {region : ShmRegion} {m : Mem} {n base : Nat}

theorem allocatorHeader_eq (map : region.Mapped) (room : 2728 ≤ region.size) :
    allocatorHeader region = some (headerAddress region) := by
  have positive := map.base_pos
  unfold allocatorHeader
  rw [if_neg]
  · rfl
  · simp only [allocatorMetadataOffset, RegionHeader.sizeof, AllocatorHeader.sizeof]
    omega

/-- The header check reads six fields and decides whether they form a header. -/
theorem burst_header_check (map : region.Mapped) (total : region.size = n) :
    ∃ ok, burst m (allocatorHeaderValid region (headerAddress region)) = ([], ret ok) ∧
      (ok = true ↔ ∃ base, HeaderRepr n base m) := by
  have user := map.user
  unfold allocatorHeaderValid headerAddress allocatorMetadataOffset
  simp (disch := omega) only [RegionHeader.sizeof, AllocatorHeader.magic, AllocatorHeader.version,
    AllocatorHeader.shardCount, AllocatorHeader.heapOffset, AllocatorHeader.heapSize, load64_field,
    load32_field]
  simp only [loadWord_bind, burst_read, Nat.add_zero, Nat.reduceAdd, total, pure_eq]
  by_cases magic : load m 2496 8 = allocatorMagic
  swap
  · rw [if_pos magic]
    exact ⟨false, rfl, by simpa using fun base header => magic header.magic⟩
  rw [if_neg (by simpa using magic), burst_read]
  by_cases version : load m 2504 4 = allocatorVersion
  swap
  · rw [if_pos version]
    exact ⟨false, rfl, by simpa using fun base header => version header.version⟩
  rw [if_neg (by simpa using version), burst_read]
  by_cases shards : load m 2508 4 = OffsetStore.shardCount
  swap
  · rw [if_pos shards]
    exact ⟨false, rfl, by simpa using fun base header => shards header.shards⟩
  rw [if_neg (by simpa using shards), burst_read, burst_read]
  have wordO := load_eight_lt m 2512
  have wordS := load_eight_lt m 2520
  by_cases bounds : load m 2512 8 ≥ n ∨ load m 2520 8 > n
  · rw [if_pos bounds]
    refine ⟨false, rfl, by simp, ?_⟩
    rintro ⟨base, header⟩
    rw [header.heapOffset, header.heapSize] at bounds
    have inside := header.inside
    omega
  rw [if_neg bounds, add64_eq (by omega)]
  by_cases whole : load m 2512 8 + load m 2520 8 = n
  · rw [if_neg (by simpa using whole)]
    exact ⟨true, rfl, fun _ => ⟨load m 2512 8, magic, version, shards, rfl, by omega, by omega⟩,
      fun _ => rfl⟩
  · rw [if_pos whole]
    refine ⟨false, rfl, by simp, ?_⟩
    rintro ⟨base, header⟩
    rw [header.heapOffset, header.heapSize] at whole
    have inside := header.inside
    omega

theorem burst_header_valid (map : region.Mapped) (total : region.size = n)
    (header : HeaderRepr n base m) :
    burst m (allocatorHeaderValid region (headerAddress region)) = ([], ret true) := by
  obtain ⟨ok, value, valid⟩ := burst_header_check (m := m) map total
  rw [value, valid.mpr ⟨base, header⟩]

theorem shard_offset {s : Nat} (small : n < 2 ^ 64) (inside : base < n) (shard : s < 4) :
    allocatorShardHeapOffset base (n - base) s = shardStart base n s := by
  have last := shardStart_end_le (Nat.le_of_lt inside) shard
  unfold shardStart shardSize at last
  unfold allocatorShardHeapOffset OffsetStore.shardCount
  rw [mul64_eq (by omega), add64_eq (by omega)]
  rfl

end Header

section Walk
variable {region : ShmRegion} {m : Mem} {n base s size k : Nat}

section Enter
variable (map : region.Mapped) (total : region.size = n) (header : HeaderRepr n base m) (shard : s < 4) {alignment x : Nat}
  (named : x ≠ 0) (link fuel : Nat)
include map total header shard named

/-- At a block of the shard the walk places the payload, rounds up what that takes, and compares it with the block. -/
theorem burst_walk_enter (node : Node base n s x) :
    burst m (allocWalk region (headerAddress region) s size alignment (fuel + 1) link x) =
      burst m (match allocatorAlignUp (add64 40 x) alignment with
        | none => allocExit s (some (.error .invalidArgument))
        | some aligned =>
          match allocatorAlignUp (add64 (sub64 aligned x) size) alignofMax with
          | none => allocExit s (some (.error .invalidArgument))
          | some needed =>
            if needed ≤ load m x 8 then allocTake region s link x (add64 region.base x) (sub64 aligned x) needed
            else allocWalk region (headerAddress region) s size alignment fuel (add64 (add64 region.base x) 8)
              (load m (x + 8) 8)) := by
  have user := map.user
  have inside := header.inside
  have low := node.left
  have high := node.right
  have fits := node.header
  have finish := shardStart_end_le (Nat.le_of_lt inside) shard
  have start := shard_offset (by omega) inside shard
  have block : allocatorBlockFromOffset region x = some (add64 region.base x) :=
    resolve_eq_some map (by omega) (by omega) (by simpa [total] using fits)
  have bounds : ¬(x < shardStart base n s ∨ x ≥ add64 (shardStart base n s) (shardSize base n)) := by
    rw [add64_eq (by omega)]
    omega
  rw [allocWalk, if_neg (by simpa using named)]
  simp (disch := omega) only [headerAddress, allocatorMetadataOffset, RegionHeader.sizeof,
    AllocatorHeader.heapOffset, AllocatorHeader.heapSize, load64_field, BlockHeader.size,
    BlockHeader.nextFree, BlockHeader.sizeof, AllocationPrefix.sizeof]
  simp only [loadWord_bind, burst_read, Nat.reduceAdd, header.heapOffset, header.heapSize, start]
  rw [show allocatorShardHeapSize (n - base) = shardSize base n from rfl, if_neg bounds]
  simp only [block]
  cases allocatorAlignUp (add64 40 x) alignment with
  | none => rfl
  | some aligned =>
    dsimp only
    cases allocatorAlignUp (add64 (sub64 aligned x) size) alignofMax with
    | none => rfl
    | some needed =>
      simp (disch := omega) only [load64_field, loadWord_bind, burst_read, Nat.add_zero]
      split
      · rfl
      · rfl

/-- Any other offset ends the walk. -/
theorem burst_walk_outside (outside : ¬Node base n s x) :
    burst m (allocWalk region (headerAddress region) s size alignment (fuel + 1) link x) =
      burst m (allocExit s (some (.error .invalidState))) := by
  have user := map.user
  have inside := header.inside
  have finish := shardStart_end_le (Nat.le_of_lt inside) shard
  have start := shard_offset (by omega) inside shard
  have range : add64 (shardStart base n s) (shardSize base n) = shardStart base n s + shardSize base n :=
    add64_eq (by omega)
  rw [allocWalk, if_neg (by simpa using named)]
  simp (disch := omega) only [headerAddress, allocatorMetadataOffset, RegionHeader.sizeof,
    AllocatorHeader.heapOffset, AllocatorHeader.heapSize, load64_field]
  simp only [loadWord_bind, burst_read, Nat.reduceAdd, header.heapOffset, header.heapSize, start]
  rw [show allocatorShardHeapSize (n - base) = shardSize base n from rfl, range]
  split
  · rfl
  · rename_i within
    have block : allocatorBlockFromOffset region x = none := resolve_eq_none map (by
      by_contra fits
      exact outside ⟨by omega, by omega, by simp only [BlockHeader.sizeof] at fits; omega⟩)
    simp only [block]

end Enter

/-- One node: the walk takes it when the rounded request fits, and goes on otherwise. -/
theorem burst_walk_node (map : region.Mapped) (total : region.size = n)
    (header : HeaderRepr n base m) (shard : s < 4) (sized : size + 2 ^ k + 70 ≤ 2 ^ 64) (power : k < 64)
    {x : Nat} (link fuel : Nat) (node : Node base n s x) (positive : x ≠ 0) :
    burst m (allocWalk region (headerAddress region) s (roundUp size 16) (2 ^ k) (fuel + 1) link x) =
      if required x size (2 ^ k) ≤ load m x 8 then
        burst m (allocTake region s link x (add64 region.base x)
          (payloadPtr x (2 ^ k) - x) (required x size (2 ^ k)))
      else burst m (allocWalk region (headerAddress region) s (roundUp size 16) (2 ^ k) fuel
        (add64 (add64 region.base x) 8) (load m (x + 8) 8)) := by
  have user := map.user
  have fits := node.header
  have pow : 2 ^ k ≤ 2 ^ 63 := Nat.pow_le_pow_right (by omega) (by omega)
  have posk := Nat.two_pow_pos k
  have place : allocatorAlignUp (add64 40 x) (2 ^ k) = some (payloadPtr x (2 ^ k)) := by
    rw [add64_eq (by omega), Nat.add_comm, align_up_pow (by omega) power]
    rfl
  have ptrLow : x + 40 ≤ payloadPtr x (2 ^ k) := roundUp_le posk
  have ptrHigh : payloadPtr x (2 ^ k) < x + 40 + 2 ^ k := roundUp_lt posk
  have sizeHigh : roundUp size 16 < size + 16 := roundUp_lt (by omega)
  have room : allocatorAlignUp (add64 (payloadPtr x (2 ^ k) - x) (roundUp size 16)) 16 =
      some (required x size (2 ^ k)) := by
    rw [add64_eq (by omega), align_up_sixteen (by omega)]
    rfl
  rw [burst_walk_enter map total header shard positive link fuel node]
  simp only [place]
  rw [sub64_eq (by omega) (by omega)]
  simp only [alignofMax, room]
  split
  · rfl
  · rfl

theorem link_field {x : Nat} (small : x + 8 < 2 ^ 64) :
    LinkAt region (add64 (add64 region.base x) 8) (x + 8) := by
  unfold LinkAt ShmRegion.offsetOf sub64 add64
  omega

/-- The walk stops at the first node that fits, at the end of the list, or when the
   fuel is spent. -/
theorem burst_walk (map : region.Mapped) (total : region.size = n)
    (header : HeaderRepr n base m) (shard : s < 4) (sized : size + 2 ^ k + 70 ≤ 2 ^ 64) (power : k < 64)
    {rest : List Nat} {link cell : Nat} (fuel : Nat) (at_cell : LinkAt region link cell)
    (chain : Chain (fun c => load m c 8) 8 cell rest) (nodes : ∀ x ∈ rest, Node base n s x) :
    (∃ pre x post link', rest = pre ++ x :: post ∧ pre.length < fuel ∧
      (∀ y ∈ pre, load m y 8 < required y size (2 ^ k)) ∧ required x size (2 ^ k) ≤ load m x 8 ∧
      LinkAt region link' (cellAfter 8 cell pre) ∧
      burst m (allocWalk region (headerAddress region) s (roundUp size 16) (2 ^ k) fuel link
          (load m cell 8)) =
        burst m (allocTake region s link' x (add64 region.base x) (payloadPtr x (2 ^ k) - x)
          (required x size (2 ^ k)))) ∨
    ((∀ y ∈ rest, load m y 8 < required y size (2 ^ k)) ∧ rest.length < fuel ∧
      burst m (allocWalk region (headerAddress region) s (roundUp size 16) (2 ^ k) fuel link
          (load m cell 8)) = burst m (allocExit s none)) ∨
    (fuel ≤ rest.length ∧
      burst m (allocWalk region (headerAddress region) s (roundUp size 16) (2 ^ k) fuel link
          (load m cell 8)) = ([], spin)) := by
  induction rest generalizing cell link fuel with
  | nil =>
    cases fuel with
    | zero => exact Or.inr (Or.inr ⟨by simp, rfl⟩)
    | succ fuel =>
      refine Or.inr (Or.inl ⟨by simp, by simp, ?_⟩)
      rw [show load m cell 8 = 0 from chain, allocWalk]
      simp
  | cons x rest ih =>
    cases fuel with
    | zero => exact Or.inr (Or.inr ⟨by simp, rfl⟩)
    | succ fuel =>
      obtain ⟨first, positive, tail⟩ := chain
      have node := nodes x (by simp)
      have user := map.user
      have short := node.header
      have here := burst_walk_node map total header shard sized power link fuel node positive
      simp only at first
      rw [first, here]
      by_cases fits : required x size (2 ^ k) ≤ load m x 8
      · rw [if_pos fits]
        exact Or.inl ⟨[], x, rest, link, rfl, by simp, by simp, fits, at_cell, rfl⟩
      · rw [if_neg fits]
        have below : load m x 8 < required x size (2 ^ k) := by omega
        rcases ih fuel (link_field (by omega)) tail
          (fun y mem => nodes y (List.mem_cons_of_mem _ mem)) with
          ⟨pre, y, post, link', list, short, smaller, found, at', same⟩ | ⟨none, short, same⟩ |
          ⟨short, same⟩
        · refine Or.inl ⟨x :: pre, y, post, link', by simp [list], by simpa using short, ?_, found, at', same⟩
          intro z mem
          rcases List.mem_cons.mp mem with eq | later
          · rw [eq]
            exact below
          · exact smaller z later
        · refine Or.inr (Or.inl ⟨?_, by simpa using short, same⟩)
          intro z mem
          rcases List.mem_cons.mp mem with eq | later
          · rw [eq]
            exact below
          · exact none z later
        · exact Or.inr (Or.inr ⟨by simpa using short, same⟩)

/-- An alignment that is no power of two is refused at the first node. -/
theorem burst_walk_refused (map : region.Mapped) (total : region.size = n)
    (header : HeaderRepr n base m) (shard : s < 4) {alignment : Nat}
    (bad : ¬∃ k, alignment = 2 ^ k) {x link fuel : Nat} (node : Node base n s x)
    (positive : x ≠ 0) :
    burst m (allocWalk region (headerAddress region) s size alignment (fuel + 1) link x) =
      burst m (allocExit s (some (.error .invalidArgument))) := by
  rw [burst_walk_enter map total header shard positive link fuel node]
  simp only [align_up_refused bad]

end Walk

section Take
variable {region : ShmRegion} {m : Mem} {n s x payload size link cell : Nat}

/-- What is left of the call once the block is taken: unlock and return the payload. -/
def takenExit (region : ShmRegion) (s x payload : Nat) :
    Code (Option (Except OffsetStoreStatus Nat)) :=
  call (.mutexUnlock (shardMutex s)) fun _ => call (.setHeldShard (-1)) fun _ =>
    ret (some (.ok (add64 (add64 region.base x) payload)))

theorem burst_mark (map : region.Mapped) (total : region.size = n) (low : 40 ≤ payload)
    (fits : x + payload ≤ n) (m : Mem) :
    burst m (allocMark region s x (add64 region.base x) payload) =
      (markStores x s payload, takenExit region s x payload) := by
  have user := map.user
  have small := map.base_pos
  have place : region.offsetOf (add64 (sub64 (add64 (add64 region.base x) payload) 8) 0) =
      x + payload - 8 := by
    unfold ShmRegion.offsetOf sub64 add64
    omega
  unfold allocMark allocExit
  simp (disch := omega) only [BlockHeader.flags, BlockHeader.nextFree, BlockHeader.shard,
    BlockHeader.payloadOffset, AllocationPrefix.sizeof, AllocationPrefix.blockOffset, store32_field,
    store64_field]
  simp only [storeWord_bind, burst_write, perform_bind, ShmRegion.store64, place, burst_call,
    pure_eq, markStores, offsetPtrNull, takenExit]

theorem burst_take_split (map : region.Mapped) (total : region.size = n)
    (at_cell : LinkAt region link cell) (low : 40 ≤ payload) (high : payload ≤ size)
    (room : size + 56 ≤ load m x 8) (inside : x + load m x 8 ≤ n) :
    burst m (allocTake region s link x (add64 region.base x) payload size) =
      (restStores (x + size) (load m x 8 - size) (load m (x + 8) 8) s ++
        moveLinkStores cell x size ++ markStores x s payload, takenExit region s x payload) := by
  have user := map.user
  have positive := map.base_pos
  have next : allocatorBlockFromOffset region (add64 x size) = some (add64 region.base (x + size)) := by
    rw [add64_eq (by omega)]
    exact resolve_eq_some map (by omega) (by omega) (by simp only [BlockHeader.sizeof]; omega)
  have remaining : sub64 (load m x 8) size = load m x 8 - size := sub64_eq (by omega) (by omega)
  have enough : load m x 8 - size ≥ allocatorMinBlockSize := by
    simp only [allocatorMinBlockSize, BlockHeader.sizeof, AllocationPrefix.sizeof, alignofMax]
    omega
  unfold allocTake
  simp (disch := omega) only [BlockHeader.size, BlockHeader.nextFree, load64_field]
  simp only [loadWord_bind, burst_read, Nat.add_zero, remaining]
  rw [if_pos enough]
  simp only [next]
  simp (disch := omega) only [BlockHeader.flags, BlockHeader.shard, BlockHeader.payloadOffset,
    store64_field, store32_field]
  have link0 : ∀ v, region.store64 link 0 v = storeWord cell 8 v := by
    intro v
    rw [ShmRegion.store64, at_cell]
  have marks : ∀ m', burst m' (allocMark region s x (add64 region.base x) payload) =
      (markStores x s payload, takenExit region s x payload) :=
    burst_mark map total low (by omega)
  simp only [storeWord_bind, burst_write, burst_read, link0, marks]
  have kept : load (store m (x + size + 0) 8 (load m x 8 - size)) (x + 8) 8 = load m (x + 8) 8 :=
    load_store_apart (by omega)
  simp only [kept, add64_eq (show x + size < 2 ^ 64 by omega)]
  rfl

theorem burst_take_whole (map : region.Mapped) (total : region.size = n)
    (at_cell : LinkAt region link cell) (low : 40 ≤ payload) (high : payload ≤ size)
    (least : size ≤ load m x 8) (room : load m x 8 < size + 56) (inside : x + load m x 8 ≤ n) :
    burst m (allocTake region s link x (add64 region.base x) payload size) =
      ((cell, 8, load m (x + 8) 8) :: markStores x s payload, takenExit region s x payload) := by
  have user := map.user
  have positive := map.base_pos
  have remaining : sub64 (load m x 8) size = load m x 8 - size := sub64_eq least (by omega)
  have small : ¬load m x 8 - size ≥ allocatorMinBlockSize := by
    simp only [allocatorMinBlockSize, BlockHeader.sizeof, AllocationPrefix.sizeof, alignofMax]
    omega
  unfold allocTake
  simp (disch := omega) only [BlockHeader.size, BlockHeader.nextFree, load64_field]
  simp only [loadWord_bind, burst_read, Nat.add_zero, remaining]
  rw [if_neg small]
  have link0 : ∀ v, region.store64 link 0 v = storeWord cell 8 v := by
    intro v
    rw [ShmRegion.store64, at_cell]
  have marks : ∀ m', burst m' (allocMark region s x (add64 region.base x) payload) =
      (markStores x s payload, takenExit region s x payload) :=
    burst_mark map total low (by omega)
  simp only [storeWord_bind, burst_write, burst_read, link0, marks]

end Take

end OffsetStore
