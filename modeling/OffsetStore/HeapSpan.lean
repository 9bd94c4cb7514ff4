import OffsetStore.HeapValidate

/- What allocator_get_allocation_span answers on a heap that carries a view: the rest of
   the block behind a live payload, and an error for every other offset. -/
namespace OffsetStore
open ByteMemory Program Prog Words Tiling CellChain

def spanOf (m : Mem) (a : Alloc) : Nat := load m a.block 8 - (a.ptr - a.block)

/-- The block at b is in use and its payload starts at offset x. -/
def SpanMatch (m : Mem) (x b : Nat) : Prop := load m (b + 16) 4 &&& blockFree = 0 ∧ b + load m (b + 24) 4 = x

instance (m : Mem) (x b : Nat) : Decidable (SpanMatch m x b) := instDecidableAnd

section Walk
variable {region : ShmRegion} {m : Mem} {n base x : Nat}

theorem loads_span (fuel ptr : Nat) : Loads (allocatorGetAllocationSpan fuel region ptr) := by
  have walk : ∀ header fuel t, Loads (spanWalk region header ptr fuel t) := by
    intro header fuel
    induction fuel with
    | zero => exact fun _ => loads_spin
    | succ fuel ih =>
      intro t
      unfold spanWalk ShmRegion.load64 ShmRegion.load32
      simp only [loadWord_bind]
      refine loads_read fun _ => loads_ite (loads_read fun _ => ?_) loads_ret
      split
      · exact loads_ret
      · refine loads_read fun _ => loads_ite (loads_read fun _ => loads_ite ?_ ?_) (loads_read fun _ => ih _)
        · exact loads_read fun _ => loads_read fun _ => loads_ret
        · exact loads_read fun _ => ih _
  unfold allocatorGetAllocationSpan
  refine loads_ite loads_ret ?_
  split
  · exact loads_ret
  · exact loads_bind (loads_header _) fun valid => loads_ite loads_ret (walk _ _ _)

/-- The block at b is in use and its payload starts at the address ptr. -/
def AddressMatch (region : ShmRegion) (m : Mem) (ptr b : Nat) : Prop :=
  load m (b + 16) 4 &&& blockFree = 0 ∧ add64 (add64 region.base b) (load m (b + 24) 4) = ptr

instance (region : ShmRegion) (m : Mem) (ptr b : Nat) : Decidable (AddressMatch region m ptr b) := instDecidableAnd

theorem addressMatch_iff (map : region.Mapped) {b : Nat} (offset : x < region.size) (inside : b < region.size) :
    AddressMatch region m (add64 region.base x) b ↔ SpanMatch m x b := by
  have user := map.user
  have word := load_four_lt m (b + 24)
  unfold AddressMatch SpanMatch add64
  constructor
  · rintro ⟨used, same⟩
    exact ⟨used, by omega⟩
  · rintro ⟨used, same⟩
    exact ⟨used, by omega⟩

theorem burst_span_at (map : region.Mapped) (total : region.size = n) (header : HeaderRepr n base m)
    (ptr fuel t : Nat) :
    burst m (spanWalk region (headerAddress region) ptr (fuel + 1) t) =
      if t < n - base then
        if 0 < base + t ∧ base + t + 32 ≤ n then
          if AddressMatch region m ptr (base + t) then
            ([], ret (.ok (sub64 (blockSizeOf m (base + t)) (load m (base + t + 24) 4))))
          else burst m (spanWalk region (headerAddress region) ptr fuel (add64 t (blockSizeOf m (base + t))))
        else ([], ret (.error .invalidState))
      else ([], ret (.error .notFound)) := by
  have user := map.user
  have bounded := header.inside
  have size : load m (base + t) 8 = blockSizeOf m (base + t) := rfl
  rw [spanWalk]
  simp (disch := omega) only [headerAddress, allocatorMetadataOffset, RegionHeader.sizeof,
    AllocatorHeader.heapOffset, AllocatorHeader.heapSize, load64_field]
  simp only [loadWord_bind, burst_read, Nat.reduceAdd, header.heapSize]
  by_cases inside : t < n - base
  swap
  · rw [if_neg inside, if_neg inside]
    rfl
  rw [if_pos inside, if_pos inside, burst_read, header.heapOffset, add64_eq (by omega), block_from_offset map total]
  by_cases fits : 0 < base + t ∧ base + t + 32 ≤ n
  swap
  · rw [if_neg fits, if_neg fits]
    rfl
  simp only [if_pos fits]
  simp (disch := omega) only [BlockHeader.size, BlockHeader.flags, BlockHeader.payloadOffset,
    load64_field, load32_field]
  simp only [loadWord_bind, burst_read]
  by_cases used : load m (base + t + 16) 4 &&& blockFree = 0
  · rw [if_pos used]
    simp only [burst_read]
    by_cases here : add64 (add64 region.base (base + t)) (load m (base + t + 24) 4) = ptr
    · rw [if_pos here, if_pos (show AddressMatch region m ptr (base + t) from ⟨used, here⟩)]
      rfl
    · rw [if_neg here, if_neg (show ¬AddressMatch region m ptr (base + t) from fun both => here both.2)]
      simp only [burst_read, Nat.add_zero, size]
  · rw [if_neg used, if_neg (show ¬AddressMatch region m ptr (base + t) from fun both => used both.1)]
    simp only [burst_read, Nat.add_zero, size]

/-- At a valid block the walk answers, or goes on behind it. -/
theorem burst_span_visit (map : region.Mapped) (total : region.size = n) (header : HeaderRepr n base m)
    (ptr fuel : Nat) {t : Nat} (valid : ValidBlock n m (base + t)) :
    burst m (spanWalk region (headerAddress region) ptr (fuel + 1) t) =
      if AddressMatch region m ptr (base + t) then
        ([], ret (.ok (sub64 (blockSizeOf m (base + t)) (load m (base + t + 24) 4))))
      else burst m (spanWalk region (headerAddress region) ptr fuel (t + blockSizeOf m (base + t))) := by
  have user := map.user
  have bounded := header.inside
  have bound := valid.fits
  have least := valid.least
  have next : add64 t (blockSizeOf m (base + t)) = t + blockSizeOf m (base + t) := add64_eq (by omega)
  rw [burst_span_at map total header, if_pos (by omega), if_pos ⟨valid.positive, valid.header⟩, next]

theorem burst_span_step (map : region.Mapped) (total : region.size = n) (header : HeaderRepr n base m)
    (fuel : Nat) {t : Nat} (valid : ValidBlock n m (base + t)) (offset : x < n) :
    burst m (spanWalk region (headerAddress region) (add64 region.base x) (fuel + 1) t) =
      if SpanMatch m x (base + t) then
        ([], ret (.ok (sub64 (blockSizeOf m (base + t)) (load m (base + t + 24) 4))))
      else burst m (spanWalk region (headerAddress region) (add64 region.base x) fuel
        (t + blockSizeOf m (base + t))) := by
  have inside := valid.header
  rw [burst_span_visit map total header _ fuel valid]
  simp only [addressMatch_iff map (total.symm ▸ offset) (show base + t < region.size by omega)]

/-- Behind the last block the walk finds nothing. -/
theorem burst_span_end (map : region.Mapped) (total : region.size = n) (header : HeaderRepr n base m) (ptr fuel : Nat)
    {t : Nat} (finish : n ≤ base + t) :
    burst m (spanWalk region (headerAddress region) ptr (fuel + 1) t) = ([], ret (.error .notFound)) := by
  rw [burst_span_at map total header, if_neg (by omega)]

/-- Where the rest of the heap holds no header the walk ends with an error. -/
theorem burst_span_rest (map : region.Mapped) (total : region.size = n) (header : HeaderRepr n base m) (ptr fuel : Nat)
    {t : Nat} (short : n < base + t + 32) :
    ∃ e, burst m (spanWalk region (headerAddress region) ptr (fuel + 1) t) = ([], ret (.error e)) := by
  rw [burst_span_at map total header]
  split
  · rw [if_neg (by omega)]
    exact ⟨_, rfl⟩
  · exact ⟨_, rfl⟩

theorem burst_span_pass (map : region.Mapped) (total : region.size = n) (header : HeaderRepr n base m)
    (offset : x < n) {blocks : List Nat} {t stop : Nat} (fuel : Nat)
    (tiles : Tiles id (blockSizeOf m) (base + t) stop blocks) (valid : ∀ b ∈ blocks, ValidBlock n m b)
    (none : ∀ b ∈ blocks, ¬SpanMatch m x b) :
    burst m (spanWalk region (headerAddress region) (add64 region.base x) (blocks.length + fuel) t) =
      burst m (spanWalk region (headerAddress region) (add64 region.base x) fuel (stop - base)) := by
  induction blocks generalizing t with
  | nil =>
    have finish : base + t = stop := tiles
    rw [List.length_nil, Nat.zero_add, ← finish, Nat.add_sub_cancel_left]
  | cons b rest ih =>
    obtain ⟨first, positive, tail⟩ := tiles
    have here : b = base + t := first
    subst here
    rw [List.length_cons, Nat.add_right_comm, burst_span_step map total header _
      (valid (base + t) (by simp)) offset, if_neg (none (base + t) (by simp))]
    rw [Nat.add_assoc] at tail
    exact ih tail (fun c mem => valid c (List.mem_cons_of_mem _ mem)) fun c mem =>
      none c (List.mem_cons_of_mem _ mem)

end Walk

namespace HeapInv
variable {n : Nat} {m : Mem} {V : HeapView}

/-- The payload offset of a block in use points into the block. -/
theorem match_inside (inv : HeapInv n m V) {x s : Nat} (small : s < 4) {b : Block} (mem : b ∈ (V s).blocks)
    (hit : SpanMatch m x b.start) : b.start ≤ x ∧ x < b.start + b.size := by
  have offset := ((inv.shards s small).repr b mem).payloadOffset
  have place := hit.2
  omega

theorem match_live (inv : HeapInv n m V) {a : Alloc} (live : V.Live a) (near : a.ptr - a.block < 2 ^ 32) :
    SpanMatch m a.ptr a.block := by
  obtain ⟨s, _, _, _, low, _, flags, _, offset, _⟩ := inv.live_header live (SameOn.refl m _ _)
  refine ⟨by rw [flags]; rfl, ?_⟩
  rw [offset, Nat.mod_eq_of_lt near]
  omega

theorem live_of_match (inv : HeapInv n m V) (intact : V.Intact) (small : n < 2 ^ 32) {x s : Nat} (shard : s < 4)
    {b : Block} (mem : b ∈ (V s).blocks) (hit : SpanMatch m x b.start) :
    ∃ a, V.Live a ∧ a.ptr = x ∧ a.block = b.start := by
  have use := ((inv.shards s shard).repr b mem).use
  unfold UseRepr at use
  cases kind : b.use with
  | free =>
    rw [kind] at use
    have flags := hit.1
    rw [use.1] at flags
    exact absurd flags (by decide)
  | leaked => exact absurd kind (intact s shard b mem)
  | live a =>
    rw [kind] at use
    have live : V.Live a := ⟨s, shard, b, mem, kind⟩
    have bounds := inv.live_bounds live
    have same := (inv.match_live live (by omega)).2
    rw [use.2.1.block] at same
    exact ⟨a, live, same.symm.trans hit.2, use.2.1.block⟩

/-- The blocks of the view before one that contains an offset do not match it. -/
theorem pass_before (inv : HeapInv n m V) {x : Nat} {pre post : List Block} {b : Block}
    (all : V.allBlocks = pre ++ b :: post) (low : b.start ≤ x) : ∀ c ∈ pre, ¬SpanMatch m x c.start := by
  intro c mem hit
  obtain ⟨s, small, mc⟩ := HeapView.mem_allBlocks.mp (show c ∈ V.allBlocks by simp [all, mem])
  have inside := inv.match_inside small mc hit
  have tiles := inv.all_tiles
  rw [all] at tiles
  obtain ⟨mid, first, later⟩ := tiles_append.mp tiles
  have start : b.start = mid := later.1
  have before := tiles_member_bounds first mem
  omega

theorem span_pass (inv : HeapInv n m V) {region : ShmRegion} (map : region.Mapped) (total : region.size = n)
    {x : Nat} (offset : x < n) {pre post : List Block} (all : V.allBlocks = pre ++ post)
    (none : ∀ c ∈ pre, ¬SpanMatch m x c.start) {fuel : Nat} (enough : n ≤ fuel) :
    ∃ stop left, Tiles Block.start Block.size stop (shardStart heapBase n 4) post ∧ heapBase ≤ stop ∧ 0 < left ∧
      burst m (allocatorGetAllocationSpan fuel region (add64 region.base x)) =
        burst m (spanWalk region (headerAddress region) (add64 region.base x) left (stop - heapBase)) := by
  have user := map.user
  have positive := map.base_pos
  have room := inv.room
  have tiles := inv.all_tiles
  have finish := heap_end_le inv.room (s := 3) (by omega)
  have last : shardStart heapBase n 3 + shardSize heapBase n = shardStart heapBase n 4 := shardStart_succ ..
  unfold heapBase at room
  have member : ∀ c ∈ pre, ∃ s, s < 4 ∧ c ∈ (V s).blocks := fun c mem =>
    HeapView.mem_allBlocks.mp (by simp [all, mem])
  have valid : ∀ c ∈ pre, ValidBlock n m c.start := by
    intro c mem
    obtain ⟨s, small, mc⟩ := member c mem
    exact inv.valid_block small mc
  rw [all] at tiles
  obtain ⟨stop, front, later⟩ := tiles_append.mp tiles
  have first : Tiles id (blockSizeOf m) heapBase stop (pre.map Block.start) := by
    apply tiles_map Block.start front
    intro c mem
    obtain ⟨s, small, mc⟩ := member c mem
    exact ⟨rfl, ((inv.shards s small).repr c mc).size⟩
  have short := tiles_length_bound first fun c mem => (by
    obtain ⟨d, md, rfl⟩ := List.mem_map.mp mem
    exact (valid d md).least)
  have bound := tiles_le later
  rw [List.length_map] at short
  refine ⟨stop, fuel - pre.length, later, tiles_le first, by omega, ?_⟩
  have walk := burst_span_pass (t := 0) map total inv.header offset (fuel - pre.length) first
    (fun c mem => by
      obtain ⟨d, md, rfl⟩ := List.mem_map.mp mem
      exact valid d md)
    (fun c mem => by
      obtain ⟨d, md, rfl⟩ := List.mem_map.mp mem
      exact none d md)
  rw [List.length_map, Nat.add_sub_cancel' (by omega)] at walk
  have address : add64 region.base x = region.base + x := add64_eq (by omega)
  unfold allocatorGetAllocationSpan
  rw [if_neg (by omega)]
  simp only [allocatorHeader_eq map (total ▸ (by omega : 2728 ≤ n))]
  rw [burst_bind_of_ret (burst_header_valid map total inv.header)]
  simpa using walk

/-- A block in use answers with its rest behind the offset that its header names. -/
theorem burst_span_match (inv : HeapInv n m V) {region : ShmRegion} (map : region.Mapped) (total : region.size = n)
    {s : Nat} (small : s < 4) {b : Block} (mem : b ∈ (V s).blocks) {x : Nat} (hit : SpanMatch m x b.start)
    {fuel : Nat} (enough : n ≤ fuel) :
    burst m (allocatorGetAllocationSpan fuel region (add64 region.base x)) =
      ([], ret (.ok (b.start + b.size - x))) := by
  have user := map.user
  have size : blockSizeOf m b.start = b.size := ((inv.shards s small).repr b mem).size
  have finish := heap_end_le inv.room small
  have inside := (inv.shards s small).bounds mem
  have place := inv.match_inside small mem hit
  have offset := hit.2
  obtain ⟨pre, post, all⟩ := List.append_of_mem (HeapView.mem_allBlocks.mpr ⟨s, small, mem⟩)
  obtain ⟨stop, left, later, base, more, same⟩ := inv.span_pass map total (x := x) (by omega) all
    (inv.pass_before all place.1) enough
  obtain ⟨start, _, _⟩ := later
  have here : heapBase + (stop - heapBase) = b.start := by omega
  have valid := inv.valid_block small mem
  obtain ⟨fuel', rfl⟩ := Nat.exists_eq_succ_of_ne_zero (Nat.ne_of_gt more)
  have rest : b.size - load m (b.start + 24) 4 = b.start + b.size - x := by omega
  rw [same, burst_span_step map total inv.header fuel' (here.symm ▸ valid) (by omega), here, if_pos hit, size,
    sub64_eq (by omega) (by omega), rest]

theorem burst_span_live (inv : HeapInv n m V) {region : ShmRegion} (map : region.Mapped) (total : region.size = n)
    {a : Alloc} (live : V.Live a) (near : a.ptr - a.block < 2 ^ 32) {fuel : Nat} (enough : n ≤ fuel) :
    burst m (allocatorGetAllocationSpan fuel region (add64 region.base a.ptr)) = ([], ret (.ok (spanOf m a))) := by
  obtain ⟨s, small, b, mem, kind, fits, _⟩ := inv.live_block live
  have width := ((inv.shards s small).repr b mem).size
  have low := fits.ptr_ge
  have rest : b.start + b.size - a.ptr = b.size - (a.ptr - b.start) := by omega
  rw [inv.burst_span_match map total small mem (fits.block ▸ inv.match_live live near) enough, spanOf, fits.block, width, rest]

theorem burst_span_dead (inv : HeapInv n m V) (intact : V.Intact) (narrow : n < 2 ^ 32) {region : ShmRegion}
    (map : region.Mapped) (total : region.size = n) {x : Nat} (offset : x < n) (dead : ∀ a, V.Live a → a.ptr ≠ x)
    {fuel : Nat} (enough : n ≤ fuel) :
    ∃ e, burst m (allocatorGetAllocationSpan fuel region (add64 region.base x)) = ([], ret (.error e)) := by
  have room := inv.room
  have bound : shardStart heapBase n 4 ≤ n ∧ n < shardStart heapBase n 4 + 4 := by
    unfold shardStart shardSize
    omega
  obtain ⟨stop, left, later, base, more, same⟩ := inv.span_pass map total offset (List.append_nil _).symm
    (by
      intro c mem hit
      obtain ⟨s, small, mc⟩ := HeapView.mem_allBlocks.mp mem
      obtain ⟨a, live, ptr, _⟩ := inv.live_of_match intact narrow small mc hit
      exact dead a live ptr) enough
  have finish : stop = shardStart heapBase n 4 := later
  obtain ⟨fuel', rfl⟩ := Nat.exists_eq_succ_of_ne_zero (Nat.ne_of_gt more)
  rw [same]
  -- fewer than four bytes are left behind the last shard
  exact burst_span_rest map total inv.header _ fuel' (by omega)

end HeapInv

end OffsetStore
