import OffsetStore.HeapChange

/- What a reader of the bytes sees of a heap that carries a view: the blocks of each
   shard, its free list and the payloads, with every size, flag and link read from
   memory. -/
namespace OffsetStore
open ByteMemory Program Words Tiling CellChain

def heapOffsetOf (m : Mem) : Nat := load m (allocatorMetadataOffset + AllocatorHeader.heapOffset) 8
def heapSizeOf (m : Mem) : Nat := load m (allocatorMetadataOffset + AllocatorHeader.heapSize) 8
def blockSizeOf (m : Mem) (block : Nat) : Nat := load m (block + BlockHeader.size) 8
def payloadOffsetOf (m : Mem) (block : Nat) : Nat := load m (block + BlockHeader.payloadOffset) 4
def isFreeBlock (m : Mem) (block : Nat) : Prop := load m (block + BlockHeader.flags) 4 &&& blockFree ≠ 0

/-- The blocks fill the shard, each of them names the shard as its owner, and the free
   list is finite, without repetition, and lists exactly the free blocks. -/
structure ShardShape (m : Mem) (s : Nat) (blocks free : List Nat) : Prop where
  tiles : Tiles id (blockSizeOf m) (heapOffsetOf m + s * (heapSizeOf m / 4))
    (heapOffsetOf m + (s + 1) * (heapSizeOf m / 4)) blocks
  owner : ∀ b ∈ blocks, load m (b + BlockHeader.shard) 4 = s
  chain : Chain (fun cell => load m cell 8) BlockHeader.nextFree (headCell s) free
  nodup : free.Nodup
  free_iff : ∀ x, x ∈ free ↔ x ∈ blocks ∧ isFreeBlock m x

/-- The block that carries a payload (p, size): its prefix leads to the block, its
   header leads back, and the range ends inside the block. -/
structure CarriesPayload (m : Mem) (block p size : Nat) : Prop where
  allocated : ¬isFreeBlock m block
  prefixed : load m (p - AllocationPrefix.sizeof) 8 = block
  offset : block + payloadOffsetOf m block = p
  after : block + BlockHeader.sizeof + AllocationPrefix.sizeof ≤ p
  inside : p + size ≤ block + blockSizeOf m block

structure PayloadShape (n : Nat) (m : Mem) (blocks : Nat → List Nat) (payloads : Set (Nat × Nat)) :
    Prop where
  apart : ∀ x ∈ payloads, ∀ y ∈ payloads, x = y ∨ x.1 + x.2 ≤ y.1 ∨ y.1 + y.2 ≤ x.1
  carried : ∀ x ∈ payloads, ∃ s, s < 4 ∧ ∃ b ∈ blocks s, CarriesPayload m b x.1 x.2
  headers : ∀ x ∈ payloads, ∀ s, s < 4 → ∀ b ∈ blocks s,
    x.1 + x.2 ≤ b ∨ b + BlockHeader.sizeof ≤ x.1
  prefixes : ∀ x ∈ payloads, ∀ y ∈ payloads, x.1 + x.2 ≤ y.1 - AllocationPrefix.sizeof ∨ y.1 ≤ x.1
  metadata : ∀ x ∈ payloads, allocatorMetadataOffset + AllocatorHeader.sizeof ≤ x.1 ∧ x.1 + x.2 ≤ n
  all : ∀ s, s < 4 → ∀ b ∈ blocks s, ¬isFreeBlock m b → ∃ x ∈ payloads, CarriesPayload m b x.1 x.2

def HeapSafe (n : Nat) (m : Mem) (payloads : Set (Nat × Nat)) : Prop :=
  ∃ blocks free : Nat → List Nat,
    (∀ s, s < 4 → ShardShape m s (blocks s) (free s)) ∧ PayloadShape n m blocks payloads

/-- The payloads of a view: offset and requested size of every live allocation. -/
def HeapView.payloads (V : HeapView) : Set (Nat × Nat) := {x | ∃ a, V.Live a ∧ (a.ptr, a.size) = x}

namespace HeapInv
variable {n : Nat} {m : Mem} {V : HeapView}

theorem block_free_iff (inv : HeapInv n m V) (intact : V.Intact) {s : Nat} (shard : s < 4) {b : Block}
    (mem : b ∈ (V s).blocks) : isFreeBlock m b.start ↔ b.use = .free := by
  have use := ((inv.shards s shard).repr b mem).use
  unfold UseRepr at use
  unfold isFreeBlock
  simp only [BlockHeader.flags, blockFree]
  cases kind : b.use with
  | free =>
    rw [kind] at use
    simp [use.1]
  | leaked => exact absurd kind (intact s shard b mem)
  | live a =>
    rw [kind] at use
    simp [use.1]

theorem shard_shape (inv : HeapInv n m V) (intact : V.Intact) {s : Nat} (shard : s < 4) :
    ShardShape m s ((V s).blocks.map Block.start) (V s).free := by
  have shardInv := inv.shards s shard
  have offset : heapOffsetOf m = heapBase := inv.header.heapOffset
  have size : heapSizeOf m = n - heapBase := inv.header.heapSize
  have first : heapOffsetOf m + s * (heapSizeOf m / 4) = shardStart heapBase n s := by
    rw [offset, size]
    rfl
  have last : heapOffsetOf m + (s + 1) * (heapSizeOf m / 4) =
      shardStart heapBase n s + shardSize heapBase n := by
    rw [offset, size, Nat.add_mul, Nat.one_mul, ← Nat.add_assoc]
    rfl
  refine ⟨?_, ?_, shardInv.chain, shardInv.nodup, ?_⟩
  · rw [first, last]
    exact tiles_map Block.start shardInv.tiles fun b mem => ⟨rfl, (shardInv.repr b mem).size⟩
  · intro x mem
    obtain ⟨b, mb, rfl⟩ := List.mem_map.mp mem
    exact (shardInv.repr b mb).shard
  · intro x
    rw [shardInv.free_iff, List.mem_map]
    constructor
    · rintro ⟨b, mb, rfl, free⟩
      exact ⟨⟨b, mb, rfl⟩, (inv.block_free_iff intact shard mb).mpr free⟩
    · rintro ⟨⟨b, mb, rfl⟩, flagged⟩
      exact ⟨b, mb, rfl, (inv.block_free_iff intact shard mb).mp flagged⟩

/-- The payload offset leads back to the payload when it fits its 32-bit field. -/
theorem carries_near (inv : HeapInv n m V) (intact : V.Intact) {s : Nat} (shard : s < 4) {b : Block}
    (mem : b ∈ (V s).blocks) {a : Alloc} (live : b.use = .live a) (near : a.ptr - b.start < 2 ^ 32) :
    CarriesPayload m b.start a.ptr a.size := by
  have repr := (inv.shards s shard).repr b mem
  have inBlock := repr.in_block live
  have low := inBlock.ptr_ge
  have high := inBlock.ptr_le
  have use := repr.use
  unfold UseRepr at use
  rw [live] at use
  refine ⟨?_, use.2.2.2, ?_, by simpa using low, ?_⟩
  · rw [inv.block_free_iff intact shard mem, live]
    simp
  · unfold payloadOffsetOf
    rw [BlockHeader.payloadOffset, use.2.2.1, Nat.mod_eq_of_lt near]
    omega
  · unfold blockSizeOf
    rw [BlockHeader.size, Nat.add_zero, repr.size]
    exact high

theorem carries_payload (inv : HeapInv n m V) (intact : V.Intact) (small : n < 2 ^ 32) {s : Nat}
    (shard : s < 4) {b : Block} (mem : b ∈ (V s).blocks) {a : Alloc} (live : b.use = .live a) :
    CarriesPayload m b.start a.ptr a.size := by
  have inside := (inv.shards s shard).bounds mem
  have high := (((inv.shards s shard).repr b mem).in_block live).ptr_le
  have finish := heap_end_le inv.room shard
  exact inv.carries_near intact shard mem live (by omega)

theorem payload_shape (inv : HeapInv n m V) (intact : V.Intact) (small : n < 2 ^ 32) :
    PayloadShape n m (fun s => (V s).blocks.map Block.start) V.payloads := by
  refine ⟨?_, ?_, ?_, ?_, ?_, ?_⟩
  · rintro _ ⟨a, la, rfl⟩ _ ⟨c, lc, rfl⟩
    rcases inv.live_apart la lc with same | left | right
    · exact Or.inl (by rw [same])
    · exact Or.inr (Or.inl left)
    · exact Or.inr (Or.inr right)
  · rintro _ ⟨a, ⟨s, shard, b, mem, live⟩, rfl⟩
    exact ⟨s, shard, b.start, List.mem_map_of_mem mem, inv.carries_payload intact small shard mem live⟩
  · rintro _ ⟨a, la, rfl⟩ s shard x mem
    obtain ⟨d, md, rfl⟩ := List.mem_map.mp mem
    obtain ⟨t, ht, b, mb, kb, fb, _⟩ := inv.live_block la
    have low := fb.ptr_ge
    have high := fb.ptr_le
    have large := ((inv.shards s shard).bounds md).2.2
    simp only [BlockHeader.sizeof]
    rcases inv.blocks_apart ht shard mb md with ⟨_, eq⟩ | left | right
    · subst eq
      omega
    · omega
    · omega
  · rintro _ ⟨a, la, rfl⟩ _ ⟨c, lc, rfl⟩
    obtain ⟨s, hs, b, mb, kb, fb, _⟩ := inv.live_block la
    obtain ⟨t, ht, d, md, kd, fd, _⟩ := inv.live_block lc
    have lowB := fb.ptr_ge
    have highB := fb.ptr_le
    have lowD := fd.ptr_ge
    have highD := fd.ptr_le
    simp only [AllocationPrefix.sizeof]
    rcases inv.blocks_apart hs ht mb md with ⟨_, eq⟩ | left | right
    · subst eq
      rw [kb] at kd
      have same : a = c := by simpa using kd
      subst same
      omega
    · omega
    · omega
  · rintro _ ⟨a, la, rfl⟩
    have bounds := inv.live_bounds la
    unfold heapBase at bounds
    simp only [allocatorMetadataOffset, RegionHeader.sizeof, AllocatorHeader.sizeof]
    omega
  · intro s shard x mem allocated
    obtain ⟨b, mb, rfl⟩ := List.mem_map.mp mem
    rw [inv.block_free_iff intact shard mb] at allocated
    cases kind : b.use with
    | free => exact absurd kind allocated
    | leaked => exact absurd kind (intact s shard b mb)
    | live a =>
      exact ⟨(a.ptr, a.size), ⟨a, ⟨s, shard, b, mb, kind⟩, rfl⟩,
        inv.carries_payload intact small shard mb kind⟩

/-- The invariant, read off the bytes. -/
theorem safe (inv : HeapInv n m V) (intact : V.Intact) (small : n < 2 ^ 32) :
    HeapSafe n m V.payloads :=
  ⟨_, fun s => (V s).free, fun _ shard => inv.shard_shape intact shard,
    inv.payload_shape intact small⟩

end HeapInv

end OffsetStore
