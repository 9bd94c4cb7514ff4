import OffsetStore.Owned
import OffsetStore.HeapShape
import OffsetStore.HeapInit

/- Programs that use the heap one after another: each runs alone from beginning to end, and
   the live allocations are known before and after it. -/
namespace OffsetStore
open ByteMemory Program Prog Words Tiling Pool

/-- The allocated blocks, as a walk through the four shards finds them. -/
def liveBlocks (m : Mem) : Set Nat :=
  {b | ∃ s, s < 4 ∧ ∃ blocks, Tiles id (blockSizeOf m) (heapOffsetOf m + s * (heapSizeOf m / 4))
    (heapOffsetOf m + (s + 1) * (heapSizeOf m / 4)) blocks ∧ b ∈ blocks ∧ ¬isFreeBlock m b}

/-- The address p lies in an allocated block, which its prefix names, with room for size bytes. -/
structure Designates (n : Nat) (m : Mem) (p size : Nat) : Prop where
  live : load m (p - AllocationPrefix.sizeof) 8 ∈ liveBlocks m
  after : load m (p - AllocationPrefix.sizeof) 8 + 40 ≤ p
  room : p + size ≤ load m (p - AllocationPrefix.sizeof) 8 + blockSizeOf m (load m (p - AllocationPrefix.sizeof) 8)
  inside : p + size ≤ n

/-- The heap carries exactly the allocations of S. -/
def HeapLive (n : Nat) (m : Mem) (S : Set Alloc) : Prop :=
  ∃ V : HeapView, HeapInv n m V ∧ V.Intact ∧ ∀ a, V.Live a ↔ a ∈ S

section Live
variable {n : Nat} {m : Mem} {S : Set Alloc} {a : Alloc}

theorem heapLive_initialised : HeapLive 4096 initialised ∅ := by
  refine ⟨freshView 4096, initialised_inv, fresh_intact 4096, fun a => ?_⟩
  simp [fresh_not_live]

theorem HeapLive.blocks (heap : HeapLive n m S) : liveBlocks m = Alloc.block '' S := by
  obtain ⟨V, inv, intact, live⟩ := heap
  ext x
  constructor
  · rintro ⟨s, shard, blocks, tiles, mem, used⟩
    have same := tiles_unique tiles (inv.shard_shape intact shard).tiles
    subst same
    obtain ⟨b, mb, rfl⟩ := List.mem_map.mp mem
    rw [inv.block_free_iff intact shard mb] at used
    cases kind : b.use with
    | free => exact absurd kind used
    | leaked => exact absurd kind (intact s shard b mb)
    | live a =>
      exact ⟨a, (live a).mp ⟨s, shard, b, mb, kind⟩, (((inv.shards s shard).repr b mb).in_block kind).block⟩
  · rintro ⟨a, mem, rfl⟩
    obtain ⟨s, shard, b, mb, kind⟩ := (live a).mpr mem
    refine ⟨s, shard, _, (inv.shard_shape intact shard).tiles, ?_, ?_⟩
    · rw [(((inv.shards s shard).repr b mb).in_block kind).block]
      exact List.mem_map_of_mem mb
    · rw [(((inv.shards s shard).repr b mb).in_block kind).block, inv.block_free_iff intact shard mb, kind]
      simp

theorem HeapLive.named (heap : HeapLive n m S) (mem : a ∈ S) : load m (a.ptr - AllocationPrefix.sizeof) 8 = a.block := by
  obtain ⟨V, inv, _, live⟩ := heap
  obtain ⟨s, shard, b, mb, kind, fits, _⟩ := inv.live_block ((live a).mpr mem)
  have use := ((inv.shards s shard).repr b mb).use
  unfold UseRepr at use
  rw [kind] at use
  exact use.2.2.2.trans fits.block.symm

theorem HeapLive.designates (heap : HeapLive n m S) (mem : a ∈ S) : Designates n m a.ptr a.size := by
  have blocks := heap.blocks
  have named := heap.named mem
  obtain ⟨V, inv, intact, live⟩ := heap
  obtain ⟨s, shard, b, mb, kind⟩ := (live a).mpr mem
  have repr := (inv.shards s shard).repr b mb
  have fits := repr.in_block kind
  have low := fits.ptr_ge
  have high := fits.ptr_le
  rw [fits.block] at named
  constructor
  · rw [named, blocks, ← fits.block]
    exact Set.mem_image_of_mem _ mem
  · rw [named]
    exact low
  · rw [named, blockSizeOf, BlockHeader.size, Nat.add_zero, repr.size]
    exact high
  · exact (inv.live_bounds ((live a).mpr mem)).2.2

/-- One user takes the allocations of L, and the others keep the rest. -/
theorem HeapLive.tokens (heap : HeapLive n m S) {L : Set Alloc} (sub : L ⊆ S) :
    HeapTokens byteNotes n (owned L m ∪ owned (S \ L) m) m := by
  obtain ⟨V, inv, intact, live⟩ := heap
  have note : ∀ {a k}, (a, k) ∈ owned L m ∪ owned (S \ L) m → k = some m := by
    rintro a k (mine | other)
    · exact mine.2
    · exact other.2
  refine ⟨V, inv, intact, fun a => ?_, fun a k k' left right => (note left).trans (note right).symm, ?_, trivial⟩
  · rw [live]
    constructor
    · intro mem
      by_cases mine : a ∈ L
      · exact ⟨some m, Or.inl ⟨mine, rfl⟩⟩
      · exact ⟨some m, Or.inr ⟨⟨mem, mine⟩, rfl⟩⟩
    · rintro ⟨k, mine | other⟩
      · exact sub mine.1
      · exact other.1.1
  · intro a k mem μ eq
    have same : m = μ := Option.some.inj ((note mem).symm.trans eq)
    exact same ▸ SameOn.refl m _ _

theorem HeapLive.footprint (heap : HeapLive n m S) : Footprint n S :=
  footprint_of_tokens (heap.tokens (subset_refl S))

/-- What a program that runs alone leaves: its own allocations L' with bytes as in μ', and the
    allocations of the others as they were. -/
structure Left (n : Nat) (S L : Set Alloc) (m : Mem) (L' : Set Alloc) (μ' m' : Mem) : Prop where
  heap : HeapLive n m' (L' ∪ S \ L)
  apart : Disjoint L' (S \ L)
  mine : ∀ a ∈ L', SameOn μ' m' a.ptr (a.ptr + a.size)
  others : ∀ a ∈ S \ L, SameOn m m' a.ptr (a.ptr + a.size)

/-- A program that owns L runs alone on a heap with the allocations of S. -/
theorem does_alone {α : Type} {p : Code α} {L : Set Alloc} {post : α → Set Alloc → Mem → Prop} (does : Does n L m p post)
    (heap : HeapLive n m S) (sub : L ⊆ S) :
    ∃ r m' L' μ', exec p m = some (r, m') ∧ post r L' μ' ∧ Left n S L m L' μ' m' := by
  have apart : Disjoint (owned L m) (owned (S \ L) m) := Set.disjoint_left.mpr fun t mine other => other.1.2 mine.1
  obtain ⟨r, m', L', μ', run, away, ⟨V, carries⟩, holds⟩ := does_exec does apart (heap.tokens sub)
  have live : ∀ a, V.Live a ↔ a ∈ L' ∪ S \ L := by
    intro a
    rw [carries.live]
    constructor
    · rintro ⟨k, mine | other⟩
      · exact Or.inl mine.1
      · exact Or.inr other.1
    · rintro (mine | other)
      · exact ⟨some μ', Or.inl ⟨mine, rfl⟩⟩
      · exact ⟨some m, Or.inr ⟨other, rfl⟩⟩
  refine ⟨r, m', L', μ', run, holds, ⟨V, carries.inv, carries.intact, live⟩, ?_, ?_, ?_⟩
  · rw [Set.disjoint_left]
    intro a mine other
    have note := carries.single a (some μ') (some m) (Or.inl ⟨mine, rfl⟩) (Or.inr ⟨other, rfl⟩)
    exact Set.disjoint_left.mp away (show (a, some μ') ∈ owned L' μ' from ⟨mine, rfl⟩) ⟨other, note⟩
  · exact fun a mem => carries.holds a (some μ') (Or.inl ⟨mem, rfl⟩) μ' rfl
  · exact fun a mem => carries.holds a (some m) (Or.inr ⟨mem, rfl⟩) m rfl

/-- A user of the allocations of L on a heap on which the others have those of S₀. -/
structure Beside (n : Nat) (S₀ L : Set Alloc) (m : Mem) : Prop where
  heap : HeapLive n m (L ∪ S₀)
  apart : Disjoint L S₀

theorem Beside.rest {S₀ L : Set Alloc} (beside : Beside n S₀ L m) : (L ∪ S₀) \ L = S₀ := by
  rw [Set.union_sdiff_left, sdiff_eq_left]
  exact beside.apart.symm

theorem beside_nothing (heap : HeapLive n m S) : Beside n S ∅ m :=
  ⟨by rwa [Set.empty_union], Set.empty_disjoint S⟩

theorem does_beside {α : Type} {p : Code α} {S₀ L : Set Alloc} {post : α → Set Alloc → Mem → Prop}
    (does : Does n L m p post) (beside : Beside n S₀ L m) :
    ∃ r m' L' μ', exec p m = some (r, m') ∧ post r L' μ' ∧ Beside n S₀ L' m' ∧
      ∀ a ∈ L', SameOn μ' m' a.ptr (a.ptr + a.size) := by
  obtain ⟨r, m', L', μ', run, holds, left⟩ := does_alone does beside.heap Set.subset_union_left
  have rest := beside.rest
  exact ⟨r, m', L', μ', run, holds, ⟨rest ▸ left.heap, rest ▸ left.apart⟩, left.mine⟩

theorem Beside.called {α : Type} {p : Code α} {S₀ L : Set Alloc} {m' : Mem} {post : α → Set Alloc → Mem → Prop}
    (own : Beside n S₀ L m)
    (does : Does n L m p post) (run : exec (do let _ ← p) m = some ((), m')) :
    ∃ r L' μ', post r L' μ' ∧ Beside n S₀ L' m' ∧ ∀ a ∈ L', SameOn μ' m' a.ptr (a.ptr + a.size) := by
  obtain ⟨r, m₁, L', μ', ran, holds, own', same⟩ := does_beside does own
  have ends : m₁ = m' := by
    rw [exec_bind_of_some ran] at run
    exact (Prod.mk.inj (Option.some.inj run)).2
  subst ends
  exact ⟨r, L', μ', holds, own', same⟩

end Live

end OffsetStore
