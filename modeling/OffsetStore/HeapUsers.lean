import OffsetStore.HeapReleases
import OffsetStore.FirstFit

/- The other users of the heap between two calls of a container: they allocate, release
   what is theirs, and write into it. -/
namespace OffsetStore
open ByteMemory Program Prog Words Pool

/-- The allocation of a request that was served at offset x, as the memory shows it. -/
def allocationAt (m : Mem) (x size alignment : Nat) : Alloc :=
  ⟨load m (x - 8) 8, load m (load m (x - 8) 8 + 20) 4, x, size, max alignment 16⟩

/-- One step of the others, whose allocations are S before it and S' after it. -/
inductive OthersStep (n fuel : Nat) : Set Alloc → Mem → Set Alloc → Mem → Prop where
  | alloc {S : Set Alloc} {m m' : Mem} {region : ShmRegion} {size alignment p : Nat} (map : region.Mapped)
      (total : region.size = n) (sized : size < 2 ^ 62) (word : alignment < 2 ^ 64)
      (run : exec (allocatorAlloc fuel region size alignment) m = some (.ok p, m')) :
      OthersStep n fuel S m (insert (allocationAt m' (region.offsetOf p) size alignment) S) m'
  | refused {S : Set Alloc} {m m' : Mem} {region : ShmRegion} {size alignment : Nat} {e : OffsetStoreStatus}
      (map : region.Mapped) (total : region.size = n) (sized : size < 2 ^ 62) (word : alignment < 2 ^ 64)
      (run : exec (allocatorAlloc fuel region size alignment) m = some (.error e, m')) : OthersStep n fuel S m S m'
  | free {S : Set Alloc} {m m' : Mem} {region : ShmRegion} {a : Alloc} (map : region.Mapped)
      (total : region.size = n) (mem : a ∈ S)
      (run : exec (allocatorFree region (add64 region.base a.ptr)) m = some (.ok, m')) :
      OthersStep n fuel S m (S \ {a}) m'
  | write {S : Set Alloc} {m : Mem} {a : Alloc} {o k v : Nat} (mem : a ∈ S) (left : a.ptr ≤ o)
      (right : o + k ≤ a.ptr + a.size) : OthersStep n fuel S m S (store m o k v)

section Others
variable {n fuel : Nat} {S S' L : Set Alloc} {m m' : Mem} {a : Alloc}

theorem HeapLive.shown (heap : HeapLive n m S) (mem : a ∈ S) :
    load m (a.ptr - 8) 8 = a.block ∧ load m (a.block + 20) 4 = a.shard := by
  obtain ⟨V, inv, _, live⟩ := heap
  obtain ⟨s, _, own, _, _, _, _, shard, _, named⟩ := inv.live_header ((live a).mpr mem) (SameOn.refl m _ _)
  exact ⟨named, shard.trans own.symm⟩

theorem HeapLive.allocationAt_eq (heap : HeapLive n m S) (mem : a ∈ S) {alignment : Nat} (aligned : a.align = max alignment 16) :
    allocationAt m a.ptr a.size alignment = a := by
  obtain ⟨named, shard⟩ := heap.shown mem
  unfold allocationAt
  rw [named, shard, ← aligned]

theorem Left.beside {L' : Set Alloc} {μ' : Mem} (left : Left n (L ∪ S) S m L' μ' m') (apart : Disjoint L S) :
    Beside n L' L m' ∧ ∀ b ∈ L, SameOn m m' b.ptr (b.ptr + b.size) := by
  have rest : (L ∪ S) \ S = L := by
    rw [Set.union_sdiff_right, sdiff_eq_left]
    exact apart
  have heap := left.heap
  have away := left.apart
  have others := left.others
  rw [rest] at heap away others
  rw [Set.union_comm] at heap
  exact ⟨⟨heap, away.symm⟩, others⟩

theorem OthersStep.beside (step : OthersStep n fuel S m S' m') (enough : n ≤ fuel) (beside : Beside n S L m) :
    Beside n S' L m' ∧ ∀ b ∈ L, SameOn m m' b.ptr (b.ptr + b.size) := by
  have heap := beside.heap
  have room : 2728 ≤ n := by
    obtain ⟨_, inv, _⟩ := heap
    exact Nat.le_trans (by decide) inv.room
  cases step with
  | alloc map total sized word run =>
    rename_i region size alignment p
    obtain ⟨result, m₁, L', μ', ran, holds, left⟩ := does_alone (does_alloc map total room enough (Or.inl sized) word)
      heap Set.subset_union_right
    obtain ⟨rfl, rfl⟩ := Prod.mk.inj (Option.some.inj (run.symm.trans ran))
    obtain ⟨a, fresh, rfl, _, address, rfl, aligned⟩ := holds
    have user := map.user
    have bounds := left.heap.footprint.bounds a (Or.inl (Set.mem_insert a S))
    rw [address, ShmRegion.Mapped.offsetOf_base (by omega),
      left.heap.allocationAt_eq (Or.inl (Set.mem_insert a S)) aligned]
    exact left.beside beside.apart
  | refused map total sized word run =>
    obtain ⟨result, m₁, L', μ', ran, holds, left⟩ := does_alone (does_alloc map total room enough (Or.inl sized) word)
      heap Set.subset_union_right
    obtain ⟨rfl, rfl⟩ := Prod.mk.inj (Option.some.inj (run.symm.trans ran))
    obtain ⟨rfl, _⟩ := holds
    exact left.beside beside.apart
  | free map total mem run =>
    rename_i region a
    have other : a ∉ L := fun mine => Set.disjoint_left.mp beside.apart mine mem
    have near : a.ptr - a.block < 2 ^ 32 := by
      by_contra far
      obtain ⟨V, inv, _, live⟩ := heap
      have refused := exec_free_far inv map total ((live a).mpr (Or.inr mem)) (Nat.not_lt.mp far)
      rw [refused] at run
      simp at run
    obtain ⟨m₁, ran, step⟩ := exec_release map total heap (Or.inr mem) near
    obtain ⟨_, rfl⟩ := Prod.mk.inj (Option.some.inj (run.symm.trans ran))
    have split : (L ∪ S) \ {a} = L ∪ S \ {a} := by rw [Set.union_sdiff_distrib, Set.sdiff_singleton_eq_self other]
    rw [split] at step
    exact ⟨⟨step.heap, beside.apart.mono_right Set.sdiff_subset⟩, fun b mine => step.bytes b (Or.inl mine) (Or.inl mine)⟩
  | write mem left right =>
    rename_i a o k v
    have stored := heap.store (v := v) (Or.inr mem) left right
    refine ⟨⟨stored.1, beside.apart⟩, fun b mine => stored.2.2 b (Or.inl mine) ?_⟩
    rintro rfl
    exact Set.disjoint_left.mp beside.apart mine mem

end Others

section Again
variable {n fuel : Nat} {region : ShmRegion} {m : Mem} {V : HeapView} {a : Alloc}

theorem exec_alloc_again (inv : HeapInv n m V) (map : region.Mapped) (total : region.size = n) (enough : n ≤ fuel)
    (live : V.Live a) (plain : a.align = 16) : ∃ V' m₁ x m₂, Released n m m₁ V V' a ∧
      exec (allocatorFree region (add64 region.base a.ptr)) m = some (.ok, m₁) ∧ 0 < x ∧ x < n ∧
      exec (allocatorAlloc fuel region a.size 16) m₁ = some (.ok (add64 region.base x), m₂) := by
  have bounds := inv.live_bounds live
  obtain ⟨s, shard, b, mb, kind, fits, _⟩ := inv.live_block live
  have near : a.ptr - a.block < 2 ^ 32 := by
    have high : payloadPtr b.start a.align < b.start + 40 + a.align := roundUp_lt (by omega)
    rw [fits.place, fits.block]
    omega
  obtain ⟨V', released, freed⟩ := exec_free_near inv map total live near
  obtain ⟨t, small, c, mc, free, reuse⟩ := released.reusable
  have fits : required c.start a.size 16 ≤ c.size := plain ▸ reuse.fits
  have fit := (released.inv.fit_iff 16).mp ⟨t, small, c, mc, free, fits⟩
  obtain ⟨i, pre, x, V'', first, taken, alloc⟩ | ⟨none, _⟩ := exec_alloc_fit released.inv map total enough
    bounds.2.1 (show a.size ≤ n by omega) (show 4 < 64 by omega) (show max 16 16 = 2 ^ 4 from rfl)
  · have place := taken.inv.live_bounds ((taken.live _).mpr (Or.inr rfl))
    refine ⟨V', _, _, _, released, freed, ?_, ?_, alloc⟩
    · exact Nat.lt_of_lt_of_le (by decide) place.1
    · have inside := place.2.2
      simp only [carved] at inside
      omega
  · obtain ⟨u, less, y, listed, fits⟩ := fit
    exact absurd fits (Nat.not_le.mpr (none u less y listed))

end Again

end OffsetStore
