import OffsetStore.HeapReleases
import OffsetStore.HashTable
import OffsetStore.RingBuf

/- ringbuf_create and hashtable_create when their second allocation fails. The header of the
   container was allocated as an object, but object_store_free is asked for it after the
   arguments have been stored over the words of that object. -/
namespace OffsetStore
open ByteMemory Program Prog Words Tiling

/-- The creations that allocate a header, store their arguments in it, and then allocate a buffer. -/
inductive Buffered where
  | ringbuf (capacity elemSize : Nat)
  | hashtable (numBuckets keySize valSize : Nat)

namespace Buffered

def create (fuel : Nat) (region : ShmRegion) : Buffered → Code Nat
  | .ringbuf capacity elemSize => ringbufCreate fuel region capacity elemSize
  | .hashtable numBuckets keySize valSize => hashtableCreate fuel region numBuckets keySize valSize

def Rejected : Buffered → Prop
  | .ringbuf capacity elemSize => capacity < 2 ∨ elemSize = 0
  | .hashtable numBuckets keySize valSize => numBuckets = 0 ∨ keySize = 0 ∨ valSize = 0

def headerSize : Buffered → Nat
  | .ringbuf _ _ => RingBufHeader.sizeof
  | .hashtable _ _ _ => HashTableHeader.sizeof

/-- What the header has where an object has its size, when the buffer is asked for. -/
def sizeWord : Buffered → Nat
  | .ringbuf capacity _ => capacity
  | .hashtable numBuckets _ _ => numBuckets

def flagsWord : Buffered → Nat
  | .ringbuf _ _ => 0
  | .hashtable _ keySize _ => keySize

/-- The arguments pass for the words of an object, in the block that the header gets. -/
def Disguised (c : Buffered) (m : Mem) (V : HeapView) : Prop :=
  ∀ s x pre, Stops m V (scanOrder V (allocatorSelectShard (roundUp (16 + c.headerSize) 16)) shardCount)
      (16 + c.headerSize) 16 s x pre →
    c.flagsWord % 2 = 0 ∧ 16 + c.sizeWord % 2 ^ 32 ≤ takenWidth m x (16 + c.headerSize) - (payloadPtr x 16 - x)

end Buffered

section Rejected
variable {n fuel : Nat} {region : ShmRegion} {m : Mem} {V : HeapView} {S : Set Alloc}

theorem exec_second (map : region.Mapped) (total : region.size = n) (enough : n ≤ fuel) (heap : HeapLive n m S)
    {hdr hdrPtr size offset : Nat} {abandon : Code Nat} {m' : Mem} (made : hdrPtr ≠ 0)
    (run : exec (allocatorAlloc fuel region size 16 >>= fun storage =>
      match storage with
      | .error _ => abandon
      | .ok ptr => do
        region.copyIn ptr 0 (List.replicate size 0)
        match offsetPtrTryFromRaw region.base region.size ptr with
        | none => do
          let _ ← allocatorFree region ptr
          abandon
        | some off => do
          region.store64 hdr offset off
          return hdrPtr) m = some (0, m')) :
    ∃ m'', HeapStep n S m S m'' ∧ exec abandon m'' = some (0, m') := by
  obtain ⟨result, m'', alloc, ⟨e, rfl, step⟩ | ⟨p, positive, inside, rfl⟩⟩ := exec_alloc_inside map total enough heap size
  · rw [exec_bind_of_some alloc] at run
    exact ⟨m'', step, run⟩
  · rw [exec_bind_of_some alloc] at run
    dsimp only at run
    rw [ShmRegion.copyIn, exec_bind_of_some (exec_writeBytes _ _ _), from_raw_eq_some map positive (by omega)] at run
    exact absurd (Prod.mk.inj (Option.some.inj run)).1 made

/-- The words of the header decide whether a creation that gives up gives its header back. -/
theorem abandoned_iff (map : region.Mapped) (total : region.size = n) (enough : n ≤ fuel) (heap : HeapLive n m S)
    {size w f : Nat} {a : Alloc} {m₁ m₂ m' : Mem} (large : 16 ≤ size) (served : Served n m V S size a m₁)
    (sizeWord : load m₁ a.ptr 4 = w % 2 ^ 32) (flagsWord : load m₁ (a.ptr + 8) 4 = f % 2 ^ 32)
    (step : HeapStep n (insert a S) m₁ (insert a S) m₂) {mutex : Nat}
    (run : exec (do
      Prog.perform (.mutexDestroy mutex)
      let _ ← objectStoreFree fuel region a.ptr
      return offsetPtrNull) m₂ = some (0, m')) :
    SameUse m m' ↔ ∀ s x pre, Stops m V (scanOrder V (allocatorSelectShard (roundUp size 16)) shardCount) size 16 s x pre →
      f % 2 = 0 ∧ 16 + w % 2 ^ 32 ≤ takenWidth m x size - (payloadPtr x 16 - x) := by
  have mem : a ∈ insert a S := Set.mem_insert a S
  have sized := served.sized
  have same := step.bytes a mem mem
  have span : spanOf m₂ a = takenWidth m a.block size - (payloadPtr a.block 16 - a.block) := by
    unfold spanOf
    rw [step.width a mem mem, served.width, served.place]
  have free : Freeable m₂ a ↔ f % 2 = 0 ∧ 16 + w % 2 ^ 32 ≤ takenWidth m a.block size - (payloadPtr a.block 16 - a.block) := by
    unfold Freeable
    rw [load_congr (same.narrow (Nat.le_add_right _ _) (by simp only [ObjectHeader.flags]; omega)),
      load_congr (same.narrow (Nat.le_add_right _ _) (by simp only [ObjectHeader.size]; omega)), span]
    simp only [ObjectHeader.flags, ObjectHeader.size, ObjectHeader.sizeof, Nat.add_zero, sizeWord, flagsWord,
      objectFlagFreed, Nat.and_one_is_mod]
    omega
  obtain ⟨s, pre, stops⟩ := served.stops
  have only : (∀ s x pre, Stops m V (scanOrder V (allocatorSelectShard (roundUp size 16)) shardCount) size 16 s x pre →
      f % 2 = 0 ∧ 16 + w % 2 ^ 32 ≤ takenWidth m x size - (payloadPtr x 16 - x)) ↔ Freeable m₂ a := by
    rw [free]
    refine ⟨fun all => all s _ pre stops, fun fits t x pre' other => ?_⟩
    rw [other.unique stops]
    exact fits
  rw [only]
  obtain ⟨status, m'', freed, outcome⟩ := exec_objectFree map total enough step.heap mem served.aligned (by omega)
  have ends : m'' = m' := by
    simp only [perform_bind, exec_call] at run
    rw [exec_bind_of_some freed] at run
    exact (Prod.mk.inj (Option.some.inj run)).2
  subst ends
  rcases outcome with ⟨fits, release⟩ | ⟨kept, rfl⟩
  · have back : insert a S \ {a} = S := by
      ext c
      simp only [Set.mem_sdiff, Set.mem_insert_iff, Set.mem_singleton_iff]
      exact ⟨fun mc => mc.1.resolve_left mc.2, fun mc => ⟨Or.inr mc, fun eq => served.fresh (eq ▸ mc)⟩⟩
    rw [back] at release
    have whole := (served.step.trans step fun c _ mc => mc).trans release fun c _ mc => Set.mem_insert_of_mem a mc
    exact iff_of_true (whole.same_use heap) fits
  · exact iff_of_false (heap.not_same_use step.heap served.fresh) kept

/-- A creation whose header is not found, or that ends at its second allocation with the words w and f in its header. -/
theorem header_clean_iff (map : region.Mapped) (total : region.size = n) (enough : n ≤ fuel) (inv : HeapInv n m V)
    (intact : V.Intact) {k w f : Nat} (small : k < 2 ^ 32) {next : Except OffsetStoreStatus Nat → Code Nat} {m' : Mem}
    (failed : ∀ e, next (.error e) = return offsetPtrNull)
    (made : ∀ a m₁, Served n m V {a | V.Live a} (16 + k) a m₁ → 2776 ≤ a.ptr → a.ptr + a.size ≤ n →
      offsetPtrTryResolve region.base region.size a.ptr k = some (add64 region.base a.ptr) →
      exec (next (.ok a.ptr)) m₁ = some (offsetPtrNull, m') →
      ∃ m₂ m₃ mutex, Scribbled n (insert a {a | V.Live a}) a m₁ m₂ ∧ load m₂ a.ptr 4 = w % 2 ^ 32 ∧
        load m₂ (a.ptr + 8) 4 = f % 2 ^ 32 ∧ HeapStep n (insert a {a | V.Live a}) m₂ (insert a {a | V.Live a}) m₃ ∧
        exec (do
          Prog.perform (.mutexDestroy mutex)
          let _ ← objectStoreFree fuel region a.ptr
          return offsetPtrNull) m₃ = some (offsetPtrNull, m'))
    (run : exec (objectStoreAlloc fuel region 1 k >>= next) m = some (offsetPtrNull, m')) :
    SameUse m m' ↔ ∀ s x pre, Stops m V (scanOrder V (allocatorSelectShard (roundUp (16 + k) 16)) shardCount) (16 + k) 16
        s x pre →
      f % 2 = 0 ∧ 16 + w % 2 ^ 32 ≤ takenWidth m x (16 + k) - (payloadPtr x 16 - x) := by
  have heap : HeapLive n m {a | V.Live a} := ⟨V, inv, intact, fun _ => Iff.rfl⟩
  obtain ⟨a, m₁, served, alloc⟩ | ⟨starved, e, m₁, alloc, step⟩ :=
    exec_objectAlloc_first map total enough inv intact (fun _ => Iff.rfl) 1 small
  · have bounds := served.step.heap.footprint.bounds a (Set.mem_insert a _)
    have sized := served.sized
    unfold heapBase at bounds
    rw [exec_bind_of_some alloc] at run
    obtain ⟨m₂, m₃, mutex, written, sizeWord, flagsWord, step, abandon⟩ := made a m₁ served (by omega) (by omega)
      (resolve_eq_some map (by omega) (by omega) (by omega)) run
    exact abandoned_iff map total enough heap (by omega) (served.scribbled written) sizeWord flagsWord step abandon
  · rw [exec_bind_of_some alloc, failed] at run
    obtain rfl := (Prod.mk.inj (Option.some.inj run)).2
    exact iff_of_true (step.same_use heap) fun s x pre stops => absurd stops (starved s x pre)

/-- A creation of a ring buffer or a hash table that returns null leaves nothing behind exactly when it rejects its
    arguments, finds no block for its header, or stored arguments there that pass for those of an object. -/
theorem failed_create_clean_iff (map : region.Mapped) (total : region.size = n) (enough : n ≤ fuel) (inv : HeapInv n m V)
    (intact : V.Intact) (c : Buffered) {m' : Mem} (run : exec (c.create fuel region) m = some (offsetPtrNull, m')) :
    SameUse m m' ↔ c.Rejected ∨ c.Disguised m V := by
  have heap : HeapLive n m {a | V.Live a} := ⟨V, inv, intact, fun _ => Iff.rfl⟩
  have user := map.user
  have untouched : SameUse m m := (HeapStep.refl heap).same_use heap
  cases c with
  | ringbuf capacity elemSize =>
    simp only [Buffered.create, ringbufCreate] at run
    by_cases bad : capacity < 2 ∨ elemSize = 0
    · rw [if_pos bad] at run
      obtain rfl := (Prod.mk.inj (Option.some.inj run)).2
      exact iff_of_true untouched (Or.inl bad)
    rw [if_neg bad] at run
    simp only [show ¬(Buffered.ringbuf capacity elemSize).Rejected from bad, false_or]
    refine header_clean_iff (k := RingBufHeader.sizeof) (w := capacity) (f := 0) map total enough inv intact
      (by simp) (fun _ => rfl) ?_ run
    intro a m₁ served low high resolved run
    have mem : a ∈ insert a {a | V.Live a} := Set.mem_insert a _
    have sized := served.sized
    simp only [RingBufHeader.sizeof] at sized
    simp only [ringbufResolveHeader, resolved, RingBufHeader.capacity, RingBufHeader.head, RingBufHeader.tail,
      RingBufHeader.elemSize, RingBufHeader.dataOffset] at run
    rw [exec_store64 (by omega), exec_store64 (by omega), exec_store64 (by omega), exec_store64 (by omega),
      exec_store64 (by omega), exec_bind_of_some (exec_initLock _ _)] at run
    have written := (((((Scribbled.refl served.step.heap a).store mem (o := a.ptr + 0) (k := 8) (v := capacity) (by omega)
      (by omega)).store mem (o := a.ptr + 8) (k := 8) (v := 0) (by omega) (by omega)).store mem (o := a.ptr + 16) (k := 8)
      (v := 0) (by omega) (by omega)).store mem (o := a.ptr + 24) (k := 8) (v := elemSize) (by omega) (by omega)).store mem
      (o := a.ptr + 32) (k := 8) (v := offsetPtrNull) (by omega) (by omega)
    obtain ⟨m₃, step, abandon⟩ :=
      exec_second map total enough (served.scribbled written).step.heap (show a.ptr ≠ 0 by omega) run
    refine ⟨_, m₃, _, written, ?_, ?_, step, abandon⟩
    · simp (disch := omega) only [load_store_apart, Nat.add_zero, load_store_low]
    · simp (disch := omega) only [load_store_apart, Nat.add_zero, load_store_low]
  | hashtable numBuckets keySize valSize =>
    simp only [Buffered.create, hashtableCreate] at run
    by_cases bad : numBuckets = 0 ∨ keySize = 0 ∨ valSize = 0
    · rw [if_pos bad] at run
      obtain rfl := (Prod.mk.inj (Option.some.inj run)).2
      exact iff_of_true untouched (Or.inl bad)
    rw [if_neg bad] at run
    simp only [show ¬(Buffered.hashtable numBuckets keySize valSize).Rejected from bad, false_or]
    refine header_clean_iff (k := HashTableHeader.sizeof) (w := numBuckets) (f := keySize) map total enough inv intact
      (by simp) (fun _ => rfl) ?_ run
    intro a m₁ served low high resolved run
    have mem : a ∈ insert a {a | V.Live a} := Set.mem_insert a _
    have sized := served.sized
    simp only [HashTableHeader.sizeof] at sized
    simp only [hashtableResolveHeader, resolved, HashTableHeader.numBuckets, HashTableHeader.keySize,
      HashTableHeader.valSize, HashTableHeader.buckets] at run
    rw [exec_store64 (by omega), exec_store64 (by omega), exec_store64 (by omega), exec_store64 (by omega),
      exec_bind_of_some (exec_initLock _ _)] at run
    have written := ((((Scribbled.refl served.step.heap a).store mem (o := a.ptr + 0) (k := 8) (v := numBuckets) (by omega)
      (by omega)).store mem (o := a.ptr + 8) (k := 8) (v := keySize) (by omega) (by omega)).store mem (o := a.ptr + 16) (k := 8)
      (v := valSize) (by omega) (by omega)).store mem (o := a.ptr + 24) (k := 8) (v := offsetPtrNull) (by omega) (by omega)
    obtain ⟨m₃, step, abandon⟩ :=
      exec_second map total enough (served.scribbled written).step.heap (show a.ptr ≠ 0 by omega) run
    refine ⟨_, m₃, _, written, ?_, ?_, step, abandon⟩
    · simp (disch := omega) only [load_store_apart, Nat.add_zero, load_store_low]
    · simp (disch := omega) only [load_store_apart, load_store_low]

theorem failed_create_clean_small : ∃ m', exec (ringbufCreate 4096 smallRegion 2000 1) initialised = some (0, m') ∧
    (SameUse initialised m' ↔
      (Buffered.ringbuf 2000 1).Rejected ∨ (Buffered.ringbuf 2000 1).Disguised initialised (freshView 4096)) := by
  have made : (exec (ringbufCreate 4096 smallRegion 2000 1) initialised).map Prod.fst = some 0 := by decide +kernel
  obtain ⟨⟨h, m'⟩, run, same⟩ := Option.map_eq_some_iff.mp made
  have null : h = 0 := same
  subst null
  exact ⟨m', run, failed_create_clean_iff smallRegion_mapped rfl (Nat.le_refl _) initialised_inv (fresh_intact 4096)
    (.ringbuf 2000 1) run⟩

/-- Its creation fails, and the block at 2736 stays allocated. -/
theorem failed_ring_leaks : HeapInv 4096 initialised (freshView 4096) ∧
    ∃ m', exec (ringbufCreate 4096 smallRegion 2000 1) initialised = some (0, m') ∧ ¬SameUse initialised m' := by
  have made : (exec (ringbufCreate 4096 smallRegion 2000 1) initialised).map (fun r =>
      (r.1, load r.2 2512 8, load r.2 2520 8, load r.2 2736 8, load r.2 2752 4, load r.2 2880 8)) =
      some (0, 2736, 1360, 144, 0, 196) := by decide +kernel
  obtain ⟨⟨h, m'⟩, run, same⟩ := Option.map_eq_some_iff.mp made
  simp only [Prod.mk.injEq] at same
  obtain ⟨rfl, offset, total, first, flags, second⟩ := same
  refine ⟨initialised_inv, m', run, fun use => ?_⟩
  have none := heapLive_initialised.blocks
  rw [Set.image_empty, ← use.blocks] at none
  have here : 2736 ∈ liveBlocks m' := by
    refine ⟨0, by omega, [2736, 2880], ?_, by simp, ?_⟩
    · simp [Tiles, heapOffsetOf, heapSizeOf, blockSizeOf, offset, total, first, second]
    · simp [isFreeBlock, flags]
  rw [none] at here
  exact here

end Rejected

end OffsetStore
