import OffsetStore.HeapSpan
import OffsetStore.ContainerRuns

/- object_store.c on a heap that carries a view. A handle resolves when it is the
   payload of a live allocation, the flags word in it is even and the room asked for
   ends inside the block. A release reads both words from the payload again, so that
   what a container stored there decides whether anything is released. -/
namespace OffsetStore
open ByteMemory Program Prog Words Tiling CellChain Pool

/-- object_store_free gives the allocation back. -/
def Freeable (m : Mem) (a : Alloc) : Prop :=
  load m (a.ptr + ObjectHeader.flags) 4 &&& objectFlagFreed = 0 ∧
    ObjectHeader.sizeof + load m (a.ptr + ObjectHeader.size) 4 ≤ spanOf m a

instance (m : Mem) (a : Alloc) : Decidable (Freeable m a) := instDecidableAnd

/-- The checks of object_store_free and object_store_validate on an object with a span of bytes. -/
def SoundObject (m : Mem) (x span : Nat) : Prop :=
  load m (x + ObjectHeader.flags) 4 &&& objectFlagFreed = 0 ∧ ObjectHeader.sizeof + load m (x + ObjectHeader.size) 4 ≤ span

instance (m : Mem) (x span : Nat) : Decidable (SoundObject m x span) := instDecidableAnd

/-- The end of object_store_free: the header is marked, then its allocation is released. -/
def objectRelease (region : ShmRegion) (header payloadSize flags : Nat) : Code OffsetStoreStatus := do
  region.store32 header ObjectHeader.flags (flags ||| objectFlagFreed)
  region.store32 header ObjectHeader.type 0
  region.store32 header ObjectHeader.reserved objectFreedMark
  region.store32 header ObjectHeader.size payloadSize
  allocatorFree region header

/-- The memory in which the allocation of a marked object is released. -/
def markedFreed (m : Mem) (a : Alloc) : Mem :=
  store (store (store (store m (a.ptr + 8) 4 (load m (a.ptr + 8) 4 ||| 1)) (a.ptr + 4) 4 0) (a.ptr + 12) 4
    objectFreedMark) a.ptr 4 (load m a.ptr 4)

section Resolve
variable {n fuel : Nat} {region : ShmRegion} {m : Mem} {V : HeapView} {a : Alloc}

theorem loads_resolve (object size : Nat) : Loads (objectStoreResolveHeader fuel region object size) := by
  unfold objectStoreResolveHeader ShmRegion.load32
  simp only [loadWord_bind]
  refine loads_ite loads_ret (loads_ite loads_ret ?_)
  split
  · exact loads_ret
  · refine loads_bind (loads_span _ _) fun span => ?_
    split
    · exact loads_ret
    · exact loads_ite loads_ret (loads_read fun _ => loads_ret)

theorem loads_objectValidate (object : Nat) : Loads (objectStoreValidate fuel region object) := by
  unfold objectStoreValidate objectStoreGetHeader ShmRegion.load32
  simp only [loadWord_bind]
  refine loads_ite loads_ret (loads_bind (loads_resolve _ _) fun header => ?_)
  split
  · exact loads_ret
  · refine loads_read fun _ => loads_bind (loads_resolve _ _) fun resolved => ?_
    split
    · exact loads_ret
    · exact loads_ret

/-- A handle whose address has an answer resolves to it, or not at all. -/
theorem burst_resolve_ends (map : region.Mapped) {object : Nat}
    (span : ∃ r, burst m (allocatorGetAllocationSpan fuel region (add64 region.base object)) = ([], ret r)) (size : Nat) :
    ∃ r, burst m (objectStoreResolveHeader fuel region object size) = ([], ret r) ∧
      (r = none ∨ r = some (add64 region.base object)) := by
  have user := map.user
  unfold objectStoreResolveHeader
  split
  · exact ⟨_, rfl, Or.inl rfl⟩
  split
  · exact ⟨_, rfl, Or.inl rfl⟩
  rename_i sized
  dsimp only
  cases resolved : offsetPtrTryResolve region.base region.size object (add64 ObjectHeader.sizeof size) with
  | none => exact ⟨_, rfl, Or.inl rfl⟩
  | some header =>
    obtain ⟨_, _, fits, place⟩ := (resolve_iff map.base_pos (by omega)).mp resolved
    have total : add64 ObjectHeader.sizeof size = 16 + size := add64_eq (by
      simp only [sizeMax, ObjectHeader.sizeof] at sized ⊢
      omega)
    have address : header = add64 region.base object := by
      rw [place, add64_eq (by omega)]
    subst address
    obtain ⟨r, value⟩ := span
    dsimp only
    rw [burst_bind_of_ret value]
    cases r with
    | error e => exact ⟨_, rfl, Or.inl rfl⟩
    | ok width =>
      dsimp only
      split
      · exact ⟨_, rfl, Or.inl rfl⟩
      · rw [load32_field (by simp only [ObjectHeader.flags]; omega), loadWord_bind, burst_read]
        split
        · exact ⟨_, rfl, Or.inr rfl⟩
        · exact ⟨_, rfl, Or.inl rfl⟩

theorem burst_resolve_match (inv : HeapInv n m V) (map : region.Mapped) (total : region.size = n) {s : Nat}
    (shard : s < 4) {b : Block} (mem : b ∈ (V s).blocks) {x : Nat} (hit : SpanMatch m x b.start) (enough : n ≤ fuel)
    {size : Nat} (small : size < 2 ^ 32) :
    burst m (objectStoreResolveHeader fuel region x size) = ([], ret (if 16 + size ≤ b.start + b.size - x ∧
      load m (x + 8) 4 &&& objectFlagFreed = 0 then some (add64 region.base x) else none)) := by
  have user := map.user
  have finish := heap_end_le inv.room shard
  have start := shardStart_ge n s
  have inside := (inv.shards s shard).bounds mem
  have place := inv.match_inside shard mem hit
  unfold objectStoreResolveHeader
  rw [if_neg (by simp only [offsetPtrIsNull, decide_eq_true_eq]; omega),
    if_neg (by simp only [sizeMax, ObjectHeader.sizeof]; omega)]
  have sized : add64 ObjectHeader.sizeof size = 16 + size := add64_eq (by simp only [ObjectHeader.sizeof]; omega)
  simp only [sized]
  by_cases room : x + (16 + size) ≤ n
  · have resolved : offsetPtrTryResolve region.base region.size x (16 + size) = some (add64 region.base x) :=
      resolve_eq_some map (by omega) (by omega) (by omega)
    simp only [resolved]
    rw [burst_bind_of_ret (inv.burst_span_match map total shard mem hit enough)]
    by_cases fit : 16 + size ≤ b.start + b.size - x
    · dsimp only
      rw [if_neg (by omega)]
      simp (disch := omega) only [ObjectHeader.flags, load32_field]
      simp only [loadWord_bind, burst_read, pure_eq, burst_ret, fit, true_and]
    · dsimp only
      rw [if_pos (by omega)]
      simp only [pure_eq, burst_ret, fit, false_and, if_false]
  · have resolved : offsetPtrTryResolve region.base region.size x (16 + size) = none :=
      resolve_eq_none map (by omega)
    simp only [resolved]
    rw [if_neg (by omega)]
    rfl

/-- In an intact heap every other handle is refused. -/
theorem burst_resolve_dead (inv : HeapInv n m V) (intact : V.Intact) (narrow : n < 2 ^ 32) (map : region.Mapped)
    (total : region.size = n) {object : Nat} (dead : ∀ a, V.Live a → a.ptr ≠ object) (enough : n ≤ fuel) (size : Nat) :
    burst m (objectStoreResolveHeader fuel region object size) = ([], ret none) := by
  unfold objectStoreResolveHeader
  by_cases null : object = 0
  · rw [if_pos (by simpa [offsetPtrIsNull] using null)]
    rfl
  · rw [if_neg (by simpa [offsetPtrIsNull] using null)]
    split
    · rfl
    · by_cases inside : object < n
      · cases resolved : offsetPtrTryResolve region.base region.size object (add64 ObjectHeader.sizeof size) with
        | none =>
          simp only [resolved]
          rfl
        | some header =>
          have address : header = add64 region.base object := by
            unfold offsetPtrTryResolve at resolved
            split at resolved
            · simp at resolved
            · split at resolved
              · simp at resolved
              · exact (Option.some.inj resolved).symm
          subst address
          simp only [resolved]
          obtain ⟨e, refused⟩ := inv.burst_span_dead intact narrow map total inside dead enough
          rw [burst_bind_of_ret refused]
          rfl
      · have resolved : offsetPtrTryResolve region.base region.size object (add64 ObjectHeader.sizeof size) = none :=
          resolve_eq_none map (by omega)
        simp only [resolved]
        rfl

section Match
variable {s x : Nat} {b : Block} (inv : HeapInv n m V) (map : region.Mapped) (total : region.size = n) (shard : s < 4)
  (mem : b ∈ (V s).blocks) (hit : SpanMatch m x b.start) (whole : 16 ≤ b.start + b.size - x) (enough : n ≤ fuel)
include inv map total shard mem hit whole enough

theorem burst_objectFree_match :
    burst m (objectStoreFree fuel region x) = burst m (if SoundObject m x (b.start + b.size - x) then
      objectRelease region (add64 region.base x) (load m x 4) (load m (x + 8) 4) else ret .notFound) := by
  have user := map.user
  have start := shardStart_ge n s
  have finish := heap_end_le inv.room shard
  have inside := (inv.shards s shard).bounds mem
  have place := inv.match_inside shard mem hit
  have span : 16 + 0 ≤ b.start + b.size - x := by omega
  have first := burst_resolve_match inv map total shard mem hit enough (show 0 < 2 ^ 32 by omega)
  have second := burst_resolve_match inv map total shard mem hit enough (load_four_lt m x)
  unfold objectStoreFree objectStoreGetHeaderMut
  rw [if_neg (by simp only [offsetPtrIsNull, decide_eq_true_eq]; omega), burst_bind_of_ret first]
  by_cases even : load m (x + 8) 4 &&& objectFlagFreed = 0
  · rw [if_pos ⟨span, even⟩]
    simp (disch := omega) only [ObjectHeader.size, load32_field]
    simp only [loadWord_bind, burst_read, Nat.add_zero]
    rw [burst_bind_of_ret second]
    by_cases fit : 16 + load m x 4 ≤ b.start + b.size - x
    · rw [if_pos ⟨fit, even⟩, if_pos (show SoundObject m x (b.start + b.size - x) from ⟨even, fit⟩)]
      simp (disch := omega) only [ObjectHeader.flags, load32_field]
      simp only [loadWord_bind, burst_read, Nat.add_zero]
      rfl
    · rw [if_neg (fun both => fit both.1), if_neg (show ¬SoundObject m x _ from fun both => fit both.2)]
      rfl
  · rw [if_neg (fun both => even both.2), if_neg (show ¬SoundObject m x _ from fun both => even both.1)]
    rfl

/-- What object_store_validate accepts. -/
theorem burst_validate_match : ∃ status, burst m (objectStoreValidate fuel region x) = ([], ret status) ∧
    (status = .ok ↔ SoundObject m x (b.start + b.size - x)) := by
  have user := map.user
  have start := shardStart_ge n s
  have finish := heap_end_le inv.room shard
  have inside := (inv.shards s shard).bounds mem
  have place := inv.match_inside shard mem hit
  have span : 16 + 0 ≤ b.start + b.size - x := by omega
  have first := burst_resolve_match inv map total shard mem hit enough (show 0 < 2 ^ 32 by omega)
  have second := burst_resolve_match inv map total shard mem hit enough (load_four_lt m x)
  unfold objectStoreValidate objectStoreGetHeader
  rw [if_neg (by simp only [offsetPtrIsNull, decide_eq_true_eq]; omega), burst_bind_of_ret first]
  by_cases even : load m (x + 8) 4 &&& objectFlagFreed = 0
  · rw [if_pos ⟨span, even⟩]
    simp (disch := omega) only [ObjectHeader.size, load32_field]
    simp only [loadWord_bind, burst_read, Nat.add_zero]
    rw [burst_bind_of_ret second]
    by_cases fit : 16 + load m x 4 ≤ b.start + b.size - x
    · rw [if_pos ⟨fit, even⟩]
      exact ⟨.ok, rfl, iff_of_true rfl ⟨even, fit⟩⟩
    · rw [if_neg (fun both => fit both.1)]
      exact ⟨.invalidState, rfl, iff_of_false (by simp) fun both => fit both.2⟩
  · rw [if_neg (fun both => even both.2)]
    exact ⟨.notFound, rfl, iff_of_false (by simp) fun both => even both.1⟩

end Match

theorem burst_objectFree (inv : HeapInv n m V) (map : region.Mapped) (total : region.size = n) (live : V.Live a)
    (near : a.ptr - a.block < 2 ^ 32) (whole : 16 ≤ a.size) (enough : n ≤ fuel) :
    burst m (objectStoreFree fuel region a.ptr) = burst m (if Freeable m a then
      objectRelease region (add64 region.base a.ptr) (load m a.ptr 4) (load m (a.ptr + 8) 4)
      else ret .notFound) := by
  obtain ⟨s, shard, b, mem, kind, fits, _⟩ := inv.live_block live
  have width := ((inv.shards s shard).repr b mem).size
  have high := fits.ptr_le
  have low := fits.ptr_ge
  have span : b.start + b.size - a.ptr = spanOf m a := by
    unfold spanOf
    rw [fits.block, width]
    omega
  rw [burst_objectFree_match inv map total shard mem (fits.block ▸ inv.match_live live near) (by omega) enough, span]
  rfl

end Resolve

section Owned
variable {n : Nat} {L : Set Alloc} {μ : Mem} {region : ShmRegion}

/-- The outcome of object_store_free: the object is gone, or everything is as before. -/
def objectFreed (a : Alloc) (L : Set Alloc) (μ : Mem) : OffsetStoreStatus → Set Alloc → Mem → Prop
  | .ok, L', μ' => L' = L \ {a} ∧ ∀ b ∈ L \ {a}, SameOn μ μ' b.ptr (b.ptr + b.size)
  | _, L', μ' => L' = L ∧ μ' = μ

theorem does_objectFree (map : region.Mapped) (total : region.size = n) {fuel : Nat} (enough : n ≤ fuel) {a : Alloc}
    (mem : a ∈ L) (plain : a.align = 16) (whole : 16 ≤ a.size) :
    Does n L μ (objectStoreFree fuel region a.ptr) (objectFreed a L μ) := by
  refine does_foot fun foot => ?_
  have near := foot.near a mem
  refine does_skip fun frame m tokens => ?_
  obtain ⟨V, carries⟩ := tokens
  refine ⟨_, burst_objectFree carries.inv map total (live_of_owned carries mem) (by omega) whole enough, ?_⟩
  split
  · unfold objectRelease
    simp only [ObjectHeader.flags, ObjectHeader.type, ObjectHeader.reserved, ObjectHeader.size]
    refine does_store32 map total mem (by omega) (by omega) ?_
    refine does_store32 map total mem (by omega) (by omega) ?_
    refine does_store32 map total mem (by omega) (by omega) ?_
    refine does_store32 map total mem (by omega) (by omega) ?_
    refine does_weaken (does_free map total mem plain) ?_
    rintro status L' μ' ⟨rfl, rfl, rfl⟩
    refine ⟨rfl, fun b mb => ?_⟩
    have apart : a.ptr + a.size ≤ b.ptr ∨ b.ptr + b.size ≤ a.ptr :=
      (foot.apart a mem b mb.1).resolve_left fun same => mb.2 same.symm
    intro x low high
    rw [store_outside, store_outside, store_outside, store_outside]
    all_goals omega
  · exact does_ret ⟨rfl, rfl⟩

end Owned

end OffsetStore
