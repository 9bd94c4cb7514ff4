import OffsetStore.ObjectStore
import OffsetStore.Lib.Lockstep

/- One region mapped at two addresses: the allocator and the object store do the same at
   both, and the addresses they return lie at the same offset of their mapping. -/
namespace OffsetStore
open ByteMemory Program Prog Words

/-- Two mappings of one region, neither at NULL nor around the end of the address space. -/
structure Twin (r r' : ShmRegion) : Prop where
  base : 0 < r.base
  base' : 0 < r'.base
  finish : r.base + r.size < 2 ^ 64
  finish' : r'.base + r'.size < 2 ^ 64
  size : r'.size = r.size

/-- Addresses of one offset. -/
def Moved (r r' : ShmRegion) (p p' : Nat) : Prop :=
  ∃ off, off < 2 ^ 64 ∧ p = add64 r.base off ∧ p' = add64 r'.base off

def MovedOption (r r' : ShmRegion) (a b : Option Nat) : Prop :=
  (a = none ∧ b = none) ∨ ∃ p p', a = some p ∧ b = some p' ∧ Moved r r' p p'

inductive MovedResult (r r' : ShmRegion) : Except OffsetStoreStatus Nat → Except OffsetStoreStatus Nat → Prop where
  | error (status : OffsetStoreStatus) : MovedResult r r' (.error status) (.error status)
  | ok {p p' : Nat} (moved : Moved r r' p p') : MovedResult r r' (.ok p) (.ok p')

inductive MovedFound (r r' : ShmRegion) :
    Option (Except OffsetStoreStatus Nat) → Option (Except OffsetStoreStatus Nat) → Prop where
  | none : MovedFound r r' none none
  | some {a b : Except OffsetStoreStatus Nat} (moved : MovedResult r r' a b) : MovedFound r r' (some a) (some b)

section Addresses
variable {r r' : ShmRegion} {p p' q q' : Nat}

theorem moved_base (off : Nat) : Moved r r' (add64 r.base off) (add64 r'.base off) := by
  refine ⟨off % 2 ^ 64, Nat.mod_lt _ (by omega), ?_, ?_⟩
  · unfold add64
    omega
  · unfold add64
    omega

theorem moved_add (moved : Moved r r' p p') (k : Nat) : Moved r r' (add64 p k) (add64 p' k) := by
  obtain ⟨off, small, rfl, rfl⟩ := moved
  refine ⟨add64 off k, add64_lt _ _, ?_, ?_⟩
  · unfold add64
    omega
  · unfold add64
    omega

theorem moved_sub (moved : Moved r r' p p') (k : Nat) : Moved r r' (sub64 p k) (sub64 p' k) := by
  obtain ⟨off, small, rfl, rfl⟩ := moved
  refine ⟨sub64 off k, sub64_lt _ _, ?_, ?_⟩
  · unfold sub64 add64
    omega
  · unfold sub64 add64
    omega

theorem moved_eq_iff (left : Moved r r' p p') (right : Moved r r' q q') : p' = q' ↔ p = q := by
  obtain ⟨a, ha, rfl, rfl⟩ := left
  obtain ⟨b, hb, rfl, rfl⟩ := right
  rw [add64_left_cancel ha hb, add64_left_cancel ha hb]

theorem moved_offset (moved : Moved r r' p p') (k : Nat) : r'.offsetOf (add64 p' k) = r.offsetOf (add64 p k) := by
  obtain ⟨off, small, rfl, rfl⟩ := moved
  unfold ShmRegion.offsetOf sub64 add64
  omega

theorem moved_load32 (moved : Moved r r' p p') (k : Nat) : r'.load32 p' k = r.load32 p k := by
  rw [ShmRegion.load32, ShmRegion.load32, moved_offset moved]

theorem moved_load64 (moved : Moved r r' p p') (k : Nat) : r'.load64 p' k = r.load64 p k := by
  rw [ShmRegion.load64, ShmRegion.load64, moved_offset moved]

theorem moved_store32 (moved : Moved r r' p p') (k v : Nat) : r'.store32 p' k v = r.store32 p k v := by
  rw [ShmRegion.store32, ShmRegion.store32, moved_offset moved]

theorem moved_store64 (moved : Moved r r' p p') (k v : Nat) : r'.store64 p' k v = r.store64 p k v := by
  rw [ShmRegion.store64, ShmRegion.store64, moved_offset moved]

theorem moved_resolve (twin : Twin r r') (ptr span : Nat) :
    MovedOption r r' (offsetPtrTryResolve r.base r.size ptr span) (offsetPtrTryResolve r'.base r'.size ptr span) := by
  have unfolded : ∀ region : ShmRegion, 0 < region.base → offsetPtrTryResolve region.base region.size ptr span =
      if !offsetPtrIsInBounds region.size ptr span then none else some (add64 region.base ptr) :=
    fun region positive => if_neg (by omega)
  rw [unfolded r twin.base, unfolded r' twin.base', twin.size]
  split
  · exact Or.inl ⟨rfl, rfl⟩
  · exact Or.inr ⟨_, _, rfl, rfl, moved_base ptr⟩

theorem moved_header (twin : Twin r r') : MovedOption r r' (allocatorHeader r) (allocatorHeader r') := by
  have left := twin.base
  have right := twin.base'
  unfold allocatorHeader
  rw [twin.size]
  by_cases small : r.size < allocatorMetadataOffset + AllocatorHeader.sizeof
  · rw [if_pos (Or.inr small), if_pos (Or.inr small)]
    exact Or.inl ⟨rfl, rfl⟩
  · rw [if_neg (by omega), if_neg (by omega)]
    exact Or.inr ⟨_, _, rfl, rfl, moved_base _⟩

/-- Inside the mapping an address is its offset; outside it has none. -/
theorem from_raw_eq {r : ShmRegion} (positive : 0 < r.base) (finish : r.base + r.size < 2 ^ 64) {off : Nat}
    (small : off < 2 ^ 64) : offsetPtrTryFromRaw r.base r.size (add64 r.base off) =
      if 0 < off ∧ off < r.size then some off else none := by
  have last : add64 r.base r.size = r.base + r.size := add64_eq finish
  unfold offsetPtrTryFromRaw
  simp only [last]
  by_cases inside : off < r.size
  · have address : add64 r.base off = r.base + off := add64_eq (by omega)
    have difference : sub64 (r.base + off) r.base = off := by
      rw [sub64_eq (by omega) (by omega)]
      omega
    rw [address, difference, if_neg (by omega), if_neg (by omega)]
    by_cases zero : off = 0
    · rw [if_pos zero, if_neg (by omega)]
    · rw [if_neg zero, if_pos ⟨by omega, inside⟩]
  · rw [if_neg (show ¬(0 < off ∧ off < r.size) by omega)]
    by_cases null : r.base = 0 ∨ add64 r.base off = 0
    · rw [if_pos null]
    · have outside : r.base + r.size < r.base ∨ add64 r.base off < r.base ∨ add64 r.base off ≥ r.base + r.size := by
        unfold add64
        omega
      rw [if_neg null, if_pos outside]

theorem moved_from_raw (twin : Twin r r') (moved : Moved r r' p p') :
    offsetPtrTryFromRaw r'.base r'.size p' = offsetPtrTryFromRaw r.base r.size p := by
  obtain ⟨off, small, rfl, rfl⟩ := moved
  rw [from_raw_eq twin.base twin.finish small, from_raw_eq twin.base' twin.finish' small, twin.size]

end Addresses

section Allocator
variable {r r' : ShmRegion} {h h' p p' : Nat}

theorem headerValid_moved (twin : Twin r r') (header : Moved r r' h h') :
    allocatorHeaderValid r' h' = allocatorHeaderValid r h := by
  unfold allocatorHeaderValid
  simp only [moved_load64 header, moved_load32 header, twin.size]

theorem lockstep_exit (s : Nat) {a b : Option (Except OffsetStoreStatus Nat)} (moved : MovedFound r r' a b) :
    Lockstep (MovedFound r r') (allocExit s a) (allocExit s b) :=
  lockstep_call fun _ => lockstep_call fun _ => lockstep_ret moved

theorem lockstep_mark (block : Moved r r' p p') (s currentOffset payloadOffset : Nat) :
    Lockstep (MovedFound r r') (allocMark r s currentOffset p payloadOffset)
      (allocMark r' s currentOffset p' payloadOffset) := by
  have payload := moved_add block payloadOffset
  have before := moved_sub payload AllocationPrefix.sizeof
  unfold allocMark
  simp only [moved_store32 block, moved_store64 block, moved_store64 before]
  refine lockstep_after _ fun _ => lockstep_after _ fun _ => lockstep_after _ fun _ => lockstep_after _ fun _ =>
    lockstep_after _ fun _ => ?_
  exact lockstep_exit s (.some (.ok payload))

theorem lockstep_take (twin : Twin r r') {link link' : Nat} (cell : Moved r r' link link') (block : Moved r r' p p')
    (s currentOffset payloadOffset requiredSize : Nat) :
    Lockstep (MovedFound r r') (allocTake r s link currentOffset p payloadOffset requiredSize)
      (allocTake r' s link' currentOffset p' payloadOffset requiredSize) := by
  have mark := lockstep_mark block s currentOffset payloadOffset
  unfold allocTake
  simp only [moved_store64 block, moved_load64 block, moved_store64 cell]
  refine lockstep_after _ fun blockSize => lockstep_ite (fun _ => ?_) fun _ => ?_
  · unfold allocatorBlockFromOffset
    rcases moved_resolve twin (add64 currentOffset requiredSize) BlockHeader.sizeof with
      ⟨left, right⟩ | ⟨_, _, left, right, next⟩
    · simp only [left, right]
      exact lockstep_exit s (.some (.error _))
    · simp only [left, right, moved_store32 next, moved_store64 next]
      refine lockstep_after _ fun _ => lockstep_after _ fun _ => lockstep_after _ fun _ => lockstep_after _ fun _ =>
        lockstep_after _ fun _ => lockstep_after _ fun _ => lockstep_after _ fun _ => lockstep_after _ fun _ => ?_
      exact mark
  · exact lockstep_after _ fun _ => lockstep_after _ fun _ => mark

theorem lockstep_walk (twin : Twin r r') (header : Moved r r' h h') (s size alignment fuel : Nat) {link link' : Nat}
    (cell : Moved r r' link link') (currentOffset : Nat) :
    Lockstep (MovedFound r r') (allocWalk r h s size alignment fuel link currentOffset)
      (allocWalk r' h' s size alignment fuel link' currentOffset) := by
  induction fuel generalizing link link' currentOffset with
  | zero => exact lockstep_spin
  | succ fuel ih =>
    unfold allocWalk
    refine lockstep_ite (fun _ => lockstep_exit s .none) fun _ => ?_
    simp only [moved_load64 header]
    refine lockstep_after _ fun heapOffset => lockstep_after _ fun heapSize => ?_
    refine lockstep_ite (fun _ => lockstep_exit s (.some (.error _))) fun _ => ?_
    unfold allocatorBlockFromOffset
    rcases moved_resolve twin currentOffset BlockHeader.sizeof with ⟨left, right⟩ | ⟨_, _, left, right, block⟩
    · simp only [left, right]
      exact lockstep_exit s (.some (.error _))
    · simp only [left, right]
      split
      · exact lockstep_exit s (.some (.error _))
      split
      · exact lockstep_exit s (.some (.error _))
      simp only [moved_load64 block]
      refine lockstep_after _ fun blockSize => lockstep_ite (fun _ => lockstep_take twin cell block _ _ _ _) fun _ => ?_
      exact lockstep_after _ fun nextFree => ih (moved_add block _) nextFree

theorem lockstep_shards (twin : Twin r r') (header : Moved r r' h h') (fuel shard size alignment left : Nat) :
    Lockstep (MovedResult r r') (allocShards fuel r h shard size alignment left)
      (allocShards fuel r' h' shard size alignment left) := by
  induction left with
  | zero =>
    unfold allocShards
    rw [moved_offset header]
    exact lockstep_after _ fun _ => lockstep_ret (.error _)
  | succ left ih =>
    unfold allocShards
    refine lockstep_after _ fun lockResult => lockstep_after _ fun _ => ?_
    refine lockstep_ite (fun _ => lockstep_ret (.error _)) fun _ => ?_
    rw [headerValid_moved twin header]
    refine lockstep_after _ fun valid => lockstep_ite (fun _ => ?_) fun _ => ?_
    · exact lockstep_call fun _ => lockstep_call fun _ => lockstep_ret (.error _)
    have cell := moved_add header (AllocatorHeader.shardFreeListHeads + 8 * ((shard + (shardCount - (left + 1))) % shardCount))
    simp only [moved_load64 cell]
    refine lockstep_after _ fun currentOffset => ?_
    refine lockstep_bind (lockstep_walk twin header _ size alignment fuel cell currentOffset) ?_
    intro found found' moved
    cases moved with
    | none => exact ih
    | some result => exact lockstep_ret result

theorem lockstep_alloc (twin : Twin r r') (fuel size alignment : Nat) :
    Lockstep (MovedResult r r') (allocatorAlloc fuel r size alignment) (allocatorAlloc fuel r' size alignment) := by
  unfold allocatorAlloc allocatorHeaderMut
  refine lockstep_ite (fun _ => lockstep_ret (.error _)) fun _ => ?_
  simp only
  split
  · exact lockstep_ret (.error _)
  rcases moved_header twin with ⟨left, right⟩ | ⟨_, _, left, right, header⟩
  · simp only [left, right]
    exact lockstep_ret (.error _)
  · simp only [left, right]
    rw [headerValid_moved twin header]
    refine lockstep_after _ fun valid => lockstep_ite (fun _ => lockstep_ret (.error _)) fun _ => ?_
    exact lockstep_shards twin header _ _ _ _ _

theorem lockstep_freeLocked (twin : Twin r r') (header : Moved r r' h h') (ptr : Moved r r' p p')
    (blockOffset shard : Nat) :
    Lockstep Eq (freeLocked r h p blockOffset shard) (freeLocked r' h' p' blockOffset shard) := by
  unfold freeLocked
  refine lockstep_after _ fun lockResult => lockstep_after _ fun _ => ?_
  refine lockstep_ite (fun _ => lockstep_ret rfl) fun _ => ?_
  rw [headerValid_moved twin header]
  refine lockstep_after _ fun valid => lockstep_ite (fun _ => lockstep_self _) fun _ => ?_
  unfold allocatorBlockFromOffset
  rcases moved_resolve twin blockOffset BlockHeader.sizeof with ⟨left, right⟩ | ⟨_, _, left, right, block⟩
  · simp only [left, right]
    exact lockstep_self _
  · simp only [left, right, moved_load32 block, moved_store32 block, moved_store64 block, moved_store64 header, moved_load64 header]
    refine lockstep_after _ fun payloadOffset => ?_
    simp only [ne_eq, moved_eq_iff (moved_add block payloadOffset) ptr]
    exact lockstep_self _

theorem lockstep_free (twin : Twin r r') (ptr : Moved r r' p p') (nonnull : p ≠ 0) (nonnull' : p' ≠ 0) :
    Lockstep Eq (allocatorFree r p) (allocatorFree r' p') := by
  unfold allocatorFree allocatorHeaderMut
  rw [if_neg nonnull, if_neg nonnull']
  rcases moved_header twin with ⟨left, right⟩ | ⟨_, _, left, right, header⟩
  · simp only [left, right]
    exact lockstep_ret rfl
  · simp only [left, right]
    rw [headerValid_moved twin header]
    refine lockstep_after _ fun valid => lockstep_ite (fun _ => lockstep_ret rfl) fun _ => ?_
    rw [moved_load64 (moved_sub ptr AllocationPrefix.sizeof)]
    refine lockstep_after _ fun blockOffset => ?_
    unfold allocatorBlockFromOffset
    rcases moved_resolve twin blockOffset BlockHeader.sizeof with ⟨left, right⟩ | ⟨_, _, left, right, block⟩
    · simp only [left, right]
      exact lockstep_ret rfl
    · simp only [left, right, moved_load32 block]
      refine lockstep_after _ fun flags => lockstep_ite (fun _ => lockstep_ret rfl) fun _ => ?_
      refine lockstep_after _ fun shard => lockstep_ite (fun _ => lockstep_ret rfl) fun _ => ?_
      exact lockstep_freeLocked twin header ptr blockOffset shard

theorem lockstep_spanWalk (twin : Twin r r') (header : Moved r r' h h') (ptr : Moved r r' p p') (fuel traversed : Nat) :
    Lockstep Eq (spanWalk r h p fuel traversed) (spanWalk r' h' p' fuel traversed) := by
  induction fuel generalizing traversed with
  | zero => exact lockstep_spin
  | succ fuel ih =>
    unfold spanWalk
    simp only [moved_load64 header]
    refine lockstep_after _ fun heapSize => lockstep_ite (fun _ => ?_) fun _ => lockstep_ret rfl
    refine lockstep_after _ fun heapOffset => ?_
    unfold allocatorBlockFromOffset
    rcases moved_resolve twin (add64 heapOffset traversed) BlockHeader.sizeof with
      ⟨left, right⟩ | ⟨_, _, left, right, block⟩
    · simp only [left, right]
      exact lockstep_ret rfl
    · simp only [left, right, moved_load32 block, moved_load64 block]
      refine lockstep_after _ fun flags => lockstep_ite (fun _ => ?_) fun _ => ?_
      · refine lockstep_after _ fun payloadOffset => ?_
        simp only [moved_eq_iff (moved_add block payloadOffset) ptr]
        refine lockstep_ite (fun _ => lockstep_self _) fun _ => ?_
        exact lockstep_after _ fun size => ih _
      · exact lockstep_after _ fun size => ih _

theorem lockstep_span (twin : Twin r r') (ptr : Moved r r' p p') (nonnull : p ≠ 0) (nonnull' : p' ≠ 0) (fuel : Nat) :
    Lockstep Eq (allocatorGetAllocationSpan fuel r p) (allocatorGetAllocationSpan fuel r' p') := by
  unfold allocatorGetAllocationSpan
  rw [if_neg nonnull, if_neg nonnull']
  rcases moved_header twin with ⟨left, right⟩ | ⟨_, _, left, right, header⟩
  · simp only [left, right]
    exact lockstep_ret rfl
  · simp only [left, right]
    rw [headerValid_moved twin header]
    refine lockstep_after _ fun valid => lockstep_ite (fun _ => lockstep_ret rfl) fun _ => ?_
    exact lockstep_spanWalk twin header ptr fuel 0

end Allocator

section Objects
variable {r r' : ShmRegion}

theorem resolve_nonnull {region : ShmRegion} (positive : 0 < region.base) (finish : region.base + region.size < 2 ^ 64)
    {ptr span p : Nat} (resolved : offsetPtrTryResolve region.base region.size ptr span = some p) : p ≠ 0 := by
  unfold offsetPtrTryResolve at resolved
  rw [if_neg (by omega)] at resolved
  split at resolved
  · cases resolved
  · rename_i bounds
    have inside := (in_bounds_iff (show region.size < 2 ^ 64 by omega)).mp (by simpa using bounds)
    rw [← Option.some.inj resolved, add64_eq (by omega)]
    omega

theorem lockstep_resolve (twin : Twin r r') (fuel object payloadSize : Nat) :
    Lockstep (MovedOption r r') (objectStoreResolveHeader fuel r object payloadSize)
      (objectStoreResolveHeader fuel r' object payloadSize) := by
  unfold objectStoreResolveHeader
  refine lockstep_ite (fun _ => lockstep_ret (Or.inl ⟨rfl, rfl⟩)) fun _ => ?_
  refine lockstep_ite (fun _ => lockstep_ret (Or.inl ⟨rfl, rfl⟩)) fun _ => ?_
  rcases moved_resolve twin object (add64 ObjectHeader.sizeof payloadSize) with
    ⟨left, right⟩ | ⟨p, p', left, right, header⟩
  · simp only [left, right]
    exact lockstep_ret (Or.inl ⟨rfl, rfl⟩)
  · have nonnull := resolve_nonnull twin.base twin.finish left
    have nonnull' := resolve_nonnull twin.base' twin.finish' right
    simp only [left, right]
    refine lockstep_bind (lockstep_span twin header nonnull nonnull' fuel) ?_
    rintro span _ rfl
    split
    · exact lockstep_ret (Or.inl ⟨rfl, rfl⟩)
    · refine lockstep_ite (fun _ => lockstep_ret (Or.inl ⟨rfl, rfl⟩)) fun _ => ?_
      simp only [moved_load32 header]
      refine lockstep_after _ fun flags => lockstep_ret ?_
      split
      · exact Or.inr ⟨p, p', rfl, rfl, header⟩
      · exact Or.inl ⟨rfl, rfl⟩

theorem lockstep_getHeader (twin : Twin r r') (fuel object : Nat) :
    Lockstep (MovedOption r r') (objectStoreGetHeader fuel r object) (objectStoreGetHeader fuel r' object) :=
  lockstep_resolve twin fuel object 0

theorem lockstep_getPayload (twin : Twin r r') (fuel object : Nat) :
    Lockstep (MovedOption r r') (objectStoreGetPayload fuel r object) (objectStoreGetPayload fuel r' object) := by
  unfold objectStoreGetPayload objectStoreGetPayloadConst
  refine lockstep_bind (lockstep_getHeader twin fuel object) ?_
  rintro a b (⟨rfl, rfl⟩ | ⟨p, p', rfl, rfl, header⟩)
  · exact lockstep_ret (Or.inl ⟨rfl, rfl⟩)
  · simp only [moved_load32 header]
    refine lockstep_after _ fun size => lockstep_bind (lockstep_resolve twin fuel object size) ?_
    rintro a b (⟨rfl, rfl⟩ | ⟨q, q', rfl, rfl, resolved⟩)
    · exact lockstep_ret (Or.inl ⟨rfl, rfl⟩)
    · exact lockstep_ret (Or.inr ⟨_, _, rfl, rfl, moved_add resolved _⟩)

theorem lockstep_objectAlloc (twin : Twin r r') (fuel type payloadSize : Nat) :
    Lockstep Eq (objectStoreAlloc fuel r type payloadSize) (objectStoreAlloc fuel r' type payloadSize) := by
  unfold objectStoreAlloc
  refine lockstep_ite (fun _ => lockstep_ret rfl) fun _ => ?_
  refine lockstep_bind (lockstep_alloc twin fuel _ _) ?_
  rintro a b (status | header)
  · exact lockstep_ret rfl
  · simp only [moved_store32 header, moved_from_raw twin header]
    exact lockstep_self _

theorem lockstep_objectFree (twin : Twin r r') (fuel object : Nat) :
    Lockstep Eq (objectStoreFree fuel r object) (objectStoreFree fuel r' object) := by
  unfold objectStoreFree
  refine lockstep_ite (fun _ => lockstep_ret rfl) fun null => ?_
  refine lockstep_bind (lockstep_resolve twin fuel object 0) ?_
  rintro a b (⟨rfl, rfl⟩ | ⟨p, p', rfl, rfl, header⟩)
  · exact lockstep_ret rfl
  · simp only [moved_load32 header]
    refine lockstep_after _ fun size => ?_
    unfold objectStoreResolveHeader
    simp only [null, Bool.false_eq_true, if_false]
    by_cases large : size > sizeMax - ObjectHeader.sizeof
    · simp only [large, if_true]
      exact lockstep_ret rfl
    simp only [large, if_false]
    rcases moved_resolve twin object (add64 ObjectHeader.sizeof size) with ⟨left, right⟩ | ⟨q, q', left, right, resolved⟩
    · simp only [left, right]
      exact lockstep_ret rfl
    · have nonnull := resolve_nonnull twin.base twin.finish left
      have nonnull' := resolve_nonnull twin.base' twin.finish' right
      simp only [left, right, bind_assoc]
      refine lockstep_bind (lockstep_span twin resolved nonnull nonnull' fuel) ?_
      rintro span _ rfl
      cases span with
      | error => exact lockstep_ret rfl
      | ok allocationSize =>
        simp only [ite_bind, bind_assoc, moved_load32 resolved]
        refine lockstep_ite (fun _ => lockstep_ret rfl) fun _ => ?_
        refine lockstep_after _ fun flags => ?_
        by_cases live : flags &&& objectFlagFreed = 0
        · simp only [live, if_true, pure_eq, ret_bind, moved_load32 resolved, moved_store32 resolved]
          refine lockstep_after _ fun _ => lockstep_after _ fun _ => lockstep_after _ fun _ => lockstep_after _ fun _ =>
            lockstep_after _ fun _ => lockstep_after _ fun _ => ?_
          exact lockstep_free twin resolved nonnull nonnull'
        · simp only [live, if_false, pure_eq, ret_bind]
          exact lockstep_ret rfl

theorem lockstep_validate (twin : Twin r r') (fuel object : Nat) :
    Lockstep Eq (objectStoreValidate fuel r object) (objectStoreValidate fuel r' object) := by
  unfold objectStoreValidate
  refine lockstep_ite (fun _ => lockstep_ret rfl) fun _ => ?_
  refine lockstep_bind (lockstep_getHeader twin fuel object) ?_
  rintro a b (⟨rfl, rfl⟩ | ⟨p, p', rfl, rfl, header⟩)
  · exact lockstep_ret rfl
  · simp only [moved_load32 header]
    refine lockstep_after _ fun size => lockstep_bind (lockstep_resolve twin fuel object size) ?_
    rintro a b (⟨rfl, rfl⟩ | ⟨q, q', rfl, rfl, resolved⟩)
    · exact lockstep_ret rfl
    · exact lockstep_ret rfl

end Objects

/-- Calls of the allocator and the object store; a pointer is given by its offset in the mapping. -/
inductive HeapCall where
  | alloc (fuel size alignment : Nat)
  | free (pointer : Nat)
  | span (fuel pointer : Nat)
  | objectAlloc (fuel type payloadSize : Nat)
  | objectFree (fuel object : Nat)
  | getHeader (fuel object : Nat)
  | getHeaderMut (fuel object : Nat)
  | getPayload (fuel object : Nat)
  | getPayloadMut (fuel object : Nat)
  | validate (fuel object : Nat)

inductive HeapReply where
  | allocated (pointer : Except OffsetStoreStatus Nat)
  | status (status : OffsetStoreStatus)
  | span (size : Except OffsetStoreStatus Nat)
  | object (object : Except OffsetStoreStatus Nat)
  | resolved (pointer : Option Nat)

namespace HeapCall

def code (region : ShmRegion) : HeapCall → Code HeapReply
  | .alloc fuel size alignment => do return .allocated (← allocatorAlloc fuel region size alignment)
  | .free pointer => do return .status (← allocatorFree region (add64 region.base pointer))
  | .span fuel pointer => do
      return .span (← allocatorGetAllocationSpan fuel region (add64 region.base pointer))
  | .objectAlloc fuel type payloadSize => do return .object (← objectStoreAlloc fuel region type payloadSize)
  | .objectFree fuel object => do return .status (← objectStoreFree fuel region object)
  | .getHeader fuel object => do return .resolved (← objectStoreGetHeader fuel region object)
  | .getHeaderMut fuel object => do return .resolved (← objectStoreGetHeaderMut fuel region object)
  | .getPayload fuel object => do return .resolved (← objectStoreGetPayloadConst fuel region object)
  | .getPayloadMut fuel object => do return .resolved (← objectStoreGetPayload fuel region object)
  | .validate fuel object => do return .status (← objectStoreValidate fuel region object)

/-- Pointers passed in lie inside the mapping. -/
def Inside (size : Nat) : HeapCall → Prop
  | .free pointer => pointer < size
  | .span _ pointer => pointer < size
  | _ => True

end HeapCall

/-- Equal statuses, sizes and handles, and pointers that differ by the difference of the bases. -/
inductive MovedReply (r r' : ShmRegion) : HeapReply → HeapReply → Prop where
  | allocated {a b : Except OffsetStoreStatus Nat} (moved : MovedResult r r' a b) :
      MovedReply r r' (.allocated a) (.allocated b)
  | status (s : OffsetStoreStatus) : MovedReply r r' (.status s) (.status s)
  | span (size : Except OffsetStoreStatus Nat) : MovedReply r r' (.span size) (.span size)
  | object (object : Except OffsetStoreStatus Nat) : MovedReply r r' (.object object) (.object object)
  | resolved {a b : Option Nat} (moved : MovedOption r r' a b) : MovedReply r r' (.resolved a) (.resolved b)

theorem lockstep_code {r r' : ShmRegion} (twin : Twin r r') {c : HeapCall} (inside : c.Inside r.size) :
    Lockstep (MovedReply r r') (c.code r) (c.code r') := by
  have nonnull : ∀ {region : ShmRegion} {off : Nat}, 0 < region.base → region.base + region.size < 2 ^ 64 →
      off < region.size → add64 region.base off ≠ 0 := by
    intro region off positive finish small
    rw [add64_eq (by omega)]
    omega
  have finished : ∀ {p q : Code OffsetStoreStatus}, Lockstep Eq p q →
      Lockstep (MovedReply r r') (p >>= fun s => ret (.status s)) (q >>= fun s => ret (.status s)) :=
    fun same => lockstep_bind same fun _ _ eq => lockstep_ret (eq ▸ .status _)
  have resolved : ∀ {p q : Code (Option Nat)}, Lockstep (MovedOption r r') p q →
      Lockstep (MovedReply r r') (p >>= fun o => ret (.resolved o)) (q >>= fun o => ret (.resolved o)) :=
    fun same => lockstep_bind same fun _ _ moved => lockstep_ret (.resolved moved)
  cases c with
  | alloc fuel size alignment =>
    exact lockstep_bind (lockstep_alloc twin fuel size alignment) fun _ _ moved => lockstep_ret (.allocated moved)
  | free pointer =>
    have small : pointer < r'.size := twin.size ▸ inside
    exact finished (lockstep_free twin (moved_base pointer) (nonnull twin.base twin.finish inside)
      (nonnull twin.base' twin.finish' small))
  | span fuel pointer =>
    have small : pointer < r'.size := twin.size ▸ inside
    exact lockstep_bind (lockstep_span twin (moved_base pointer) (nonnull twin.base twin.finish inside)
      (nonnull twin.base' twin.finish' small) fuel) fun _ _ eq => lockstep_ret (eq ▸ .span _)
  | objectAlloc fuel type payloadSize =>
    exact lockstep_bind (lockstep_objectAlloc twin fuel type payloadSize) fun _ _ eq => lockstep_ret (eq ▸ .object _)
  | objectFree fuel object => exact finished (lockstep_objectFree twin fuel object)
  | getHeader fuel object => exact resolved (lockstep_getHeader twin fuel object)
  | getHeaderMut fuel object => exact resolved (lockstep_getHeader twin fuel object)
  | getPayload fuel object => exact resolved (lockstep_getPayload twin fuel object)
  | getPayloadMut fuel object => exact resolved (lockstep_getPayload twin fuel object)
  | validate fuel object => exact finished (lockstep_validate twin fuel object)

/-- Calls one after the other, the call of process p through its mapping. -/
def runHeapCalls {S : Type} (handle : Sys → S → Int × S) (regions : Nat → ShmRegion) :
    List (Nat × HeapCall) → Mem → S → Option (List HeapReply × Mem × S)
  | [], m, s => some ([], m, s)
  | (p, c) :: rest, m, s =>
      match run handle (c.code (regions p)) m s with
      | none => none
      | some (reply, m', s') =>
          (runHeapCalls handle regions rest m' s').map fun r => (reply :: r.1, r.2)

inductive MovedReplies (regions regions' : Nat → ShmRegion) :
    List (Nat × HeapCall) → List HeapReply → List HeapReply → Prop where
  | nil : MovedReplies regions regions' [] [] []
  | cons {p : Nat} {c : HeapCall} {a b : HeapReply} {calls : List (Nat × HeapCall)} {replies replies' : List HeapReply}
      (first : MovedReply (regions p) (regions' p) a b) (rest : MovedReplies regions regions' calls replies replies') :
      MovedReplies regions regions' ((p, c) :: calls) (a :: replies) (b :: replies')

/-- The same calls through two families of mappings: the same memory and environment after
    them, and replies that differ by the place of the mappings only. -/
theorem runs_position_independent {S : Type} {regions regions' : Nat → ShmRegion}
    (twins : ∀ p, Twin (regions p) (regions' p)) (handle : Sys → S → Int × S) (calls : List (Nat × HeapCall))
    (inside : ∀ x ∈ calls, x.2.Inside (regions x.1).size) (m : Mem) (s : S) :
    SameEnd (MovedReplies regions regions' calls) (runHeapCalls handle regions calls m s)
      (runHeapCalls handle regions' calls m s) := by
  induction calls generalizing m s with
  | nil => exact .ends m s .nil
  | cons call rest ih =>
    obtain ⟨p, c⟩ := call
    have step := lockstep_run (lockstep_code (twins p) (inside (p, c) (by simp))) handle m s
    unfold runHeapCalls
    generalize run handle (c.code (regions p)) m s = left at step
    generalize run handle (c.code (regions' p)) m s = right at step
    cases step with
    | spins => exact .spins
    | ends m' s' moved =>
      have later := ih (fun x mem => inside x (List.mem_cons_of_mem _ mem)) m' s'
      simp only
      generalize runHeapCalls handle regions rest m' s' = left at later
      generalize runHeapCalls handle regions' rest m' s' = right at later
      cases later with
      | spins => exact .spins
      | ends m'' s'' replies => exact .ends m'' s'' (.cons moved replies)

/-- The small region at another address. -/
def movedRegion : ShmRegion := ⟨7, 1048576, 4096, false⟩

/-- An allocation and a release, at two addresses. -/
theorem runs_position_independent_small :
    Twin smallRegion movedRegion ∧
      SameEnd (MovedReplies (fun _ => smallRegion) (fun _ => movedRegion) [(0, .alloc 8 100 64), (0, .free 2784)])
        (runHeapCalls (fun _ (s : Unit) => (0, s)) (fun _ => smallRegion) [(0, .alloc 8 100 64), (0, .free 2784)]
          initialised ())
        (runHeapCalls (fun _ (s : Unit) => (0, s)) (fun _ => movedRegion) [(0, .alloc 8 100 64), (0, .free 2784)]
          initialised ()) := by
  have twin : Twin smallRegion movedRegion := ⟨by decide, by decide, by decide, by decide, rfl⟩
  have inside : ∀ x ∈ [(0, HeapCall.alloc 8 100 64), (0, .free 2784)], x.2.Inside smallRegion.size := by
    simp [HeapCall.Inside, smallRegion]
  exact ⟨twin, runs_position_independent (fun _ => twin) _ _ inside initialised ()⟩

end OffsetStore
