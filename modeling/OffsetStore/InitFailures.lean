import OffsetStore.HeapInit
import OffsetStore.SteadyCalls

/- Failed calls of allocator_init. The words that make the header valid are stored before
   the shard mutexes are initialised, and no exit takes them back. -/
namespace OffsetStore
open ByteMemory Program Prog Words

/-- The header check of the allocator passes. -/
def HeaderValid (n : Nat) (m : Mem) : Prop := ∃ base, HeaderRepr n base m

/-- A shard mutex cannot be initialised, or the region cannot be unlocked, after the header has been written. -/
structure InitSlips (n : Nat) (answer : Sys → Int) (m : Mem) : Prop where
  lock : answer (.mutexLock RegionHeader.allocatorMutex) = 0
  invalid : ¬HeaderValid n m
  attr : answer .mutexattrInit = 0 ∧ answer .mutexattrSetpshared = 0
  failed : (∃ s, s < 4 ∧ answer (.mutexInit (shardMutex s)) ≠ 0) ∨ answer (.mutexUnlock RegionHeader.allocatorMutex) ≠ 0

/-- What allocator_init comes to when the system calls answer as given. -/
inductive InitOutcome (n : Nat) (answer : Sys → Int) (m : Mem) : OffsetStoreStatus → Mem → Prop where
  | refused (lock : answer (.mutexLock RegionHeader.allocatorMutex) ≠ 0) : InitOutcome n answer m .systemError m
  | small (lock : answer (.mutexLock RegionHeader.allocatorMutex) = 0) (tight : n < heapBase + 224) :
      InitOutcome n answer m .outOfMemory m
  | found (room : heapBase + 224 ≤ n) (lock : answer (.mutexLock RegionHeader.allocatorMutex) = 0) (valid : HeaderValid n m) :
      InitOutcome n answer m .alreadyExists m
  | unprepared (room : heapBase + 224 ≤ n) (lock : answer (.mutexLock RegionHeader.allocatorMutex) = 0) (invalid : ¬HeaderValid n m)
      (attr : ¬(answer .mutexattrInit = 0 ∧ answer .mutexattrSetpshared = 0)) : InitOutcome n answer m .systemError m
  | halfway {m' : Mem} (slips : InitSlips n answer m) (header : HeaderRepr n heapBase m') :
      InitOutcome n answer m .systemError m'
  | done {m' : Mem} (room : heapBase + 224 ≤ n) (lock : answer (.mutexLock RegionHeader.allocatorMutex) = 0)
      (invalid : ¬HeaderValid n m) (clean : ¬InitSlips n answer m) (built : Initialised n m m') : InitOutcome n answer m .ok m'

section Returns
variable {region : ShmRegion} {m : Mem} {n : Nat} {answer : Sys → Int}

theorem returns_allocatorLock (map : region.Mapped) : Returns (fun c r => r = answer c)
    (fun status m' => m' = m ∧ (status = .ok ↔ answer (.mutexLock RegionHeader.allocatorMutex) = 0))
    (shmRegionAllocatorLock region) m := by
  have base := map.base_pos
  unfold shmRegionAllocatorLock withLock shmRegionHeaderMut shmRegionHeader
  rw [if_neg (by omega)]
  unfold shmRegionLockOne
  simp only [request_bind]
  refine returns_call ?_
  rintro r rfl
  split
  · rename_i dead
    have refused : ¬answer (.mutexLock RegionHeader.allocatorMutex) = 0 := by
      rw [dead]
      decide
    refine returns_call fun consistent _ => ?_
    split
    · exact returns_ret ⟨rfl, iff_of_false (by simp) refused⟩
    · refine returns_call fun unlocked _ => ?_
      split
      · exact returns_ret ⟨rfl, iff_of_false (by simp) refused⟩
      · exact returns_ret ⟨rfl, iff_of_false (by simp) refused⟩
  · split
    · rename_i refused
      exact returns_ret ⟨rfl, iff_of_false (by simp) refused⟩
    · rename_i granted
      exact returns_ret ⟨rfl, iff_of_true rfl (not_not.mp granted)⟩

theorem returns_allocatorUnlock (map : region.Mapped) : Returns (fun c r => r = answer c)
    (fun status m' => m' = m ∧ (status = .ok ↔ answer (.mutexUnlock RegionHeader.allocatorMutex) = 0))
    (shmRegionAllocatorUnlock region) m := by
  have base := map.base_pos
  unfold shmRegionAllocatorUnlock withLock shmRegionHeaderMut shmRegionHeader
  rw [if_neg (by omega)]
  unfold shmRegionUnlockOne lockRequest
  simp only [request_bind]
  refine returns_call ?_
  rintro r rfl
  split
  · rename_i refused
    exact returns_ret ⟨rfl, iff_of_false (by simp) refused⟩
  · rename_i granted
    exact returns_ret ⟨rfl, iff_of_true rfl (not_not.mp granted)⟩

theorem returns_initExit (map : region.Mapped) {post : OffsetStoreStatus → Mem → Prop} {status : OffsetStoreStatus}
    (holds : post status m) : Returns (fun c r => r = answer c) post (initExit region status) m := by
  refine returns_bind (returns_allocatorUnlock map) ?_
  rintro _ m' ⟨rfl, _⟩
  exact returns_ret holds

theorem returns_destroy (shard left : Nat) :
    Returns (fun c r => r = answer c) (fun _ m' => m' = m) (destroyShardMutexes shard left) m := by
  induction left with
  | zero => exact returns_ret rfl
  | succ left ih => exact returns_call fun _ _ => ih

theorem returns_initShardMutexes {left : Nat} (attempts : left ≤ shardCount) : Returns (fun c r => r = answer c)
    (fun ok m' => m' = m ∧
      (ok = true ↔ ∀ s, shardCount - left ≤ s → s < shardCount → answer (.mutexInit (shardMutex s)) = 0))
    (initShardMutexes left) m := by
  induction left with
  | zero => exact returns_ret ⟨rfl, iff_of_true rfl fun s low high => by omega⟩
  | succ left ih =>
    rw [initShardMutexes]
    simp only [request_bind]
    refine returns_call ?_
    rintro r rfl
    split
    · rename_i failed
      refine returns_bind (returns_destroy _ _) ?_
      rintro _ m' rfl
      exact returns_ret ⟨rfl, iff_of_false (by simp) fun all => failed (all _ (Nat.le_refl _) (by omega))⟩
    · rename_i made
      refine returns_weaken (ih (by omega)) ?_
      rintro ok m' ⟨rfl, rest⟩
      refine ⟨rfl, rest.trans ⟨fun all s low high => ?_, fun all s low high => all s (by omega) high⟩⟩
      by_cases here : s = shardCount - (left + 1)
      · rw [here]
        exact not_not.mp made
      · exact all s (by omega) high

theorem returns_initLocked (map : region.Mapped) (total : region.size = n) (room : heapBase + 224 ≤ n)
    (lock : answer (.mutexLock RegionHeader.allocatorMutex) = 0) :
    Returns (fun c r => r = answer c) (InitOutcome n answer m) (initLocked region heapBase (n - heapBase)) m := by
  have large : 2728 ≤ region.size := by
    unfold heapBase at room
    omega
  unfold initLocked
  simp only [allocatorHeaderMut, allocatorHeader_eq map large]
  obtain ⟨ok, value, checked⟩ := burst_header_check (m := m) map total
  refine returns_bind_of_ret value ?_
  split
  · rename_i valid
    exact returns_initExit map (.found room lock (checked.mp valid))
  rename_i invalid
  replace invalid : ¬HeaderValid n m := fun valid => invalid (checked.mpr valid)
  simp only [request_bind, perform_bind]
  refine returns_call ?_
  rintro attr rfl
  split
  · rename_i failed
    exact returns_initExit map (.unprepared room lock invalid fun both => failed both.1)
  rename_i attr
  refine returns_call ?_
  rintro pshared rfl
  split
  · rename_i failed
    exact returns_call fun _ _ => returns_initExit map (.unprepared room lock invalid fun both => failed both.2)
  rename_i pshared
  have prepared := And.intro (not_not.mp attr) (not_not.mp pshared)
  refine returns_call fun _ _ => returns_bind (returns_initFields map total room m) ?_
  rintro _ m₁ ⟨header, below, _⟩
  refine returns_bind (returns_initShardMutexes (Nat.le_refl _)) ?_
  rintro mutexes _ ⟨rfl, made⟩
  refine returns_call fun _ _ => ?_
  split
  · rename_i failed
    refine returns_initExit map (.halfway ⟨lock, invalid, prepared, Or.inl ?_⟩ header)
    by_contra all
    refine absurd (made.mpr fun s _ high => ?_) (by simpa using failed)
    by_contra bad
    exact all ⟨s, high, bad⟩
  rename_i success
  have all := made.mp (by simpa using success)
  refine returns_bind (returns_initShardBlocks map total room (Nat.le_refl 4) header
    (fun s before => by simp only [OffsetStore.shardCount] at before; omega)) ?_
  rintro blocks m₂ ⟨rfl, ready, _⟩
  refine returns_bind (returns_allocatorUnlock map) ?_
  rintro unlocked _ ⟨rfl, released⟩
  split
  · rename_i failed
    exact returns_ret (.halfway ⟨lock, invalid, prepared, Or.inr (mt released.mpr failed)⟩ ready.inv.header)
  · rename_i done
    refine returns_ret (.done room lock invalid (fun slips => ?_) ⟨ready.inv, below.trans ready.below⟩)
    rcases slips.failed with ⟨s, shard, bad⟩ | bad
    · exact bad (all s (by omega) shard)
    · exact bad (released.mp (not_not.mp done))

variable (answer m) in
theorem returns_allocatorInit (map : region.Mapped) (total : region.size = n) :
    Returns (fun c r => r = answer c) (InitOutcome n answer m) (allocatorInit region) m := by
  unfold allocatorInit
  refine returns_bind (returns_allocatorLock map) ?_
  rintro locked _ ⟨rfl, granted⟩
  split
  · rename_i refused
    exact returns_ret (.refused (mt granted.mpr refused))
  rename_i ok
  have lock := granted.mp (not_not.mp ok)
  have least : allocatorMinBlockSize * OffsetStore.shardCount = 224 := rfl
  by_cases large : heapBase < n
  · rw [region_offsets total large]
    simp only
    split
    · exact returns_initExit map (.small lock (by omega))
    · exact returns_initLocked map total (by omega) lock
  · rw [region_offsets_none total large]
    exact returns_initExit map (.small lock (by omega))

end Returns

/-- After a failed allocator_init the header is not valid, allocations are refused, and a second call succeeds when
    its system calls do. -/
structure Retryable (region : ShmRegion) (n : Nat) (m : Mem) : Prop where
  invalid : ¬HeaderValid n m
  refused : ∀ fuel size alignment, 0 < size → size ≤ 2 ^ 64 - 16 →
    exec (allocatorAlloc fuel region size alignment) m = some (.error .invalidState, m)
  again : ∃ m', exec (allocatorInit region) m = some (.ok, m')

section Retrying
variable {region : ShmRegion} {m : Mem} {n : Nat}

theorem exec_alloc_unready (map : region.Mapped) (total : region.size = n) (invalid : ¬HeaderValid n m)
    {size : Nat} (positive : 0 < size) (rounds : size ≤ 2 ^ 64 - 16) (fuel alignment : Nat) :
    exec (allocatorAlloc fuel region size alignment) m = some (.error .invalidState, m) := by
  unfold allocatorAlloc
  rw [if_neg (by omega), show alignofMax = 16 from rfl, align_up_sixteen (by omega)]
  by_cases room : 2728 ≤ region.size
  · simp only [allocatorHeaderMut, allocatorHeader_eq map room]
    obtain ⟨ok, value, checked⟩ := burst_header_check (m := m) map total
    have fails : ok = false := by
      rw [← Bool.not_eq_true]
      exact mt checked.mp invalid
    rw [exec_burst, burst_bind_of_ret value, fails]
    rfl
  · have none : allocatorHeader region = none := if_pos (Or.inr (by
      simp only [allocatorMetadataOffset, RegionHeader.sizeof, AllocatorHeader.sizeof]
      omega))
    simp only [allocatorHeaderMut, none]
    rfl

/-- When every call succeeds, a region with room and without a valid header is initialised. -/
theorem exec_init_ok_iff (map : region.Mapped) (total : region.size = n) :
    (∃ m', exec (allocatorInit region) m = some (.ok, m')) ↔ heapBase + 224 ≤ n ∧ ¬HeaderValid n m := by
  obtain ⟨status, m', result, outcome⟩ := returns_exec (returns_allocatorInit m (fun _ => 0) map total)
    (fun _ => rfl)
  rw [result]
  cases outcome with
  | refused lock => exact absurd rfl lock
  | small _ tight => exact iff_of_false (by simp) fun both => absurd both.1 (by omega)
  | found _ _ valid => exact iff_of_false (by simp) fun both => both.2 valid
  | unprepared _ _ _ attr => exact absurd ⟨rfl, rfl⟩ attr
  | halfway slips _ =>
    rcases slips.failed with ⟨_, _, bad⟩ | bad
    · exact absurd rfl bad
    · exact absurd rfl bad
  | done room _ invalid _ _ => exact iff_of_true ⟨m', rfl⟩ ⟨room, invalid⟩

theorem retryable_iff (map : region.Mapped) (total : region.size = n) :
    Retryable region n m ↔ heapBase + 224 ≤ n ∧ ¬HeaderValid n m := by
  constructor
  · intro retry
    exact (exec_init_ok_iff map total).mp retry.again
  · rintro ⟨room, invalid⟩
    exact ⟨invalid, fun fuel size alignment positive rounds => exec_alloc_unready map total invalid positive rounds fuel
      alignment, (exec_init_ok_iff map total).mpr ⟨room, invalid⟩⟩

/-- Whatever the system calls answer, a failed allocator_init can be retried exactly when the region has room for four
    blocks, was not initialised before if its lock was refused, and nothing fails after the header has been written. -/
theorem failed_init_retryable_iff (map : region.Mapped) (total : region.size = n) (answer : Sys → Int) (m : Mem) :
    ∃ status m', run (fun c (s : Unit) => (answer c, s)) (allocatorInit region) m () = some (status, m', ()) ∧
      ((status ≠ .ok → status ≠ .alreadyExists → Retryable region n m') ↔ heapBase + 224 ≤ n ∧
        (answer (.mutexLock RegionHeader.allocatorMutex) ≠ 0 → ¬HeaderValid n m) ∧ ¬InitSlips n answer m) := by
  have possible : ∀ c (s : Unit), (answer c, s).1 = answer c := fun _ _ => rfl
  obtain ⟨status, m', _, result, outcome⟩ := returns_run (s := ()) (returns_allocatorInit m answer map total) possible
  refine ⟨status, m', result, ?_⟩
  cases outcome with
  | refused lock =>
    have idle : ¬InitSlips n answer m := fun slips => lock slips.lock
    simp only [ne_eq, reduceCtorEq, not_false_eq_true, forall_const, retryable_iff map total, lock, idle, and_true]
  | small lock tight =>
    refine iff_of_false (fun promise => ?_) fun all => absurd all.1 (by omega)
    have room := ((retryable_iff map total).mp (promise (by simp) (by simp))).1
    omega
  | found room lock valid =>
    exact iff_of_true (fun _ other => absurd rfl other) ⟨room, fun refused => absurd lock refused, fun slips => slips.invalid valid⟩
  | unprepared room lock invalid attr =>
    refine iff_of_true (fun _ _ => (retryable_iff map total).mpr ⟨room, invalid⟩) ⟨room, fun _ => invalid, fun slips => ?_⟩
    exact attr slips.attr
  | halfway slips header =>
    refine iff_of_false (fun promise => ?_) fun all => all.2.2 slips
    exact (promise (by simp) (by simp)).invalid ⟨_, header⟩
  | done room lock invalid clean _ =>
    exact iff_of_true (fun other => absurd rfl other) ⟨room, fun _ => invalid, clean⟩

/-- The attributes of the mutexes cannot be set in a region of 4096 bytes that nobody has written to. -/
theorem failed_init_retryable_small : ∃ m',
    run (fun c (s : Unit) => (if c = .mutexattrSetpshared then 22 else 0, s)) (allocatorInit smallRegion) (fun _ => 0) () =
      some (.systemError, m', ()) ∧ Retryable smallRegion 4096 m' := by
  have failed : (run (fun c (s : Unit) => ((if c = .mutexattrSetpshared then 22 else 0 : Int), s))
      (allocatorInit smallRegion) (fun _ => 0) ()).map Prod.fst = some .systemError := by decide +kernel
  obtain ⟨⟨status, m', ⟨⟩⟩, result, same⟩ := Option.map_eq_some_iff.mp failed
  obtain rfl : status = .systemError := same
  obtain ⟨status, m'', result', retryable⟩ := failed_init_retryable_iff smallRegion_mapped rfl
    (fun c => if c = .mutexattrSetpshared then 22 else 0) fun _ => 0
  obtain ⟨rfl, rfl, _⟩ : OffsetStoreStatus.systemError = status ∧ m' = m'' ∧ True := by
    simpa using result.symm.trans result'
  refine ⟨m', result, retryable.mpr ⟨by decide, fun other => absurd rfl other, fun slips => ?_⟩ (by decide) (by decide)⟩
  exact absurd slips.attr.2 (by decide)

/-- Every call succeeds but the initialisation of the mutex of shard 2. -/
def thirdMutexFails : Sys → Int
  | .mutexInit mutex => if mutex = shardMutex 2 then 12 else 0
  | _ => 0

/-- The header of the region is valid then, and the region counts as initialised. -/
theorem half_initialised : ∃ m', run (fun c (s : Unit) => (thirdMutexFails c, s)) (allocatorInit smallRegion)
      (fun _ => 0) () = some (.systemError, m', ()) ∧ HeaderValid 4096 m' ∧
    ∃ m'', exec (allocatorInit smallRegion) m' = some (.alreadyExists, m'') := by
  have steps : (run (fun c (s : Unit) => (thirdMutexFails c, s)) (allocatorInit smallRegion) (fun _ => 0) ()).bind
      (fun r => (exec (allocatorInit smallRegion) r.2.1).map fun q => [r.1, q.1]) = some [.systemError, .alreadyExists] := by
    decide +kernel
  obtain ⟨⟨status, m', _⟩, first, shown⟩ := Option.bind_eq_some_iff.mp steps
  obtain ⟨⟨again, m''⟩, second, same⟩ := Option.map_eq_some_iff.mp shown
  simp only [List.cons.injEq, and_true] at same
  obtain ⟨rfl, rfl⟩ := same
  refine ⟨m', first, ?_, m'', second⟩
  obtain ⟨status, m₁, result, outcome⟩ := returns_exec
    (returns_allocatorInit m' (fun _ => 0) smallRegion_mapped rfl) (fun _ => rfl)
  rw [second] at result
  obtain ⟨rfl, _⟩ := Prod.mk.inj (Option.some.inj result)
  cases outcome with
  | found _ _ valid => exact valid

end Retrying

end OffsetStore
