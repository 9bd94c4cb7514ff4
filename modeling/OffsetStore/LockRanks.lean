import OffsetStore.AllocPaths
import OffsetStore.DynArray
import OffsetStore.Store
import OffsetStore.Objects
import OffsetStore.EarlyAttach
import OffsetStore.Lib.LockOrder

/- Which locks the library nests, and in which order. A container's mutex comes first, then
   a mutex of the allocator, then the lock of the roots, then that of the index: the
   canonical order of the documentation, below the mutexes of the containers, which hold
   theirs while they allocate and free. -/
namespace OffsetStore
open ByteMemory Program Prog Words LockOrder

/-- A lock that is not free refuses an attempt. -/
def lockAct : Sys → Act Nat
  | .mutexLock mutex => .acquire mutex false
  | .mutexTrylock mutex => .attempt mutex fun r => r = ebusy
  | .mutexUnlock mutex => .release mutex
  | .rwlockRdlock rwlock => .acquire rwlock true
  | .rwlockWrlock rwlock => .acquire rwlock false
  | .rwlockTrywrlock rwlock => .attempt rwlock fun r => r = ebusy ∨ r = edeadlk
  | .rwlockUnlock rwlock => .release rwlock
  | _ => .plain

def containerRank : Nat := 0
def allocatorRank : Nat := 1
def shardRank : Nat := 2
def rootsRank : Nat := 3
def indexRank : Nat := 4

def lockRank (lock : Nat) : Nat :=
  if lock = RegionHeader.allocatorMutex then allocatorRank
  else if lock = RegionHeader.rootsRwlock then rootsRank
  else if lock = RegionHeader.indexRwlock then indexRank
  else if lock ∈ (List.range shardCount).map shardMutex then shardRank
  else containerRank

theorem lockRank_le (lock : Nat) : lockRank lock ≤ 4 := by
  unfold lockRank
  split_ifs <;> decide

theorem rank_shard {s : Nat} (shard : s < shardCount) : lockRank (shardMutex s) = shardRank := by
  have known : shardMutex s ∈ (List.range shardCount).map shardMutex := List.mem_map_of_mem (List.mem_range.mpr shard)
  unfold lockRank
  split_ifs with mutex roots index
  all_goals simp only [shardMutex, allocatorMetadataOffset, RegionHeader.sizeof, AllocatorHeader.shardMutexes, sizeofMutex,
    RegionHeader.allocatorMutex, RegionHeader.rootsRwlock, RegionHeader.indexRwlock] at *
  all_goals omega

/-- Behind the metadata there are mutexes of containers only. -/
theorem rank_container {lock : Nat} (beyond : allocatorMetadataOffset + AllocatorHeader.sizeof ≤ lock) :
    lockRank lock = containerRank := by
  have fresh : lock ∉ (List.range shardCount).map shardMutex := by
    rintro known
    obtain ⟨s, shard, rfl⟩ := List.mem_map.mp known
    simp [shardMutex] at beyond shard
    omega
  simp only [allocatorMetadataOffset, RegionHeader.sizeof, AllocatorHeader.sizeof] at beyond
  unfold lockRank
  split_ifs with mutex roots index
  · simp at mutex
    omega
  · simp at roots
    omega
  · simp at index
    omega
  · rfl

/-- The program waits only for locks of this rank or a higher one, and ends with the locks it
    began with. -/
abbrev Ranked (k : Nat) {α : Type} (p : Code α) : Prop := Balanced lockAct lockRank k p

/-- The program begins with this lock, gives it back on every way, and then waits for locks of this rank
    or a higher one. -/
abbrev Section (k lock : Nat) {α : Type} (p : Code α) : Prop := Closes lockAct lockRank k lock p

section Allocator
variable {region : ShmRegion} {k : Nat}

theorem section_note {α : Type} {s lock : Nat} {r : Int} {f : Unit → Code α} (rest : Section k lock (f ())) :
    Section k lock (noteShardLock s r >>= f) := by
  refine closes_bind ?_ fun _ => rest
  have last : Balanced lockAct lockRank (lockRank lock + 1)
      (if r = eownerdead then Prog.perform (Sys.mutexConsistent (shardMutex s)) else pure () : Code Unit) :=
    balanced_ite (fun _ => balanced_plain rfl fun _ => balanced_ret) fun _ => balanced_ret
  unfold noteShardLock
  simp only [request_bind, perform_bind]
  refine balanced_plain rfl fun held => ?_
  split
  · exact balanced_plain rfl fun _ => balanced_plain rfl fun _ => last
  · exact balanced_plain rfl fun _ => last

theorem section_exit {α : Type} {s : Nat} (result : α) : Section shardRank (shardMutex s) (allocExit s result) := by
  unfold allocExit
  simp only [perform_bind]
  exact closes_release rfl (balanced_plain rfl fun _ => balanced_ret)

/-- Every way out of the walk along a free list leaves the section. -/
theorem section_walk {s : Nat} (header size alignment fuel link x : Nat) :
    Section shardRank (shardMutex s) (allocWalk region header s size alignment fuel link x) :=
  walk_paths (fun _ _ _ rest => closes_read rest) (fun _ _ _ _ rest => closes_write rest) closes_spin
    (fun found _ => section_exit found) header size fuel link x

theorem ranked_shards (fuel header shard size alignment left : Nat) :
    Ranked shardRank (allocShards fuel region header shard size alignment left) := by
  induction left with
  | zero => exact balanced_fetchAdd fun _ => balanced_ret
  | succ left ih =>
    have small : (shard + (shardCount - (left + 1))) % shardCount < shardCount := Nat.mod_lt _ (by decide)
    unfold allocShards ShmRegion.load64
    generalize (shard + (shardCount - (left + 1))) % shardCount = s at small
    simp only [request_bind, loadWord_bind]
    have high := rank_shard small
    refine balanced_section rfl high.ge (section_note ?_)
    rw [if_neg (by decide)]
    refine closes_loads (loads_header header) fun valid => closes_ite (fun _ => section_exit _) fun _ => ?_
    refine closes_read fun x => closes_then (section_walk _ _ _ _ _ _) fun found => ?_
    split
    · exact balanced_ret
    · exact ih

theorem ranked_alloc (fuel size alignment : Nat) : Ranked shardRank (allocatorAlloc fuel region size alignment) := by
  unfold allocatorAlloc
  refine balanced_ite (fun _ => balanced_ret) fun _ => ?_
  dsimp only
  split
  · exact balanced_ret
  · split
    · exact balanced_ret
    · refine balanced_bind (balanced_loads (loads_header _)) fun valid => ?_
      exact balanced_ite (fun _ => balanced_ret) fun _ => ranked_shards _ _ _ _ _ _

theorem ranked_freeLocked {shard : Nat} (small : shard < shardCount) (header ptr blockOffset : Nat) :
    Ranked shardRank (freeLocked region header ptr blockOffset shard) := by
  have high := rank_shard small
  have unlock : ∀ status : OffsetStoreStatus,
      Section shardRank (shardMutex shard) (Prog.perform (.mutexUnlock (shardMutex shard)) >>= fun _ => ret status) :=
    fun status => closes_release rfl balanced_ret
  unfold freeLocked ShmRegion.load64 ShmRegion.load32 ShmRegion.store64 ShmRegion.store32
  simp only [request_bind]
  refine balanced_section rfl high.ge (section_note ?_)
  rw [if_neg (by decide)]
  refine closes_loads (loads_header header) fun valid => closes_ite (fun _ => unlock _) fun _ => ?_
  split
  · exact unlock _
  · simp only [loadWord_bind]
    refine closes_read fun payloadOffset => closes_ite (fun _ => unlock _) fun _ => ?_
    simp only [storeWord_bind]
    iterate 2 refine closes_write ?_
    refine closes_read fun head => ?_
    iterate 2 refine closes_write ?_
    exact closes_release rfl (balanced_plain rfl fun _ => balanced_ret)

theorem ranked_free (ptr : Nat) : Ranked shardRank (allocatorFree region ptr) := by
  unfold allocatorFree ShmRegion.load64 ShmRegion.load32
  refine balanced_ite (fun _ => balanced_ret) fun _ => ?_
  split
  · exact balanced_ret
  · refine balanced_bind (balanced_loads (loads_header _)) fun valid => ?_
    refine balanced_ite (fun _ => balanced_ret) fun _ => ?_
    simp only [loadWord_bind]
    refine balanced_read fun blockOffset => ?_
    split
    · exact balanced_ret
    · refine balanced_read fun flags => balanced_ite (fun _ => balanced_ret) fun _ => ?_
      refine balanced_read fun shard => balanced_ite (fun _ => balanced_ret) fun small => ?_
      exact ranked_freeLocked (not_le.mp small) _ _ _

theorem ranked_destroyMutexes (shard left : Nat) : Ranked k (destroyShardMutexes shard left) := by
  induction left with
  | zero => exact balanced_ret
  | succ left ih => exact balanced_plain rfl fun _ => ih

theorem ranked_initMutexes (left : Nat) : Ranked k (initShardMutexes left) := by
  induction left with
  | zero => exact balanced_ret
  | succ left ih =>
    unfold initShardMutexes
    simp only [request_bind]
    refine balanced_plain rfl fun init => balanced_ite (fun _ => ?_) fun _ => ih
    exact balanced_bind (ranked_destroyMutexes _ _) fun _ => balanced_ret

theorem ranked_initBlocks (header heapOffset heapSize left : Nat) :
    Ranked k (initShardBlocks region header heapOffset heapSize left) := by
  induction left with
  | zero => exact balanced_ret
  | succ left ih =>
    unfold initShardBlocks ShmRegion.store64 ShmRegion.store32
    simp only [storeWord_bind]
    refine balanced_write ?_
    split
    · exact balanced_bind (ranked_destroyMutexes _ _) fun _ => balanced_ret
    · iterate 5 refine balanced_write ?_
      exact ih

theorem ranked_writeHeader (header heapOffset heapSize : Nat) :
    Ranked k (writeAllocatorHeader region header heapOffset heapSize) := by
  unfold writeAllocatorHeader ShmRegion.store64 ShmRegion.store32
  simp only [storeWord_bind]
  iterate 6 refine balanced_write ?_
  exact balanced_ret

end Allocator

section Region
variable {region : ShmRegion} {k lock : Nat} {α : Type}

/-- Taking one of the locks of the region header. -/
theorem ranked_lock {c : Sys} {shared : Bool} {f : OffsetStoreStatus → Code α}
    (kind : lockAct c = .acquire lock shared) (high : k ≤ lockRank lock)
    (refused : ∀ status, status ≠ .ok → Ranked k (f status)) (inside : region.base ≠ 0 → Section k lock (f .ok)) :
    Ranked k (withLock region (lockRequest c) >>= f) := by
  unfold withLock shmRegionHeaderMut shmRegionHeader
  by_cases mapped : region.base = 0
  · simp only [mapped, if_true]
    exact refused _ (by decide)
  · simp only [mapped, if_false]
    unfold lockRequest
    simp only [request_bind, call_bind]
    refine balanced_section kind high ?_
    simpa using inside mapped

theorem ranked_allocatorLock {f : OffsetStoreStatus → Code α} (low : k ≤ allocatorRank)
    (refused : ∀ status, status ≠ .ok → Ranked k (f status))
    (inside : region.base ≠ 0 → Section k RegionHeader.allocatorMutex (f .ok)) :
    Ranked k (shmRegionAllocatorLock region >>= f) := by
  unfold shmRegionAllocatorLock withLock shmRegionHeaderMut shmRegionHeader
  by_cases mapped : region.base = 0
  · simp only [mapped, if_true]
    exact refused _ (by decide)
  · simp only [mapped, if_false]
    unfold shmRegionLockOne
    simp only [request_bind, call_bind]
    refine balanced_section rfl low ?_
    simpa using inside mapped

/-- Giving it back. -/
theorem section_unlock {c : Sys} {f : OffsetStoreStatus → Code α} (mapped : region.base ≠ 0)
    (kind : lockAct c = .release lock) (rest : Ranked k (f .ok)) :
    Section k lock (withLock region (lockRequest c) >>= f) := by
  unfold withLock shmRegionHeaderMut shmRegionHeader lockRequest
  simp only [mapped, if_false, request_bind, call_bind]
  refine closes_release kind ?_
  simpa using rest

theorem section_initExit (mapped : region.base ≠ 0) (status : OffsetStoreStatus) :
    Section k RegionHeader.allocatorMutex (initExit region status) :=
  section_unlock (c := .mutexUnlock RegionHeader.allocatorMutex) mapped rfl balanced_ret

theorem section_initLocked (mapped : region.base ≠ 0) (heapOffset heapSize : Nat) :
    Section k RegionHeader.allocatorMutex (initLocked region heapOffset heapSize) := by
  have done : ∀ status, Section k RegionHeader.allocatorMutex (initExit region status) := section_initExit mapped
  unfold initLocked
  split
  · exact done _
  · refine closes_loads (loads_header _) fun valid => closes_ite (fun _ => done _) fun _ => ?_
    simp only [request_bind, perform_bind]
    refine closes_plain rfl fun attr => closes_ite (fun _ => done _) fun _ => ?_
    refine closes_plain rfl fun pshared => closes_ite (fun _ => closes_plain rfl fun _ => done _) fun _ => ?_
    refine closes_plain rfl fun _ => ?_
    refine closes_bind (ranked_writeHeader _ _ _) fun _ => ?_
    refine closes_bind (ranked_initMutexes _) fun mutexes => closes_plain rfl fun _ => ?_
    refine closes_ite (fun _ => done _) fun _ => closes_bind (ranked_initBlocks _ _ _ _) fun blocks => ?_
    refine closes_ite (fun _ => done _) fun _ => ?_
    refine section_unlock (c := .mutexUnlock RegionHeader.allocatorMutex) mapped rfl ?_
    exact balanced_ite (fun _ => balanced_ret) fun _ => balanced_ret

theorem ranked_init : Ranked allocatorRank (allocatorInit region) := by
  unfold allocatorInit
  refine ranked_allocatorLock le_rfl (fun status refused => ?_) fun mapped => ?_
  · rw [if_pos refused]
    exact balanced_ret
  · rw [if_neg (by decide)]
    split
    · exact section_initExit mapped _
    · exact closes_ite (fun _ => section_initExit mapped _) fun _ => section_initLocked mapped _ _

/- The tables: what a section does to them, it does without locks. -/
theorem loads_entryName (entry index : Nat) (name : List UInt8) : Loads (entryNameEquals region entry index name) := by
  induction name generalizing index with
  | nil => exact loads_read fun _ => loads_ret
  | cons c cs ih =>
    unfold entryNameEquals ShmRegion.load8
    simp only [loadWord_bind]
    exact loads_read fun byte => loads_ite loads_ret (ih _)

theorem loads_findEntry (table : EntryTable) (header : Nat) (name : CString) (left : Nat) :
    Loads (findEntry table region header name left) := by
  induction left with
  | zero => exact loads_ret
  | succ left ih =>
    unfold findEntry ShmRegion.load8
    simp only [loadWord_bind]
    refine loads_read fun inUse => loads_ite ?_ ih
    exact loads_bind (loads_entryName _ _ _) fun found => loads_ite loads_ret ih

theorem loads_findFree (table : EntryTable) (header left : Nat) : Loads (findFreeEntry table region header left) := by
  induction left with
  | zero => exact loads_ret
  | succ left ih =>
    unfold findFreeEntry ShmRegion.load8
    simp only [loadWord_bind]
    exact loads_read fun inUse => loads_ite loads_ret ih

theorem ranked_copyIn (ptr field : Nat) (bytes : List UInt8) : Ranked k (region.copyIn ptr field bytes) :=
  balanced_writeBytes

theorem ranked_clearText (entry : Nat) : Ranked k (clearEntryText region entry) :=
  balanced_bind (ranked_copyIn _ _ _) fun _ => ranked_copyIn _ _ _

theorem ranked_put (table : EntryTable) (header : Nat) (name : CString) (object : Nat) :
    Ranked k (putEntry table region header name object) := by
  have fill : ∀ entry, Ranked k (do
      region.store8 entry TableEntry.inUse 1
      clearEntryText region entry
      region.copyIn entry TableEntry.name name.bytes
      region.store64 entry TableEntry.object object
      return .ok () : Code (Except OffsetStoreStatus Unit)) := by
    intro entry
    unfold ShmRegion.store8 ShmRegion.store64
    simp only [storeWord_bind]
    refine balanced_write (balanced_bind (ranked_clearText _) fun _ => ?_)
    exact balanced_bind (ranked_copyIn _ _ _) fun _ => balanced_write balanced_ret
  unfold putEntry
  refine balanced_bind (balanced_loads (loads_findEntry _ _ _ _)) fun existing => ?_
  cases existing with
  | some entry => exact fill entry
  | none =>
    refine balanced_bind (balanced_loads (loads_findFree _ _ _)) fun slot => ?_
    cases slot with
    | none => exact balanced_ret
    | some entry => exact fill entry

theorem ranked_remove (table : EntryTable) (header : Nat) (name : CString) :
    Ranked k (removeEntry table region header name) := by
  unfold removeEntry ShmRegion.store8 ShmRegion.store64
  refine balanced_bind (balanced_loads (loads_findEntry _ _ _ _)) fun existing => ?_
  split
  · exact balanced_ret
  · simp only [storeWord_bind]
    exact balanced_write (balanced_bind (ranked_clearText _) fun _ => balanced_write balanced_ret)

theorem ranked_refresh (header : Nat) : Ranked k (shmRegionRefreshHeaderChecksum region header) :=
  balanced_bind (balanced_loads (loads_computeChecksum header)) fun _ => balanced_write balanced_ret

section Table
variable {table : EntryTable}

theorem ranked_publish (low : k ≤ lockRank table.rwlock) {update : Nat → Code (Except OffsetStoreStatus Unit)}
    (work : ∀ header, Ranked (lockRank table.rwlock + 1) (update header)) : Ranked k (publish table region update) := by
  unfold publish
  split
  · exact balanced_ret
  · refine ranked_lock (c := .rwlockWrlock table.rwlock) rfl low (fun status refused => ?_) fun mapped => ?_
    · rw [if_pos refused]
      exact balanced_ret
    · rw [if_neg (by decide)]
      refine closes_bind (work _) fun updated => ?_
      split
      · exact section_unlock (c := .rwlockUnlock table.rwlock) mapped rfl balanced_ret
      · refine closes_bind (ranked_refresh _) fun _ => ?_
        have unlock : Section k table.rwlock (tableUnlock table region >>= ret) :=
          section_unlock (c := .rwlockUnlock table.rwlock) mapped rfl balanced_ret
        rwa [bind_ret] at unlock

theorem ranked_get (low : k ≤ lockRank table.rwlock) (name : CString) : Ranked k (getEntry table region name) := by
  unfold getEntry ShmRegion.load64
  split
  · exact balanced_ret
  · refine ranked_lock (c := .rwlockRdlock table.rwlock) rfl low (fun status refused => ?_) fun mapped => ?_
    · rw [if_pos refused]
      exact balanced_ret
    · rw [if_neg (by decide)]
      refine closes_loads (loads_findEntry _ _ _ _) fun existing => ?_
      split
      · exact section_unlock (c := .rwlockUnlock table.rwlock) mapped rfl balanced_ret
      · simp only [loadWord_bind]
        exact closes_read fun object => section_unlock (c := .rwlockUnlock table.rwlock) mapped rfl balanced_ret

end Table

theorem ranked_contains (key : CString) : Ranked indexRank (do
    match shmRegionHeader region with
    | none => return (.invalidArgument, none)
    | some header => do
      let status ← tableReadLock indexTable region
      if status ≠ .ok then return (status, none)
      let existing ← shmRegionFindIndexEntry region header key
      let status ← tableUnlock indexTable region
      return (status, some existing.isSome) : Code (OffsetStoreStatus × Option Bool)) := by
  split
  · exact balanced_ret
  · refine ranked_lock (c := .rwlockRdlock indexTable.rwlock) rfl le_rfl (fun status refused => ?_) fun mapped => ?_
    · rw [if_pos refused]
      exact balanced_ret
    · rw [if_neg (by decide)]
      refine closes_loads (loads_findEntry _ _ _ _) fun existing => ?_
      exact section_unlock (c := .rwlockUnlock indexTable.rwlock) mapped rfl balanced_ret

/- The lock checks of shm_region_validate try, and do not wait. -/
theorem ranked_validateMutex (mutex : Nat) : Ranked k (shmRegionValidateMutex mutex) := by
  unfold shmRegionValidateMutex
  simp only [request_bind, perform_bind]
  refine balanced_attempt rfl (if_pos rfl) rfl balanced_ret ?_
  rintro _ rfl
  rw [if_neg (by decide), if_neg (by decide)]
  exact balanced_ret

theorem ranked_validateRwlock (rwlock : Nat) : Ranked k (shmRegionValidateRwlock rwlock) := by
  unfold shmRegionValidateRwlock
  simp only [request_bind]
  refine balanced_attempt rfl (if_pos rfl) rfl balanced_ret ?_
  rintro _ (rfl | rfl)
  · rw [if_neg (by decide)]
    exact balanced_ret
  · rw [if_neg (by decide)]
    exact balanced_ret

theorem ranked_validate : Ranked k (shmRegionValidate region) := by
  unfold shmRegionValidate
  refine balanced_bind (balanced_loads loads_validateHeader) fun valid => balanced_ite (fun _ => balanced_ret) fun _ => ?_
  split
  · exact balanced_ret
  · refine balanced_bind (ranked_validateMutex _) fun mutex => balanced_ite (fun _ => balanced_ret) fun _ => ?_
    refine balanced_bind (ranked_validateRwlock _) fun roots => balanced_ite (fun _ => balanced_ret) fun _ => ?_
    refine balanced_bind (ranked_validateRwlock _) fun index => balanced_ite (fun _ => balanced_ret) fun _ => ?_
    exact balanced_ret

theorem ranked_close (region : ShmRegion) : Ranked k (shmRegionClose region) := by
  have closed : Ranked k (if region.fd ≥ 0 then (Prog.call Sys.close fun closed =>
      if closed ≠ 0 then ret (OffsetStoreStatus.systemError, region) else ret (.ok, shmRegionReset))
      else ret (.ok, shmRegionReset) : Code (OffsetStoreStatus × ShmRegion)) := by
    refine balanced_ite (fun _ => balanced_plain rfl fun closed => ?_) fun _ => balanced_ret
    exact balanced_ite (fun _ => balanced_ret) fun _ => balanced_ret
  unfold shmRegionClose
  refine balanced_ite (fun _ => balanced_plain rfl fun unmapped => ?_) fun _ => closed
  exact balanced_ite (fun _ => balanced_ret) fun _ => closed

theorem ranked_mapFd (fd : Int) (size : Nat) (creator : Bool) : Ranked k (shmRegionMapFd region fd size creator) := by
  unfold shmRegionMapFd
  refine balanced_ite (fun _ => balanced_ret) fun _ => balanced_plain rfl fun mapping => ?_
  exact balanced_ite (fun _ => balanced_ret) fun _ => balanced_ret

theorem ranked_open : Ranked k shmRegionOpen := by
  unfold shmRegionOpen
  refine balanced_plain rfl fun fd => balanced_ite (fun _ => balanced_plain rfl fun errno => ?_) fun _ => ?_
  · exact balanced_ite (fun _ => balanced_ret) fun _ => balanced_ret
  · refine balanced_plain rfl fun stat => balanced_ite (fun _ => balanced_plain rfl fun size => ?_) fun _ => ?_
    all_goals
      refine balanced_ite (fun _ => balanced_plain rfl fun _ => balanced_ret) fun _ => ?_
      refine balanced_bind (ranked_mapFd _ _ _) fun mapping => ?_
      refine balanced_ite (fun _ => balanced_plain rfl fun _ => balanced_ret) fun _ => ?_
      refine balanced_bind (balanced_loads loads_validateHeader) fun valid => ?_
      refine balanced_ite (fun _ => ?_) fun _ => balanced_ret
      exact balanced_bind (ranked_close _) fun _ => balanced_ret

theorem ranked_initOneMutex (mutex : Nat) : Ranked k (shmRegionInitOneMutex mutex) := by
  unfold shmRegionInitOneMutex
  refine balanced_plain rfl fun attr => balanced_ite (fun _ => balanced_ret) fun _ => ?_
  refine balanced_plain rfl fun pshared => balanced_ite (fun _ => balanced_plain rfl fun _ => balanced_ret) fun _ => ?_
  refine balanced_plain rfl fun robust => balanced_ite (fun _ => balanced_plain rfl fun _ => balanced_ret) fun _ => ?_
  refine balanced_plain rfl fun init => balanced_plain rfl fun _ => ?_
  exact balanced_ite (fun _ => balanced_ret) fun _ => balanced_ret

theorem ranked_initOneRwlock (rwlock : Nat) : Ranked k (shmRegionInitOneRwlock rwlock) := by
  unfold shmRegionInitOneRwlock
  refine balanced_plain rfl fun attr => balanced_ite (fun _ => balanced_ret) fun _ => ?_
  refine balanced_plain rfl fun pshared => balanced_ite (fun _ => balanced_plain rfl fun _ => balanced_ret) fun _ => ?_
  refine balanced_plain rfl fun init => balanced_plain rfl fun _ => ?_
  exact balanced_ite (fun _ => balanced_ret) fun _ => balanced_ret

theorem ranked_initLocks : Ranked k shmRegionInitMutexes := by
  unfold shmRegionInitMutexes
  refine balanced_bind (ranked_initOneMutex _) fun mutex => balanced_ite (fun _ => balanced_ret) fun _ => ?_
  refine balanced_bind (ranked_initOneRwlock _) fun roots => balanced_ite (fun _ => balanced_ret) fun _ => ?_
  exact ranked_initOneRwlock _

theorem ranked_initTable (table : EntryTable) (header left : Nat) : Ranked k (initTable table region header left) := by
  induction left with
  | zero => exact balanced_ret
  | succ left ih =>
    unfold initTable ShmRegion.store8 ShmRegion.store64
    simp only [storeWord_bind]
    exact balanced_write (balanced_bind (ranked_clearText _) fun _ => balanced_write ih)

theorem ranked_regionHeader (header : Nat) : Ranked k (writeRegionHeader region header) := by
  unfold writeRegionHeader shmRegionInitRoots shmRegionInitIndex ShmRegion.store64 ShmRegion.store32
  refine balanced_bind (ranked_copyIn _ _ _) fun _ => ?_
  simp only [storeWord_bind]
  iterate 5 refine balanced_write ?_
  exact balanced_bind (ranked_initTable _ _ _) fun _ => ranked_initTable _ _ _

theorem ranked_create (size : Nat) : Ranked k (shmRegionCreate size) := by
  unfold shmRegionCreate ShmRegion.store32
  refine balanced_ite (fun _ => balanced_ret) fun _ => ?_
  refine balanced_plain rfl fun fd => balanced_ite (fun _ => balanced_plain rfl fun errno => ?_) fun _ => ?_
  · exact balanced_ite (fun _ => balanced_ret) fun _ => balanced_ret
  · refine balanced_plain rfl fun truncated => balanced_ite (fun _ => ?_) fun _ => ?_
    · exact balanced_plain rfl fun _ => balanced_plain rfl fun _ => balanced_ret
    · refine balanced_bind (ranked_mapFd _ _ _) fun mapping => balanced_ite (fun _ => ?_) fun _ => ?_
      · exact balanced_plain rfl fun _ => balanced_plain rfl fun _ => balanced_ret
      · obtain ⟨mapped, region⟩ := mapping
        dsimp only
        refine balanced_bind (ranked_regionHeader _) fun _ => balanced_bind ranked_initLocks fun status => ?_
        refine balanced_ite (fun _ => ?_) fun _ => ?_
        · exact balanced_bind (ranked_close _) fun _ => balanced_plain rfl fun _ => balanced_ret
        · simp only [storeWord_bind]
          exact balanced_write (balanced_bind (ranked_refresh _) fun _ => balanced_ret)

theorem ranked_unlink : Ranked k shmRegionUnlink := by
  unfold shmRegionUnlink
  refine balanced_plain rfl fun result => balanced_ite (fun _ => balanced_plain rfl fun errno => ?_) fun _ => balanced_ret
  exact balanced_ite (fun _ => balanced_ret) fun _ => balanced_ret

theorem ranked_bootstrap (size : Nat) : Ranked allocatorRank (offsetStoreBootstrap size) := by
  unfold offsetStoreBootstrap
  refine balanced_bind (ranked_create _) fun created => balanced_ite (fun _ => balanced_ret) fun _ => ?_
  refine balanced_bind ranked_init fun status => balanced_ite (fun _ => ?_) fun _ => balanced_ret
  exact balanced_bind (ranked_close _) fun _ => balanced_bind ranked_unlink fun _ => balanced_ret

theorem ranked_openExisting (fuel : Nat) : Ranked k (offsetStoreOpenExisting fuel) := by
  unfold offsetStoreOpenExisting
  refine balanced_bind ranked_open fun opened => balanced_ite (fun _ => balanced_ret) fun _ => ?_
  refine balanced_bind (balanced_loads (loads_validate _)) fun status => balanced_ite (fun _ => ?_) fun _ => balanced_ret
  exact balanced_bind (ranked_close _) fun _ => balanced_ret

end Region

section Objects
variable {region : ShmRegion} {k : Nat}

theorem ranked_objectAlloc (fuel type payloadSize : Nat) :
    Ranked shardRank (objectStoreAlloc fuel region type payloadSize) := by
  unfold objectStoreAlloc ShmRegion.store32
  refine balanced_ite (fun _ => balanced_ret) fun _ => balanced_bind (ranked_alloc _ _ _) fun storage => ?_
  split
  · exact balanced_ret
  · simp only [storeWord_bind]
    iterate 4 refine balanced_write ?_
    split
    · exact balanced_ret
    · exact balanced_ret

theorem ranked_objectFree (fuel object : Nat) : Ranked shardRank (objectStoreFree fuel region object) := by
  unfold objectStoreFree ShmRegion.load32 ShmRegion.store32
  refine balanced_ite (fun _ => balanced_ret) fun _ => ?_
  refine balanced_bind (balanced_loads (loads_resolve _ _)) fun header => ?_
  split
  · exact balanced_ret
  · simp only [loadWord_bind]
    refine balanced_read fun size => balanced_bind (balanced_loads (loads_resolve _ _)) fun resolved => ?_
    split
    · exact balanced_ret
    · refine balanced_read fun payloadSize => balanced_read fun flags => ?_
      simp only [storeWord_bind]
      iterate 4 refine balanced_write ?_
      exact ranked_free _

theorem loads_payload (fuel object : Nat) : Loads (objectStoreGetPayload fuel region object) := by
  unfold objectStoreGetPayload objectStoreGetPayloadConst ShmRegion.load32
  refine loads_bind (loads_resolve _ _) fun header => ?_
  split
  · exact loads_ret
  · simp only [loadWord_bind]
    refine loads_read fun size => loads_bind (loads_resolve _ _) fun resolved => ?_
    split
    · exact loads_ret
    · exact loads_ret

end Objects

/- Containers. The mutex of a container lies behind the handle, which is behind the metadata. -/
section Container
variable {region : ShmRegion} {mutex : Nat} {α β : Type}

theorem rank_resolved (map : region.Mapped) {handle span field hdr : Nat}
    (placed : allocatorMetadataOffset + AllocatorHeader.sizeof ≤ handle) (small : field < 2 ^ 32)
    (resolved : offsetPtrTryResolve region.base region.size handle span = some hdr) :
    lockRank (region.offsetOf (add64 hdr field)) = containerRank := by
  have user := map.user
  obtain ⟨_, inside, _, rfl⟩ := (resolve_iff map.base_pos (by omega)).mp resolved
  have address : add64 region.base handle = region.base + handle := add64_eq (by omega)
  rw [← address, ShmRegion.Mapped.offsetOf_field (by omega)]
  exact rank_container (by omega)

theorem ranked_initLock {k : Nat} : Ranked k (containerInitLock mutex) := by
  unfold containerInitLock
  simp only [perform_bind]
  iterate 5 refine balanced_plain rfl fun _ => ?_
  exact balanced_ret

theorem ranked_locked {f : Unit → Code α} (inside : Section containerRank mutex (f ())) :
    Ranked containerRank (containerLock mutex >>= f) := by
  unfold containerLock
  simp only [request_bind, call_bind]
  refine balanced_section rfl (Nat.zero_le _) ?_
  rw [if_neg (by decide)]
  exact inside

theorem ranked_heap {p : Code β} {f : β → Code α} (heap : Ranked shardRank p)
    (rest : ∀ b, Ranked containerRank (f b)) : Ranked containerRank (p >>= f) :=
  balanced_bind (balanced_raise heap (Nat.zero_le _)) rest

theorem section_unlocked {f : Unit → Code α} (rest : Ranked containerRank (f ())) :
    Section containerRank mutex (containerUnlock mutex >>= f) := by
  exact closes_release rfl rest

theorem section_last : Section containerRank mutex (containerUnlock mutex) := by
  have unlock : Section containerRank mutex (containerUnlock mutex >>= ret) := section_unlocked balanced_ret
  rwa [bind_ret] at unlock

variable (low : lockRank mutex = containerRank)
include low

/-- A call of the allocator while the mutex is held. -/
theorem section_heap {p : Code β} {f : β → Code α} (heap : Ranked shardRank p)
    (rest : ∀ b, Section containerRank mutex (f b)) : Section containerRank mutex (p >>= f) := by
  refine closes_bind (balanced_raise heap ?_) rest
  rw [low]
  decide

end Container

end OffsetStore
