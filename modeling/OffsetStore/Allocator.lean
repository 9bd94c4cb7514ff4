import OffsetStore.ShmRegion

/- allocator.c. The heap is cut into four shards, each with a mutex and a
   first-fit free list; blocks carry in-band headers, live payloads a prefix. The place
   and the size of the heap, which nothing changes once its header is valid, are loaded
   once for the statements that use them next to each other. -/
namespace OffsetStore
open ByteMemory Program Words

@[simp] def shardCount : Nat := 4
@[simp] def allocatorVersion : Nat := 3
@[simp] def blockFree : Nat := 1
@[simp] def allocatorMagic : Nat := 0x4f464653414c4c43

namespace AllocatorHeader
@[simp] def magic : Nat := 0
@[simp] def version : Nat := 8
@[simp] def shardCount : Nat := 12
@[simp] def heapOffset : Nat := 16
@[simp] def heapSize : Nat := 24
@[simp] def shardMutexes : Nat := 32
@[simp] def shardFreeListHeads : Nat := 192
@[simp] def allocationFailures : Nat := 224
@[simp] def sizeof : Nat := 232
end AllocatorHeader

namespace BlockHeader
@[simp] def size : Nat := 0
@[simp] def nextFree : Nat := 8
@[simp] def flags : Nat := 16
@[simp] def shard : Nat := 20
@[simp] def payloadOffset : Nat := 24
@[simp] def sizeof : Nat := 32
end BlockHeader

namespace AllocationPrefix
@[simp] def blockOffset : Nat := 0
@[simp] def sizeof : Nat := 8
end AllocationPrefix

@[simp] def allocatorMetadataOffset : Nat := RegionHeader.sizeof

def allocatorAlignUp (value alignment : Nat) : Option Nat :=
  if alignment = 0 ∨ alignment &&& (alignment - 1) ≠ 0 then none
  else if value > sizeMax - (alignment - 1) then none
  else some (add64 value (alignment - 1) &&& not64 (alignment - 1))

@[simp] def allocatorMinBlockSize : Nat := BlockHeader.sizeof + AllocationPrefix.sizeof + alignofMax

def allocatorSelectShard (size : Nat) : Nat :=
  ((size ^^^ (size >>> 17)) &&& (shardCount - 1)) % 2 ^ 32

def allocatorShardHeapOffset (heapOffset heapSize shard : Nat) : Nat :=
  add64 heapOffset (mul64 shard (heapSize / shardCount))

def allocatorShardHeapSize (heapSize : Nat) : Nat := heapSize / shardCount

def allocatorRegionOffsets (region : ShmRegion) : Option (Nat × Nat) :=
  if region.size < allocatorMetadataOffset + AllocatorHeader.sizeof then none
  else
    match allocatorAlignUp (allocatorMetadataOffset + AllocatorHeader.sizeof) alignofMax with
    | none => none
    | some alignedHeapStart =>
      if alignedHeapStart ≥ region.size then none
      else some (alignedHeapStart, region.size - alignedHeapStart)

/-- The const and the mutable accessor of the source differ in the pointer type only. -/
def allocatorHeader (region : ShmRegion) : Option Nat :=
  if region.base = 0 ∨ region.size < allocatorMetadataOffset + AllocatorHeader.sizeof then none
  else some (add64 region.base allocatorMetadataOffset)

def allocatorHeaderMut (region : ShmRegion) : Option Nat := allocatorHeader region

def allocatorHeaderValid (region : ShmRegion) (header : Nat) : Code Bool := do
  let magic ← region.load64 header AllocatorHeader.magic
  if magic ≠ allocatorMagic then return false
  let version ← region.load32 header AllocatorHeader.version
  if version ≠ allocatorVersion then return false
  let count ← region.load32 header AllocatorHeader.shardCount
  if count ≠ shardCount then return false
  let heapOffset ← region.load64 header AllocatorHeader.heapOffset
  let heapSize ← region.load64 header AllocatorHeader.heapSize
  if heapOffset ≥ region.size ∨ heapSize > region.size then return false
  if add64 heapOffset heapSize ≠ region.size then return false
  return true

def allocatorBlockFromOffset (region : ShmRegion) (blockOffset : Nat) : Option Nat :=
  offsetPtrTryResolve region.base region.size blockOffset BlockHeader.sizeof

def shardMutex (shard : Nat) : Nat :=
  allocatorMetadataOffset + AllocatorHeader.shardMutexes + sizeofMutex * shard

/-- After a lock attempt, whatever its outcome: warn when the tracker names another
   shard, record the new one, and mark a mutex of a dead owner consistent. -/
def noteShardLock (shard : Nat) (lockResult : Int) : Code Unit := do
  let held ← Prog.request .heldShard
  if held ≠ -1 ∧ held ≠ shard then
    Prog.perform (.logDeadlockWarning shard held)
  Prog.perform (.setHeldShard shard)
  if lockResult = eownerdead then
    Prog.perform (.mutexConsistent (shardMutex shard))

/-- The exits of the critical section of allocator_alloc: unlock, clear the tracker. -/
def allocExit {α : Type} (tryShard : Nat) (result : α) : Code α := do
  Prog.perform (.mutexUnlock (shardMutex tryShard))
  Prog.perform (.setHeldShard (-1))
  return result

def allocMark (region : ShmRegion) (tryShard currentOffset block payloadOffset : Nat) :
    Code (Option (Except OffsetStoreStatus Nat)) := do
  region.store32 block BlockHeader.flags 0
  region.store64 block BlockHeader.nextFree offsetPtrNull
  region.store32 block BlockHeader.shard tryShard
  region.store32 block BlockHeader.payloadOffset (payloadOffset % 2 ^ 32)
  let allocationPrefix := sub64 (add64 block payloadOffset) AllocationPrefix.sizeof
  region.store64 allocationPrefix AllocationPrefix.blockOffset currentOffset
  allocExit tryShard (some (.ok (add64 block payloadOffset)))

def allocTake (region : ShmRegion) (tryShard link currentOffset block payloadOffset
    requiredSize : Nat) : Code (Option (Except OffsetStoreStatus Nat)) := do
  let blockSize ← region.load64 block BlockHeader.size
  let remainingSize := sub64 blockSize requiredSize
  if remainingSize ≥ allocatorMinBlockSize then
    let nextBlockOffset := add64 currentOffset requiredSize
    match allocatorBlockFromOffset region nextBlockOffset with
    | none => allocExit tryShard (some (.error .invalidState))
    | some nextBlock =>
      region.store64 nextBlock BlockHeader.size remainingSize
      let nextFree ← region.load64 block BlockHeader.nextFree
      region.store64 nextBlock BlockHeader.nextFree nextFree
      region.store32 nextBlock BlockHeader.flags blockFree
      region.store32 nextBlock BlockHeader.shard tryShard
      region.store32 nextBlock BlockHeader.payloadOffset 0
      region.store64 link 0 nextBlockOffset
      region.store64 block BlockHeader.size requiredSize
      allocMark region tryShard currentOffset block payloadOffset
  else
    let nextFree ← region.load64 block BlockHeader.nextFree
    region.store64 link 0 nextFree
    allocMark region tryShard currentOffset block payloadOffset

/-- The walk along one free list. `none` says that the list is exhausted. -/
def allocWalk (region : ShmRegion) (header tryShard size alignment : Nat) :
    Nat → Nat → Nat → Code (Option (Except OffsetStoreStatus Nat))
  | 0, _, _ => .spin
  | fuel + 1, link, currentOffset =>
    if offsetPtrIsNull currentOffset then allocExit tryShard none
    else do
      let heapOffset ← region.load64 header AllocatorHeader.heapOffset
      let heapSize ← region.load64 header AllocatorHeader.heapSize
      let shardHeapOffset := allocatorShardHeapOffset heapOffset heapSize tryShard
      let shardHeapSize := allocatorShardHeapSize heapSize
      if currentOffset < shardHeapOffset ∨ currentOffset ≥ add64 shardHeapOffset shardHeapSize then
        allocExit tryShard (some (.error .invalidState))
      else
        match allocatorBlockFromOffset region currentOffset with
        | none => allocExit tryShard (some (.error .invalidState))
        | some block =>
          let prefixBase := BlockHeader.sizeof + AllocationPrefix.sizeof
          match allocatorAlignUp (add64 prefixBase currentOffset) alignment with
          | none => allocExit tryShard (some (.error .invalidArgument))
          | some alignedOffset =>
            let payloadOffset := sub64 alignedOffset currentOffset
            match allocatorAlignUp (add64 payloadOffset size) alignofMax with
            | none => allocExit tryShard (some (.error .invalidArgument))
            | some requiredSize =>
              let blockSize ← region.load64 block BlockHeader.size
              if requiredSize ≤ blockSize then
                allocTake region tryShard link currentOffset block payloadOffset requiredSize
              else
                let nextFree ← region.load64 block BlockHeader.nextFree
                allocWalk region header tryShard size alignment fuel
                  (add64 block BlockHeader.nextFree) nextFree

/-- The loop over the shards; `left` attempts remain, beginning at the preferred shard. -/
def allocShards (fuel : Nat) (region : ShmRegion) (header shard size alignment : Nat) :
    Nat → Code (Except OffsetStoreStatus Nat)
  | 0 => do
    let _ ← Prog.fetchAdd (region.offsetOf (add64 header AllocatorHeader.allocationFailures)) 8 1 .ret
    return .error .outOfMemory
  | left + 1 => do
    let tryShard := (shard + (shardCount - (left + 1))) % shardCount
    let lockResult ← Prog.request (.mutexLock (shardMutex tryShard))
    noteShardLock tryShard lockResult
    if lockResult ≠ 0 then return .error .systemError
    let valid ← allocatorHeaderValid region header
    if !valid then allocExit tryShard (.error .invalidState)
    else
      let link := add64 header (AllocatorHeader.shardFreeListHeads + 8 * tryShard)
      let currentOffset ← region.load64 link 0
      let found ← allocWalk region header tryShard size alignment fuel link currentOffset
      match found with
      | some result => return result
      | none => allocShards fuel region header shard size alignment left

def allocatorAlloc (fuel : Nat) (region : ShmRegion) (size alignment : Nat) :
    Code (Except OffsetStoreStatus Nat) :=
  if size = 0 then return .error .invalidArgument
  else
    let alignment := if alignment < alignofMax then alignofMax else alignment
    match allocatorAlignUp size alignofMax with
    | none => return .error .invalidArgument
    | some size =>
      match allocatorHeaderMut region with
      | none => return .error .invalidState
      | some header => do
        let valid ← allocatorHeaderValid region header
        if !valid then return .error .invalidState
        allocShards fuel region header (allocatorSelectShard size) size alignment shardCount

/-- allocator_free from its lock attempt on. Three of its exits unlock without
   clearing the tracker. -/
def freeLocked (region : ShmRegion) (header ptr blockOffset shard : Nat) :
    Code OffsetStoreStatus := do
  let lockResult ← Prog.request (.mutexLock (shardMutex shard))
  noteShardLock shard lockResult
  if lockResult ≠ 0 then return .systemError
  let valid ← allocatorHeaderValid region header
  if !valid then
    Prog.perform (.mutexUnlock (shardMutex shard))
    return .invalidState
  else
    match allocatorBlockFromOffset region blockOffset with
    | none => do
      Prog.perform (.mutexUnlock (shardMutex shard))
      return .invalidState
    | some block => do
      let payloadOffset ← region.load32 block BlockHeader.payloadOffset
      let expectedPayload := add64 block payloadOffset
      if expectedPayload ≠ ptr then
        Prog.perform (.mutexUnlock (shardMutex shard))
        return .invalidArgument
      else
        region.store32 block BlockHeader.flags blockFree
        region.store32 block BlockHeader.payloadOffset 0
        let head ← region.load64 header (AllocatorHeader.shardFreeListHeads + 8 * shard)
        region.store64 block BlockHeader.nextFree head
        region.store64 header (AllocatorHeader.shardFreeListHeads + 8 * shard) blockOffset
        Prog.perform (.mutexUnlock (shardMutex shard))
        Prog.perform (.setHeldShard (-1))
        return .ok

def allocatorFree (region : ShmRegion) (ptr : Nat) : Code OffsetStoreStatus :=
  if ptr = 0 then return .invalidArgument
  else
    match allocatorHeaderMut region with
    | none => return .invalidState
    | some header => do
      let valid ← allocatorHeaderValid region header
      if !valid then return .invalidState
      let allocationPrefix := sub64 ptr AllocationPrefix.sizeof
      let blockOffset ← region.load64 allocationPrefix AllocationPrefix.blockOffset
      match allocatorBlockFromOffset region blockOffset with
      | none => return .invalidState
      | some block => do
        let flags ← region.load32 block BlockHeader.flags
        if flags &&& blockFree ≠ 0 then return .invalidState
        let shard ← region.load32 block BlockHeader.shard
        if shard ≥ shardCount then return .invalidState
        freeLocked region header ptr blockOffset shard

def destroyShardMutexes (shard : Nat) : Nat → Code Unit
  | 0 => return ()
  | left + 1 => do
    Prog.perform (.mutexDestroy (shardMutex (shard - (left + 1))))
    destroyShardMutexes shard left

/-- A shard mutex that cannot be initialised destroys the ones before it. -/
def initShardMutexes : Nat → Code Bool
  | 0 => return true
  | left + 1 => do
    let shard := shardCount - (left + 1)
    let init ← Prog.request (.mutexInit (shardMutex shard))
    if init ≠ 0 then
      destroyShardMutexes shard shard
      return false
    initShardMutexes left

/-- Every shard begins as one free block of heapSize / 4 bytes. -/
def initShardBlocks (region : ShmRegion) (header heapOffset heapSize : Nat) : Nat → Code Bool
  | 0 => return true
  | left + 1 => do
    let shard := shardCount - (left + 1)
    let shardHeapOffset := allocatorShardHeapOffset heapOffset heapSize shard
    region.store64 header (AllocatorHeader.shardFreeListHeads + 8 * shard) shardHeapOffset
    match allocatorBlockFromOffset region shardHeapOffset with
    | none =>
      destroyShardMutexes shardCount shardCount
      return false
    | some block =>
      region.store64 block BlockHeader.size (allocatorShardHeapSize heapSize)
      region.store64 block BlockHeader.nextFree offsetPtrNull
      region.store32 block BlockHeader.flags blockFree
      region.store32 block BlockHeader.shard shard
      region.store32 block BlockHeader.payloadOffset 0
      initShardBlocks region header heapOffset heapSize left

def initExit (region : ShmRegion) (status : OffsetStoreStatus) : Code OffsetStoreStatus := do
  let _ ← shmRegionAllocatorUnlock region
  return status

def writeAllocatorHeader (region : ShmRegion) (header heapOffset heapSize : Nat) : Code Unit := do
  region.store64 header AllocatorHeader.magic allocatorMagic
  region.store32 header AllocatorHeader.version allocatorVersion
  region.store32 header AllocatorHeader.shardCount shardCount
  region.store64 header AllocatorHeader.heapOffset heapOffset
  region.store64 header AllocatorHeader.heapSize heapSize
  region.store64 header AllocatorHeader.allocationFailures 0

/-- allocator_init under the allocator mutex, for a heap that is large enough. -/
def initLocked (region : ShmRegion) (heapOffset heapSize : Nat) : Code OffsetStoreStatus :=
  match allocatorHeaderMut region with
  | none => initExit region .invalidState
  | some header => do
    let valid ← allocatorHeaderValid region header
    if valid then initExit region .alreadyExists
    else
      let attr ← Prog.request .mutexattrInit
      if attr ≠ 0 then initExit region .systemError
      else
        let pshared ← Prog.request .mutexattrSetpshared
        if pshared ≠ 0 then
          Prog.perform .mutexattrDestroy
          initExit region .systemError
        else
          Prog.perform .mutexattrSetrobust
          writeAllocatorHeader region header heapOffset heapSize
          let mutexes ← initShardMutexes shardCount
          Prog.perform .mutexattrDestroy
          if !mutexes then initExit region .systemError
          else
            let blocks ← initShardBlocks region header heapOffset heapSize shardCount
            if !blocks then initExit region .invalidState
            else
              let unlocked ← shmRegionAllocatorUnlock region
              if unlocked ≠ .ok then return .systemError
              return .ok

def allocatorInit (region : ShmRegion) : Code OffsetStoreStatus := do
  let locked ← shmRegionAllocatorLock region
  if locked ≠ .ok then return .systemError
  match allocatorRegionOffsets region with
  | none => initExit region .outOfMemory
  | some (heapOffset, heapSize) =>
    if heapSize < allocatorMinBlockSize * shardCount then initExit region .outOfMemory
    else initLocked region heapOffset heapSize

/- The tests of allocator_validate on one block load each field as often as the source does. -/
def validateSize (region : ShmRegion) (header block traversed : Nat) : Code Bool := do
  let size ← region.load64 block BlockHeader.size
  if size < BlockHeader.sizeof then return false
  let size ← region.load64 block BlockHeader.size
  let heapSize ← region.load64 header AllocatorHeader.heapSize
  return decide (size ≤ sub64 heapSize traversed)

def validateFlags (region : ShmRegion) (block : Nat) : Code Bool := do
  let flags ← region.load32 block BlockHeader.flags
  if flags = 0 then return true
  let flags ← region.load32 block BlockHeader.flags
  return decide (flags = blockFree)

/-- The physical walk of allocator_validate; the result is the number of blocks. -/
def validateBlocks (region : ShmRegion) (header : Nat) : Nat → Nat → Nat → Code (Option Nat)
  | 0, _, _ => .spin
  | fuel + 1, traversed, blockCount => do
    let heapSize ← region.load64 header AllocatorHeader.heapSize
    if traversed < heapSize then
      let heapOffset ← region.load64 header AllocatorHeader.heapOffset
      match allocatorBlockFromOffset region (add64 heapOffset traversed) with
      | none => return none
      | some block => do
        let fits ← validateSize region header block traversed
        if !fits then return none
        let known ← validateFlags region block
        if !known then return none
        let shard ← region.load32 block BlockHeader.shard
        if shard ≥ shardCount then return none
        let size ← region.load64 block BlockHeader.size
        validateBlocks region header fuel (add64 traversed size) (add64 blockCount 1)
    else return some blockCount

/-- The walk of allocator_validate along one free list, with the remaining count. -/
def validateFreeList (region : ShmRegion) (shard shardHeapOffset shardHeapSize : Nat) :
    Nat → Nat → Nat → Code (Option Nat)
  | 0, _, _ => .spin
  | fuel + 1, freeCursor, blockCount =>
    if offsetPtrIsNull freeCursor then return some blockCount
    else if blockCount = 0 then return none
    else if freeCursor < shardHeapOffset ∨ freeCursor ≥ add64 shardHeapOffset shardHeapSize then
      return none
    else
      match allocatorBlockFromOffset region freeCursor with
      | none => return none
      | some freeBlock => do
        let flags ← region.load32 freeBlock BlockHeader.flags
        if flags &&& blockFree = 0 then return none
        let owner ← region.load32 freeBlock BlockHeader.shard
        if owner ≠ shard then return none
        let nextFree ← region.load64 freeBlock BlockHeader.nextFree
        validateFreeList region shard shardHeapOffset shardHeapSize fuel nextFree (blockCount - 1)

/-- The loop of allocator_validate over the shards; `left` shards remain. -/
def validateShards (fuel : Nat) (region : ShmRegion) (header : Nat) :
    Nat → Nat → Code OffsetStoreStatus
  | 0, _ => return .ok
  | left + 1, blockCount => do
    let shard := shardCount - (left + 1)
    let heapOffset ← region.load64 header AllocatorHeader.heapOffset
    let heapSize ← region.load64 header AllocatorHeader.heapSize
    let shardHeapOffset := allocatorShardHeapOffset heapOffset heapSize shard
    let shardHeapSize := allocatorShardHeapSize heapSize
    let head ← region.load64 header (AllocatorHeader.shardFreeListHeads + 8 * shard)
    let rest ← validateFreeList region shard shardHeapOffset shardHeapSize fuel head blockCount
    match rest with
    | none => return .invalidState
    | some blockCount => validateShards fuel region header left blockCount

def allocatorValidate (fuel : Nat) (region : ShmRegion) : Code OffsetStoreStatus :=
  match allocatorHeader region with
  | none => return .invalidState
  | some header => do
    let valid ← allocatorHeaderValid region header
    if !valid then return .invalidState
    let blocks ← validateBlocks region header fuel 0 0
    match blocks with
    | none => return .invalidState
    | some blockCount => validateShards fuel region header shardCount blockCount

structure AllocatorStats where
  heapSize : Nat
  freeBytes : Nat
  usedBytes : Nat
  largestFreeBlock : Nat
  freeBlockCount : Nat
  allocationFailures : Nat
  deriving DecidableEq, Repr

def AllocatorStats.countBlock (stats : AllocatorStats) (blockSize flags : Nat) : AllocatorStats :=
  if flags &&& blockFree ≠ 0 then
    { stats with
      freeBytes := add64 stats.freeBytes blockSize
      freeBlockCount := add64 stats.freeBlockCount 1
      largestFreeBlock :=
        if blockSize > stats.largestFreeBlock then blockSize else stats.largestFreeBlock }
  else { stats with usedBytes := add64 stats.usedBytes blockSize }

def statsWalk (region : ShmRegion) (header : Nat) :
    Nat → Nat → AllocatorStats → Code (Except OffsetStoreStatus AllocatorStats)
  | 0, _, _ => .spin
  | fuel + 1, traversed, stats => do
    let heapSize ← region.load64 header AllocatorHeader.heapSize
    if traversed < heapSize then
      let heapOffset ← region.load64 header AllocatorHeader.heapOffset
      match allocatorBlockFromOffset region (add64 heapOffset traversed) with
      | none => return .error .invalidState
      | some block => do
        let blockSize ← region.load64 block BlockHeader.size
        if blockSize = 0 ∨ blockSize > sub64 heapSize traversed then return .error .invalidState
        let flags ← region.load32 block BlockHeader.flags
        statsWalk region header fuel (add64 traversed blockSize) (stats.countBlock blockSize flags)
    else return .ok stats

def allocatorGetStats (fuel : Nat) (region : ShmRegion) :
    Code (Except OffsetStoreStatus AllocatorStats) :=
  match allocatorHeader region with
  | none => return .error .invalidState
  | some header => do
    let valid ← allocatorHeaderValid region header
    if !valid then return .error .invalidState
    let heapSize ← region.load64 header AllocatorHeader.heapSize
    let failures ← region.load64 header AllocatorHeader.allocationFailures
    statsWalk region header fuel 0 ⟨heapSize, 0, 0, 0, 0, failures⟩

def spanWalk (region : ShmRegion) (header ptr : Nat) :
    Nat → Nat → Code (Except OffsetStoreStatus Nat)
  | 0, _ => .spin
  | fuel + 1, traversed => do
    let heapSize ← region.load64 header AllocatorHeader.heapSize
    if traversed < heapSize then
      let heapOffset ← region.load64 header AllocatorHeader.heapOffset
      match allocatorBlockFromOffset region (add64 heapOffset traversed) with
      | none => return .error .invalidState
      | some block => do
        let flags ← region.load32 block BlockHeader.flags
        if flags &&& blockFree = 0 then
          let payloadOffset ← region.load32 block BlockHeader.payloadOffset
          if add64 block payloadOffset = ptr then
            let size ← region.load64 block BlockHeader.size
            let offset ← region.load32 block BlockHeader.payloadOffset
            return .ok (sub64 size offset)
          else
            let size ← region.load64 block BlockHeader.size
            spanWalk region header ptr fuel (add64 traversed size)
        else
          let size ← region.load64 block BlockHeader.size
          spanWalk region header ptr fuel (add64 traversed size)
    else return .error .notFound

def allocatorGetAllocationSpan (fuel : Nat) (region : ShmRegion) (ptr : Nat) :
    Code (Except OffsetStoreStatus Nat) :=
  if ptr = 0 then return .error .invalidArgument
  else
    match allocatorHeader region with
    | none => return .error .invalidState
    | some header => do
      let valid ← allocatorHeaderValid region header
      if !valid then return .error .invalidState
      spanWalk region header ptr fuel 0

/-- The small region as allocator_init leaves it when its bytes were all zero and every call
    is answered by 0. -/
def initialised : Mem :=
  match Prog.run (fun (_ : Sys) (s : Unit) => (0, s)) (allocatorInit smallRegion) (fun _ => 0) () with
  | some (_, m, _) => m
  | none => fun _ => 0

end OffsetStore
