import OffsetStore.OffsetPtr

/- shm_region.c: the region header with its checksum, its three locks and the two
   fixed tables of named handles, and creation, attach and close of a mapping. The
   root table and the index table differ in place, capacity and lock only. -/
namespace OffsetStore
open ByteMemory Program Words

@[simp] def regionMagic : Nat := 0x4f464653544f5245
@[simp] def regionVersion : Nat := 6
@[simp] def checksumSeed : Nat := 1469598103934665603
@[simp] def checksumMultiplier : Nat := 1099511628211
@[simp] def stateInitializing : Nat := 1
@[simp] def stateReady : Nat := 2

namespace RegionHeader
@[simp] def magic : Nat := 0
@[simp] def version : Nat := 8
@[simp] def stateFlags : Nat := 12
@[simp] def generation : Nat := 16
@[simp] def totalSize : Nat := 24
@[simp] def headerChecksum : Nat := 32
@[simp] def allocatorMutex : Nat := 40
@[simp] def rootsRwlock : Nat := 80
@[simp] def indexRwlock : Nat := 136
@[simp] def roots : Nat := 192
@[simp] def index : Nat := 960
@[simp] def sizeof : Nat := 2496
end RegionHeader

namespace TableEntry
@[simp] def inUse : Nat := 0
@[simp] def reserved : Nat := 1
@[simp] def name : Nat := 8
@[simp] def object : Nat := 40
@[simp] def sizeof : Nat := 48
@[simp] def nameLength : Nat := 32
end TableEntry

/-- One of the two fixed tables of the header. -/
structure EntryTable where
  offset : Nat
  capacity : Nat
  rwlock : Nat
  deriving DecidableEq, Repr

@[simp] def rootTable : EntryTable := ⟨RegionHeader.roots, 16, RegionHeader.rootsRwlock⟩
@[simp] def indexTable : EntryTable := ⟨RegionHeader.index, 32, RegionHeader.indexRwlock⟩

def shmRegionHeaderSize : Nat := RegionHeader.sizeof
def shmRegionIsSizeValid (size : Nat) : Bool := decide (size ≥ RegionHeader.sizeof)

def shmRegionReset : ShmRegion := ⟨-1, 0, 0, false⟩

def shmRegionHeader (region : ShmRegion) : Option Nat :=
  if region.base = 0 then none else some region.base

def shmRegionHeaderMut (region : ShmRegion) : Option Nat := shmRegionHeader region

/-- strnlen stops at the given length. -/
def isNameValid (name : CString) : Bool :=
  let length := min name.bytes.length TableEntry.nameLength
  !(decide (length = 0) || decide (length ≥ TableEntry.nameLength))

def shmRegionIsRootNameValid (name : CString) : Bool := isNameValid name
def shmRegionIsIndexKeyValid (key : CString) : Bool := isNameValid key

def checksumByte (checksum : Nat) (byte : UInt8) : Nat :=
  mul64 (checksum ^^^ byte.toNat) checksumMultiplier

/-- The running checksum over the bytes of a span of the header, read one by one. -/
def shmRegionChecksumBytes (region : ShmRegion) (data : Nat) : Nat → Nat → Nat → Code Nat
  | _, 0, checksum => return checksum
  | index, left + 1, checksum => do
    let byte ← region.load8 data index
    shmRegionChecksumBytes region data (index + 1) left (checksumByte checksum (UInt8.ofNat byte))

def shmRegionComputeHeaderChecksum (region : ShmRegion) (header : Nat) : Code Nat := do
  let span := fun field size => shmRegionChecksumBytes region header field size
  let checksum ← span RegionHeader.magic 8 checksumSeed
  let checksum ← span RegionHeader.version 4 checksum
  let checksum ← span RegionHeader.stateFlags 4 checksum
  let checksum ← span RegionHeader.generation 8 checksum
  let checksum ← span RegionHeader.totalSize 8 checksum
  let checksum ← span RegionHeader.roots (rootTable.capacity * TableEntry.sizeof) checksum
  span RegionHeader.index (indexTable.capacity * TableEntry.sizeof) checksum

def shmRegionRefreshHeaderChecksum (region : ShmRegion) (header : Nat) : Code Unit := do
  let checksum ← shmRegionComputeHeaderChecksum region header
  region.store64 header RegionHeader.headerChecksum checksum

def shmRegionMapFd (region : ShmRegion) (fd : Int) (size : Nat) (creator : Bool) :
    Code (Bool × ShmRegion) := do
  if !shmRegionIsSizeValid size then return (false, region)
  let mapping ← Prog.request (.mmap size)
  if mapping = -1 then return (false, region)
  return (true, ⟨fd, mapping.toNat, size, creator⟩)

def shmRegionValidateHeader (region : ShmRegion) : Code Bool := do
  if region.base = 0 then return false
  let header := region.base
  let magic ← region.load64 header RegionHeader.magic
  if magic ≠ regionMagic then return false
  let version ← region.load32 header RegionHeader.version
  if version ≠ regionVersion then return false
  let stateFlags ← region.load32 header RegionHeader.stateFlags
  if stateFlags ≠ stateReady then return false
  let generation ← region.load64 header RegionHeader.generation
  if generation = 0 then return false
  let totalSize ← region.load64 header RegionHeader.totalSize
  if totalSize ≠ region.size then return false
  let headerChecksum ← region.load64 header RegionHeader.headerChecksum
  let computed ← shmRegionComputeHeaderChecksum region header
  return decide (headerChecksum = computed)

def shmRegionValidateMutex (mutex : Nat) : Code Bool := do
  let result ← Prog.request (.mutexTrylock mutex)
  if result = 0 then
    let unlocked ← Prog.request (.mutexUnlock mutex)
    return decide (unlocked = 0)
  if result = eownerdead then
    Prog.perform (.mutexConsistent mutex)
    Prog.perform (.mutexUnlock mutex)
    return false
  return decide (result = ebusy)

def shmRegionValidateRwlock (rwlock : Nat) : Code Bool := do
  let result ← Prog.request (.rwlockTrywrlock rwlock)
  if result = 0 then
    let unlocked ← Prog.request (.rwlockUnlock rwlock)
    return decide (unlocked = 0)
  return decide (result = ebusy ∨ result = edeadlk)

def shmRegionValidate (region : ShmRegion) : Code OffsetStoreStatus := do
  let valid ← shmRegionValidateHeader region
  if !valid then return .invalidState
  match shmRegionHeader region with
  | none => return .invalidState
  | some _ => do
    let mutex ← shmRegionValidateMutex RegionHeader.allocatorMutex
    if !mutex then return .invalidState
    let roots ← shmRegionValidateRwlock RegionHeader.rootsRwlock
    if !roots then return .invalidState
    let index ← shmRegionValidateRwlock RegionHeader.indexRwlock
    if !index then return .invalidState
    return .ok

def shmRegionLockOne (mutex : Nat) : Code OffsetStoreStatus := do
  let result ← Prog.request (.mutexLock mutex)
  if result = eownerdead then
    let consistent ← Prog.request (.mutexConsistent mutex)
    if consistent ≠ 0 then return .systemError
    let unlocked ← Prog.request (.mutexUnlock mutex)
    if unlocked ≠ 0 then return .systemError
    return .invalidState
  if result ≠ 0 then return .systemError
  return .ok

/-- One request that succeeds with result 0: the lock and unlock helpers without
   an owner-death case. -/
def lockRequest (call : Sys) : Code OffsetStoreStatus := do
  let result ← Prog.request call
  if result ≠ 0 then return .systemError
  return .ok

def shmRegionUnlockOne (mutex : Nat) : Code OffsetStoreStatus := lockRequest (.mutexUnlock mutex)
def shmRegionWrlockOne (rwlock : Nat) : Code OffsetStoreStatus := lockRequest (.rwlockWrlock rwlock)
def shmRegionRdlockOne (rwlock : Nat) : Code OffsetStoreStatus := lockRequest (.rwlockRdlock rwlock)
def shmRegionRwunlockOne (rwlock : Nat) : Code OffsetStoreStatus :=
  lockRequest (.rwlockUnlock rwlock)

/-- The lock accessors return NULL when the region has no mapping. -/
def withLock (region : ShmRegion) (lock : Code OffsetStoreStatus) : Code OffsetStoreStatus :=
  match shmRegionHeaderMut region with
  | none => return .invalidState
  | some _ => lock

def shmRegionAllocatorLock (region : ShmRegion) : Code OffsetStoreStatus :=
  withLock region (shmRegionLockOne RegionHeader.allocatorMutex)
def shmRegionAllocatorUnlock (region : ShmRegion) : Code OffsetStoreStatus :=
  withLock region (shmRegionUnlockOne RegionHeader.allocatorMutex)
def tableLock (table : EntryTable) (region : ShmRegion) : Code OffsetStoreStatus :=
  withLock region (shmRegionWrlockOne table.rwlock)
def tableReadLock (table : EntryTable) (region : ShmRegion) : Code OffsetStoreStatus :=
  withLock region (shmRegionRdlockOne table.rwlock)
def tableUnlock (table : EntryTable) (region : ShmRegion) : Code OffsetStoreStatus :=
  withLock region (shmRegionRwunlockOne table.rwlock)

def shmRegionRootsLock : ShmRegion → Code OffsetStoreStatus := tableLock rootTable
def shmRegionRootsReadLock : ShmRegion → Code OffsetStoreStatus := tableReadLock rootTable
def shmRegionRootsUnlock : ShmRegion → Code OffsetStoreStatus := tableUnlock rootTable
def shmRegionIndexLock : ShmRegion → Code OffsetStoreStatus := tableLock indexTable
def shmRegionIndexReadLock : ShmRegion → Code OffsetStoreStatus := tableReadLock indexTable
def shmRegionIndexUnlock : ShmRegion → Code OffsetStoreStatus := tableUnlock indexTable

def tableEntry (table : EntryTable) (header index : Nat) : Nat :=
  add64 header (table.offset + TableEntry.sizeof * index)

/-- strcmp against the name of an entry: it stops at the first difference or at the
   terminating zero of the searched name. -/
def entryNameEquals (region : ShmRegion) (entry : Nat) : Nat → List UInt8 → Code Bool
  | index, [] => do
    let byte ← region.load8 entry (TableEntry.name + index)
    return decide (byte = 0)
  | index, c :: cs => do
    let byte ← region.load8 entry (TableEntry.name + index)
    if byte ≠ c.toNat then return false
    entryNameEquals region entry (index + 1) cs

def findEntry (table : EntryTable) (region : ShmRegion) (header : Nat) (name : CString) :
    Nat → Code (Option Nat)
  | 0 => return none
  | left + 1 => do
    let entry := tableEntry table header (table.capacity - (left + 1))
    let inUse ← region.load8 entry TableEntry.inUse
    if inUse ≠ 0 then
      let found ← entryNameEquals region entry 0 name.bytes
      if found then return some entry
      findEntry table region header name left
    else findEntry table region header name left

def findFreeEntry (table : EntryTable) (region : ShmRegion) (header : Nat) :
    Nat → Code (Option Nat)
  | 0 => return none
  | left + 1 => do
    let entry := tableEntry table header (table.capacity - (left + 1))
    let inUse ← region.load8 entry TableEntry.inUse
    if inUse = 0 then return some entry
    findFreeEntry table region header left

def shmRegionFindRoot (region : ShmRegion) (header : Nat) (name : CString) : Code (Option Nat) :=
  findEntry rootTable region header name rootTable.capacity
def shmRegionFindFreeRoot (region : ShmRegion) (header : Nat) : Code (Option Nat) :=
  findFreeEntry rootTable region header rootTable.capacity
def shmRegionFindIndexEntry (region : ShmRegion) (header : Nat) (key : CString) :
    Code (Option Nat) :=
  findEntry indexTable region header key indexTable.capacity
def shmRegionFindFreeIndexEntry (region : ShmRegion) (header : Nat) : Code (Option Nat) :=
  findFreeEntry indexTable region header indexTable.capacity

def clearEntryText (region : ShmRegion) (entry : Nat) : Code Unit := do
  region.copyIn entry TableEntry.reserved (List.replicate 7 0)
  region.copyIn entry TableEntry.name (List.replicate TableEntry.nameLength 0)

/-- The entry update of a put, between the lock and the checksum refresh. -/
def putEntry (table : EntryTable) (region : ShmRegion) (header : Nat) (name : CString)
    (object : Nat) : Code (Except OffsetStoreStatus Unit) := do
  let existing ← findEntry table region header name table.capacity
  let slot ← match existing with
    | some entry => pure (some entry)
    | none => findFreeEntry table region header table.capacity
  match slot with
  | none => return .error .outOfMemory
  | some entry => do
    region.store8 entry TableEntry.inUse 1
    clearEntryText region entry
    region.copyIn entry TableEntry.name name.bytes
    region.store64 entry TableEntry.object object
    return .ok ()

/-- The entry update of a removal. -/
def removeEntry (table : EntryTable) (region : ShmRegion) (header : Nat) (name : CString) :
    Code (Except OffsetStoreStatus Unit) := do
  let existing ← findEntry table region header name table.capacity
  match existing with
  | none => return .error .notFound
  | some entry => do
    region.store8 entry TableEntry.inUse 0
    clearEntryText region entry
    region.store64 entry TableEntry.object offsetPtrNull
    return .ok ()

/-- Publication under the write lock of the table: update the entry, refresh the
   checksum, unlock. -/
def publish (table : EntryTable) (region : ShmRegion)
    (update : Nat → Code (Except OffsetStoreStatus Unit)) : Code OffsetStoreStatus :=
  match shmRegionHeaderMut region with
  | none => return .invalidArgument
  | some header => do
    let status ← tableLock table region
    if status ≠ .ok then return status
    let updated ← update header
    match updated with
    | .error failure => do
      let _ ← tableUnlock table region
      return failure
    | .ok () => do
      shmRegionRefreshHeaderChecksum region header
      tableUnlock table region

def shmRegionSetRoot (region : ShmRegion) (name : CString) (object : Nat) :
    Code OffsetStoreStatus :=
  if !shmRegionIsRootNameValid name ∨ offsetPtrIsNull object then return .invalidArgument
  else publish rootTable region fun header => putEntry rootTable region header name object

def shmRegionRemoveRoot (region : ShmRegion) (name : CString) : Code OffsetStoreStatus :=
  if !shmRegionIsRootNameValid name then return .invalidArgument
  else publish rootTable region fun header => removeEntry rootTable region header name

def shmRegionIndexPut (region : ShmRegion) (key : CString) (object : Nat) :
    Code OffsetStoreStatus :=
  if !shmRegionIsIndexKeyValid key ∨ offsetPtrIsNull object then return .invalidArgument
  else publish indexTable region fun header => putEntry indexTable region header key object

def shmRegionIndexRemove (region : ShmRegion) (key : CString) : Code OffsetStoreStatus :=
  if !shmRegionIsIndexKeyValid key then return .invalidArgument
  else publish indexTable region fun header => removeEntry indexTable region header key

/-- A lookup under the read lock of the table; the out-parameter is returned beside the status. -/
def getEntry (table : EntryTable) (region : ShmRegion) (name : CString) :
    Code (OffsetStoreStatus × Option Nat) :=
  match shmRegionHeader region with
  | none => return (.invalidArgument, none)
  | some header => do
    let status ← tableReadLock table region
    if status ≠ .ok then return (status, none)
    let existing ← findEntry table region header name table.capacity
    match existing with
    | none => do
      let _ ← tableUnlock table region
      return (.notFound, none)
    | some entry => do
      let object ← region.load64 entry TableEntry.object
      let status ← tableUnlock table region
      return (status, some object)

def shmRegionGetRoot (region : ShmRegion) (name : CString) : Code (OffsetStoreStatus × Option Nat) :=
  if !shmRegionIsRootNameValid name then return (.invalidArgument, none)
  else getEntry rootTable region name

def shmRegionIndexGet (region : ShmRegion) (key : CString) : Code (OffsetStoreStatus × Option Nat) :=
  if !shmRegionIsIndexKeyValid key then return (.invalidArgument, none)
  else getEntry indexTable region key

def shmRegionIndexContains (region : ShmRegion) (key : CString) :
    Code (OffsetStoreStatus × Option Bool) :=
  if !shmRegionIsIndexKeyValid key then return (.invalidArgument, none)
  else
    match shmRegionHeader region with
    | none => return (.invalidArgument, none)
    | some header => do
      let status ← tableReadLock indexTable region
      if status ≠ .ok then return (status, none)
      let existing ← shmRegionFindIndexEntry region header key
      let status ← tableUnlock indexTable region
      return (status, some existing.isSome)

/-- Clearing the entries of a table one after the other. -/
def initTable (table : EntryTable) (region : ShmRegion) (header : Nat) : Nat → Code Unit
  | 0 => return ()
  | left + 1 => do
    let entry := tableEntry table header (table.capacity - (left + 1))
    region.store8 entry TableEntry.inUse 0
    clearEntryText region entry
    region.store64 entry TableEntry.object offsetPtrNull
    initTable table region header left

def shmRegionInitRoots (region : ShmRegion) (header : Nat) : Code Unit :=
  initTable rootTable region header rootTable.capacity
def shmRegionInitIndex (region : ShmRegion) (header : Nat) : Code Unit :=
  initTable indexTable region header indexTable.capacity

def shmRegionInitOneMutex (mutex : Nat) : Code OffsetStoreStatus := do
  let attr ← Prog.request .mutexattrInit
  if attr ≠ 0 then return .systemError
  let pshared ← Prog.request .mutexattrSetpshared
  if pshared ≠ 0 then
    Prog.perform .mutexattrDestroy
    return .systemError
  let robust ← Prog.request .mutexattrSetrobust
  if robust ≠ 0 then
    Prog.perform .mutexattrDestroy
    return .systemError
  let init ← Prog.request (.mutexInit mutex)
  Prog.perform .mutexattrDestroy
  if init ≠ 0 then return .systemError
  return .ok

def shmRegionInitOneRwlock (rwlock : Nat) : Code OffsetStoreStatus := do
  let attr ← Prog.request .rwlockattrInit
  if attr ≠ 0 then return .systemError
  let pshared ← Prog.request .rwlockattrSetpshared
  if pshared ≠ 0 then
    Prog.perform .rwlockattrDestroy
    return .systemError
  let init ← Prog.request (.rwlockInit rwlock)
  Prog.perform .rwlockattrDestroy
  if init ≠ 0 then return .systemError
  return .ok

def shmRegionInitMutexes : Code OffsetStoreStatus := do
  let status ← shmRegionInitOneMutex RegionHeader.allocatorMutex
  if status ≠ .ok then return status
  let status ← shmRegionInitOneRwlock RegionHeader.rootsRwlock
  if status ≠ .ok then return status
  shmRegionInitOneRwlock RegionHeader.indexRwlock

/-- The descriptor is returned beside the status: a failed system call leaves it as it is. -/
def shmRegionClose (region : ShmRegion) : Code (OffsetStoreStatus × ShmRegion) := do
  let unmapped ← if region.base ≠ 0 then Prog.request .munmap else pure 0
  if unmapped ≠ 0 then return (.systemError, region)
  let closed ← if region.fd ≥ 0 then Prog.request .close else pure 0
  if closed ≠ 0 then return (.systemError, region)
  return (.ok, shmRegionReset)

/-- The writes of shm_region_create up to the initialisation of the locks. -/
def writeRegionHeader (region : ShmRegion) (header : Nat) : Code Unit := do
  region.copyIn header 0 (List.replicate RegionHeader.sizeof 0)
  region.store64 header RegionHeader.magic regionMagic
  region.store32 header RegionHeader.version regionVersion
  region.store32 header RegionHeader.stateFlags stateInitializing
  region.store64 header RegionHeader.generation 1
  region.store64 header RegionHeader.totalSize region.size
  shmRegionInitRoots region header
  shmRegionInitIndex region header

def shmRegionCreate (size : Nat) : Code (OffsetStoreStatus × ShmRegion) := do
  if !shmRegionIsSizeValid size then return (.invalidArgument, shmRegionReset)
  let fd ← Prog.request .shmOpen
  if fd < 0 then
    let errno ← Prog.request .errno
    if errno = eexist then return (.alreadyExists, shmRegionReset)
    return (.systemError, shmRegionReset)
  let truncated ← Prog.request (.ftruncate size)
  if truncated ≠ 0 then
    Prog.perform .close
    Prog.perform .shmUnlink
    return (.systemError, shmRegionReset)
  let (mapped, region) ← shmRegionMapFd shmRegionReset fd size true
  if !mapped then
    Prog.perform .close
    Prog.perform .shmUnlink
    return (.systemError, region)
  let header := region.base
  writeRegionHeader region header
  let status ← shmRegionInitMutexes
  if status ≠ .ok then
    let (_, region) ← shmRegionClose region
    Prog.perform .shmUnlink
    return (status, region)
  region.store32 header RegionHeader.stateFlags stateReady
  shmRegionRefreshHeaderChecksum region header
  return (.ok, region)

def shmRegionOpen : Code (OffsetStoreStatus × ShmRegion) := do
  let fd ← Prog.request .shmOpen
  if fd < 0 then
    let errno ← Prog.request .errno
    if errno = enoent then return (.notFound, shmRegionReset)
    return (.systemError, shmRegionReset)
  let stat ← Prog.request .fstat
  let size ← if stat = 0 then Prog.request .statSize else pure 0
  if stat ≠ 0 ∨ size ≤ 0 then
    Prog.perform .close
    return (.systemError, shmRegionReset)
  let (mapped, region) ← shmRegionMapFd shmRegionReset fd size.toNat false
  if !mapped then
    Prog.perform .close
    return (.systemError, region)
  let valid ← shmRegionValidateHeader region
  if !valid then
    let (_, region) ← shmRegionClose region
    return (.invalidState, region)
  return (.ok, region)

def shmRegionUnlink : Code OffsetStoreStatus := do
  let result ← Prog.request .shmUnlink
  if result ≠ 0 then
    let errno ← Prog.request .errno
    if errno = enoent then return .notFound
    return .systemError
  return .ok

end OffsetStore
