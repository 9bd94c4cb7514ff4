import OffsetStore.Allocator

/- object_store.c: objects are allocations that begin with a 16-byte header; a handle
   is the offset of the header. -/
namespace OffsetStore
open ByteMemory Program Words

namespace ObjectHeader
@[simp] def size : Nat := 0
@[simp] def type : Nat := 4
@[simp] def flags : Nat := 8
@[simp] def reserved : Nat := 12
@[simp] def sizeof : Nat := 16
end ObjectHeader

@[simp] def objectFlagFreed : Nat := 1
@[simp] def objectFreedMark : Nat := 0x46524545
@[simp] def uint32Max : Nat := 2 ^ 32 - 1

/-- The header of a live allocation with room for the payload. -/
def objectStoreResolveHeader (fuel : Nat) (region : ShmRegion) (object payloadSize : Nat) :
    Code (Option Nat) :=
  if offsetPtrIsNull object then return none
  else if payloadSize > sizeMax - ObjectHeader.sizeof then return none
  else
    let totalSize := add64 ObjectHeader.sizeof payloadSize
    match offsetPtrTryResolve region.base region.size object totalSize with
    | none => return none
    | some header => do
      let span ← allocatorGetAllocationSpan fuel region header
      match span with
      | .error _ => return none
      | .ok allocationSize =>
        if totalSize > allocationSize then return none
        else
          let flags ← region.load32 header ObjectHeader.flags
          return if flags &&& objectFlagFreed = 0 then some header else none

/-- The const and the mutable accessor of the source differ in the pointer type only. -/
def objectStoreGetHeader (fuel : Nat) (region : ShmRegion) (object : Nat) : Code (Option Nat) :=
  objectStoreResolveHeader fuel region object 0

def objectStoreGetHeaderMut (fuel : Nat) (region : ShmRegion) (object : Nat) : Code (Option Nat) :=
  objectStoreResolveHeader fuel region object 0

def objectStoreGetPayloadConst (fuel : Nat) (region : ShmRegion) (object : Nat) : Code (Option Nat) := do
  let header ← objectStoreGetHeader fuel region object
  match header with
  | none => return none
  | some header => do
    let size ← region.load32 header ObjectHeader.size
    let resolved ← objectStoreResolveHeader fuel region object size
    match resolved with
    | none => return none
    | some resolved => return some (add64 resolved ObjectHeader.sizeof)

def objectStoreGetPayload (fuel : Nat) (region : ShmRegion) (object : Nat) : Code (Option Nat) :=
  objectStoreGetPayloadConst fuel region object

def objectStoreAlloc (fuel : Nat) (region : ShmRegion) (type payloadSize : Nat) :
    Code (Except OffsetStoreStatus Nat) :=
  if payloadSize > uint32Max then return .error .invalidArgument
  else do
    let storage ← allocatorAlloc fuel region (add64 ObjectHeader.sizeof payloadSize) alignofMax
    match storage with
    | .error status => return .error status
    | .ok header => do
      region.store32 header ObjectHeader.size payloadSize
      region.store32 header ObjectHeader.type type
      region.store32 header ObjectHeader.flags 0
      region.store32 header ObjectHeader.reserved 0
      match offsetPtrTryFromRaw region.base region.size header with
      | none => return .error .invalidState
      | some object => return .ok object

def objectStoreFree (fuel : Nat) (region : ShmRegion) (object : Nat) : Code OffsetStoreStatus :=
  if offsetPtrIsNull object then return .invalidArgument
  else do
    let header ← objectStoreGetHeaderMut fuel region object
    match header with
    | none => return .notFound
    | some header => do
      let size ← region.load32 header ObjectHeader.size
      let resolved ← objectStoreResolveHeader fuel region object size
      match resolved with
      | none => return .notFound
      | some header => do
        let payloadSize ← region.load32 header ObjectHeader.size
        let flags ← region.load32 header ObjectHeader.flags
        region.store32 header ObjectHeader.flags (flags ||| objectFlagFreed)
        region.store32 header ObjectHeader.type 0
        region.store32 header ObjectHeader.reserved objectFreedMark
        region.store32 header ObjectHeader.size payloadSize
        allocatorFree region header

def objectStoreValidate (fuel : Nat) (region : ShmRegion) (object : Nat) : Code OffsetStoreStatus :=
  if offsetPtrIsNull object then return .invalidArgument
  else do
    let header ← objectStoreGetHeader fuel region object
    match header with
    | none => return .notFound
    | some header => do
      let size ← region.load32 header ObjectHeader.size
      let resolved ← objectStoreResolveHeader fuel region object size
      match resolved with
      | none => return .invalidState
      | some _ => return .ok

end OffsetStore
