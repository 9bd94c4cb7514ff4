import OffsetStore.ObjectStore

/- dynarray.c, and what the containers share. A container is an object whose own
   fields begin at the handle, where the object header lies. A NULL element or
   out-parameter has no counterpart; the bytes at `elem` are those of the caller's
   memory. A field that is read twice with no call in between is read once. -/
namespace OffsetStore
open ByteMemory Program Words

/- The lock helpers of the containers differ in the place of the mutex only. -/
def containerLock (mutex : Nat) : Code Unit := do
  let rc ← Prog.request (.mutexLock mutex)
  if rc = eownerdead then
    Prog.perform (.mutexConsistent mutex)

def containerUnlock (mutex : Nat) : Code Unit := Prog.perform (.mutexUnlock mutex)

def containerInitLock (mutex : Nat) : Code Unit := do
  Prog.perform .mutexattrInit
  Prog.perform .mutexattrSetpshared
  Prog.perform .mutexattrSetrobust
  Prog.perform (.mutexInit mutex)
  Prog.perform .mutexattrDestroy

namespace DynArrayHeader
@[simp] def capacity : Nat := 0
@[simp] def length : Nat := 8
@[simp] def elemSize : Nat := 16
@[simp] def dataOffset : Nat := 24
@[simp] def lock : Nat := 32
@[simp] def sizeof : Nat := 72
end DynArrayHeader

def dynarrayResolveHeader (region : ShmRegion) (arrOffset : Nat) : Option Nat :=
  offsetPtrTryResolve region.base region.size arrOffset DynArrayHeader.sizeof

def dynarrayMutex (region : ShmRegion) (hdr : Nat) : Nat :=
  region.offsetOf (add64 hdr DynArrayHeader.lock)

def dynarrayLock (region : ShmRegion) (hdr : Nat) : Code Unit := containerLock (dynarrayMutex region hdr)
def dynarrayUnlock (region : ShmRegion) (hdr : Nat) : Code Unit := containerUnlock (dynarrayMutex region hdr)

def dynarrayCreate (fuel : Nat) (region : ShmRegion) (elemSize : Nat) : Code Nat :=
  if elemSize = 0 then return offsetPtrNull
  else do
    let object ← objectStoreAlloc fuel region 1 DynArrayHeader.sizeof
    match object with
    | .error _ => return offsetPtrNull
    | .ok hdrPtr =>
      match dynarrayResolveHeader region hdrPtr with
      | none => return offsetPtrNull
      | some hdr => do
        region.store64 hdr DynArrayHeader.capacity 0
        region.store64 hdr DynArrayHeader.length 0
        region.store64 hdr DynArrayHeader.elemSize elemSize
        region.store64 hdr DynArrayHeader.dataOffset offsetPtrNull
        containerInitLock (dynarrayMutex region hdr)
        return hdrPtr

/-- The release of the payload buffer, in dynarray_grow and in dynarray_destroy. -/
def dynarrayFreeBuffer (region : ShmRegion) (hdr : Nat) : Code Unit := do
  let dataOffset ← region.load64 hdr DynArrayHeader.dataOffset
  if offsetPtrIsNull dataOffset then return ()
  let capacity ← region.load64 hdr DynArrayHeader.capacity
  let elemSize ← region.load64 hdr DynArrayHeader.elemSize
  match offsetPtrTryResolve region.base region.size dataOffset (mul64 capacity elemSize) with
  | none => return ()
  | some payload => do
    let _ ← allocatorFree region payload
    return ()

def dynarrayDestroy (fuel : Nat) (region : ShmRegion) (arrOffset : Nat) : Code Unit :=
  match dynarrayResolveHeader region arrOffset with
  | none => return ()
  | some hdr => do
    dynarrayLock region hdr
    dynarrayFreeBuffer region hdr
    dynarrayUnlock region hdr
    Prog.perform (.mutexDestroy (dynarrayMutex region hdr))
    let _ ← objectStoreFree fuel region arrOffset
    return ()

/-- The copy of the elements into the new buffer of dynarray_grow. -/
def dynarrayCopyElements (region : ShmRegion) (hdr newBuf : Nat) : Code Unit := do
  let length ← region.load64 hdr DynArrayHeader.length
  let dataOffset ← region.load64 hdr DynArrayHeader.dataOffset
  if length = 0 ∨ offsetPtrIsNull dataOffset then return ()
  let elemSize ← region.load64 hdr DynArrayHeader.elemSize
  match offsetPtrTryResolve region.base region.size dataOffset (mul64 length elemSize) with
  | none => return ()
  | some oldBuf => do
    let bytes ← region.copyOut oldBuf 0 (mul64 length elemSize)
    region.copyIn newBuf 0 bytes

def dynarrayGrow (fuel : Nat) (region : ShmRegion) (hdr newCap : Nat) : Code Int := do
  let elemSize ← region.load64 hdr DynArrayHeader.elemSize
  let storage ← allocatorAlloc fuel region (mul64 newCap elemSize) 16
  match storage with
  | .error _ => return -1
  | .ok newBuf => do
    dynarrayCopyElements region hdr newBuf
    dynarrayFreeBuffer region hdr
    match offsetPtrTryFromRaw region.base region.size newBuf with
    | none => do
      let _ ← allocatorFree region newBuf
      return -1
    | some newOffset => do
      region.store64 hdr DynArrayHeader.dataOffset newOffset
      region.store64 hdr DynArrayHeader.capacity newCap
      return 0

def dynarrayReserve (fuel : Nat) (region : ShmRegion) (arrOffset newCap : Nat) : Code Int :=
  match dynarrayResolveHeader region arrOffset with
  | none => return -1
  | some hdr => do
    dynarrayLock region hdr
    let capacity ← region.load64 hdr DynArrayHeader.capacity
    if newCap ≤ capacity then
      dynarrayUnlock region hdr
      return 0
    else
      let res ← dynarrayGrow fuel region hdr newCap
      dynarrayUnlock region hdr
      return res

/-- dynarray_push from the point where the buffer has room for the element. -/
def dynarrayAppend (region : ShmRegion) (hdr : Nat) (elem : Mem) : Code Int := do
  let dataOffset ← region.load64 hdr DynArrayHeader.dataOffset
  let length ← region.load64 hdr DynArrayHeader.length
  let elemSize ← region.load64 hdr DynArrayHeader.elemSize
  match offsetPtrTryResolve region.base region.size dataOffset (mul64 (add64 length 1) elemSize) with
  | none => do
    dynarrayUnlock region hdr
    return -1
  | some buf => do
    region.copyIn buf (mul64 length elemSize) (loadBytes elem 0 elemSize)
    region.store64 hdr DynArrayHeader.length (add64 length 1)
    dynarrayUnlock region hdr
    return 0

def dynarrayPush (fuel : Nat) (region : ShmRegion) (arrOffset : Nat) (elem : Mem) : Code Int :=
  match dynarrayResolveHeader region arrOffset with
  | none => return -1
  | some hdr => do
    dynarrayLock region hdr
    let length ← region.load64 hdr DynArrayHeader.length
    let capacity ← region.load64 hdr DynArrayHeader.capacity
    if length = capacity then
      let res ← dynarrayGrow fuel region hdr (if capacity ≠ 0 then mul64 capacity 2 else 4)
      if res ≠ 0 then
        dynarrayUnlock region hdr
        return -1
      else dynarrayAppend region hdr elem
    else dynarrayAppend region hdr elem

/-- The copied element, or none where the source returns -1. -/
def dynarrayGet (region : ShmRegion) (arrOffset index : Nat) : Code (Option (List UInt8)) :=
  match dynarrayResolveHeader region arrOffset with
  | none => return none
  | some hdr => do
    dynarrayLock region hdr
    let length ← region.load64 hdr DynArrayHeader.length
    if index ≥ length then
      dynarrayUnlock region hdr
      return none
    else
      let dataOffset ← region.load64 hdr DynArrayHeader.dataOffset
      let elemSize ← region.load64 hdr DynArrayHeader.elemSize
      match offsetPtrTryResolve region.base region.size dataOffset (mul64 length elemSize) with
      | none => do
        dynarrayUnlock region hdr
        return none
      | some buf => do
        let bytes ← region.copyOut buf (mul64 index elemSize) elemSize
        dynarrayUnlock region hdr
        return some bytes

def dynarrayLength (region : ShmRegion) (arrOffset : Nat) : Code Nat :=
  match dynarrayResolveHeader region arrOffset with
  | none => return 0
  | some hdr => do
    dynarrayLock region hdr
    let len ← region.load64 hdr DynArrayHeader.length
    dynarrayUnlock region hdr
    return len

end OffsetStore
