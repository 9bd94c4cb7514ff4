import OffsetStore.DynArray

/- ringbuf.c. A NULL element or out-parameter has no counterpart, as for the other
   containers; a field that is read twice with no call in between is read once, and
   ringbuf_length reads both indices again after its unlock. -/
namespace OffsetStore
open ByteMemory Program Words

namespace RingBufHeader
@[simp] def capacity : Nat := 0
@[simp] def head : Nat := 8
@[simp] def tail : Nat := 16
@[simp] def elemSize : Nat := 24
@[simp] def dataOffset : Nat := 32
@[simp] def lock : Nat := 40
@[simp] def sizeof : Nat := 80
end RingBufHeader

def ringbufResolveHeader (region : ShmRegion) (bufOffset : Nat) : Option Nat :=
  offsetPtrTryResolve region.base region.size bufOffset RingBufHeader.sizeof

def ringbufMutex (region : ShmRegion) (hdr : Nat) : Nat :=
  region.offsetOf (add64 hdr RingBufHeader.lock)

def ringbufLock (region : ShmRegion) (hdr : Nat) : Code Unit := containerLock (ringbufMutex region hdr)
def ringbufUnlock (region : ShmRegion) (hdr : Nat) : Code Unit := containerUnlock (ringbufMutex region hdr)

def ringbufIdx (region : ShmRegion) (hdr i : Nat) : Code Nat := do
  let capacity ← region.load64 hdr RingBufHeader.capacity
  return i % capacity

/-- The exits of ringbuf_create after its mutex exists. -/
def ringbufAbandon (fuel : Nat) (region : ShmRegion) (hdr hdrPtr : Nat) : Code Nat := do
  Prog.perform (.mutexDestroy (ringbufMutex region hdr))
  let _ ← objectStoreFree fuel region hdrPtr
  return offsetPtrNull

def ringbufCreate (fuel : Nat) (region : ShmRegion) (capacity elemSize : Nat) : Code Nat :=
  if capacity < 2 ∨ elemSize = 0 then return offsetPtrNull
  else do
    let object ← objectStoreAlloc fuel region 1 RingBufHeader.sizeof
    match object with
    | .error _ => return offsetPtrNull
    | .ok hdrPtr =>
      match ringbufResolveHeader region hdrPtr with
      | none => return offsetPtrNull
      | some hdr => do
        region.store64 hdr RingBufHeader.capacity capacity
        region.store64 hdr RingBufHeader.head 0
        region.store64 hdr RingBufHeader.tail 0
        region.store64 hdr RingBufHeader.elemSize elemSize
        region.store64 hdr RingBufHeader.dataOffset offsetPtrNull
        containerInitLock (ringbufMutex region hdr)
        let dataSize := mul64 capacity elemSize
        let storage ← allocatorAlloc fuel region dataSize 16
        match storage with
        | .error _ => ringbufAbandon fuel region hdr hdrPtr
        | .ok dataPtr => do
          region.copyIn dataPtr 0 (List.replicate dataSize 0)
          match offsetPtrTryFromRaw region.base region.size dataPtr with
          | none => do
            let _ ← allocatorFree region dataPtr
            ringbufAbandon fuel region hdr hdrPtr
          | some dataOffset => do
            region.store64 hdr RingBufHeader.dataOffset dataOffset
            return hdrPtr

/-- The element buffer, as every call resolves it. -/
def ringbufData (region : ShmRegion) (hdr : Nat) : Code (Option Nat) := do
  let dataOffset ← region.load64 hdr RingBufHeader.dataOffset
  let capacity ← region.load64 hdr RingBufHeader.capacity
  let elemSize ← region.load64 hdr RingBufHeader.elemSize
  return offsetPtrTryResolve region.base region.size dataOffset (mul64 capacity elemSize)

def ringbufFreeData (region : ShmRegion) (hdr : Nat) : Code Unit := do
  let dataOffset ← region.load64 hdr RingBufHeader.dataOffset
  if offsetPtrIsNull dataOffset then return ()
  let data ← ringbufData region hdr
  match data with
  | none => return ()
  | some data => do
    let _ ← allocatorFree region data
    return ()

def ringbufDestroy (fuel : Nat) (region : ShmRegion) (bufOffset : Nat) : Code Unit :=
  match ringbufResolveHeader region bufOffset with
  | none => return ()
  | some hdr => do
    ringbufLock region hdr
    ringbufFreeData region hdr
    ringbufUnlock region hdr
    Prog.perform (.mutexDestroy (ringbufMutex region hdr))
    let _ ← objectStoreFree fuel region bufOffset
    return ()

def ringbufPush (region : ShmRegion) (bufOffset : Nat) (element : Mem) : Code Int :=
  match ringbufResolveHeader region bufOffset with
  | none => return -1
  | some hdr => do
    ringbufLock region hdr
    let tail ← region.load64 hdr RingBufHeader.tail
    let nextTail ← ringbufIdx region hdr (add64 tail 1)
    let head ← region.load64 hdr RingBufHeader.head
    if nextTail = head then
      ringbufUnlock region hdr
      return -1
    else
      let data ← ringbufData region hdr
      match data with
      | none => do
        ringbufUnlock region hdr
        return -1
      | some data => do
        let tail ← region.load64 hdr RingBufHeader.tail
        let elemSize ← region.load64 hdr RingBufHeader.elemSize
        region.copyIn data (mul64 tail elemSize) (loadBytes element 0 elemSize)
        region.store64 hdr RingBufHeader.tail nextTail
        ringbufUnlock region hdr
        return 0

/-- The element that was copied out, or none where the source returns -1. -/
def ringbufPop (region : ShmRegion) (bufOffset : Nat) : Code (Option (List UInt8)) :=
  match ringbufResolveHeader region bufOffset with
  | none => return none
  | some hdr => do
    ringbufLock region hdr
    let head ← region.load64 hdr RingBufHeader.head
    let tail ← region.load64 hdr RingBufHeader.tail
    if head = tail then
      ringbufUnlock region hdr
      return none
    else
      let data ← ringbufData region hdr
      match data with
      | none => do
        ringbufUnlock region hdr
        return none
      | some data => do
        let head ← region.load64 hdr RingBufHeader.head
        let elemSize ← region.load64 hdr RingBufHeader.elemSize
        let bytes ← region.copyOut data (mul64 head elemSize) elemSize
        let head ← region.load64 hdr RingBufHeader.head
        let nextHead ← ringbufIdx region hdr (add64 head 1)
        region.store64 hdr RingBufHeader.head nextHead
        ringbufUnlock region hdr
        return some bytes

def ringbufLength (region : ShmRegion) (bufOffset : Nat) : Code Nat :=
  match ringbufResolveHeader region bufOffset with
  | none => return 0
  | some hdr => do
    ringbufLock region hdr
    let tail ← region.load64 hdr RingBufHeader.tail
    let head ← region.load64 hdr RingBufHeader.head
    if tail ≥ head then
      ringbufUnlock region hdr
      let tail ← region.load64 hdr RingBufHeader.tail
      let head ← region.load64 hdr RingBufHeader.head
      return sub64 tail head
    else
      let capacity ← region.load64 hdr RingBufHeader.capacity
      ringbufUnlock region hdr
      return add64 (sub64 capacity head) tail

def ringbufCapacity (region : ShmRegion) (bufOffset : Nat) : Code Nat :=
  match ringbufResolveHeader region bufOffset with
  | none => return 0
  | some hdr => region.load64 hdr RingBufHeader.capacity

def ringbufIsEmpty (region : ShmRegion) (bufOffset : Nat) : Code Bool :=
  match ringbufResolveHeader region bufOffset with
  | none => return true
  | some hdr => do
    ringbufLock region hdr
    let head ← region.load64 hdr RingBufHeader.head
    let tail ← region.load64 hdr RingBufHeader.tail
    let empty := decide (head = tail)
    ringbufUnlock region hdr
    return empty

def ringbufIsFull (region : ShmRegion) (bufOffset : Nat) : Code Bool :=
  match ringbufResolveHeader region bufOffset with
  | none => return false
  | some hdr => do
    ringbufLock region hdr
    let tail ← region.load64 hdr RingBufHeader.tail
    let next ← ringbufIdx region hdr (add64 tail 1)
    let head ← region.load64 hdr RingBufHeader.head
    let full := decide (next = head)
    ringbufUnlock region hdr
    return full

/-- A ring buffer of two slots of one byte in the small region. -/
theorem ringbufCreate_small : ∃ m, Prog.exec (ringbufCreate 4096 smallRegion 2 1) initialised = some (2784, m) ∧
    load m 2784 8 = 2 ∧ load m 2808 8 = 1 ∧ load m 2816 8 = 2928 ∧ load m 2792 8 = 0 ∧ load m 2800 8 = 0 := by
  have made : (Prog.exec (ringbufCreate 4096 smallRegion 2 1) initialised).map (fun r =>
      (r.1, load r.2 2784 8, load r.2 2808 8, load r.2 2816 8, load r.2 2792 8, load r.2 2800 8)) =
      some (2784, 2, 1, 2928, 0, 0) := by decide +kernel
  obtain ⟨⟨h, m⟩, run, shown⟩ := Option.map_eq_some_iff.mp made
  simp only [Prod.mk.injEq] at shown
  obtain ⟨rfl, capacity, elemSize, data, head, tail⟩ := shown
  exact ⟨m, run, capacity, elemSize, data, head, tail⟩

end OffsetStore
