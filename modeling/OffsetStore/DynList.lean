import OffsetStore.DynArray

/- dynlist.c. A node is an allocation of its own: the two links, then the element. -/
namespace OffsetStore
open ByteMemory Program Words

namespace DynListHeader
@[simp] def length : Nat := 0
@[simp] def elemSize : Nat := 8
@[simp] def head : Nat := 16
@[simp] def tail : Nat := 24
@[simp] def lock : Nat := 32
@[simp] def sizeof : Nat := 72
end DynListHeader

namespace DynListNodeHeader
@[simp] def next : Nat := 0
@[simp] def prev : Nat := 8
@[simp] def sizeof : Nat := 16
end DynListNodeHeader

def dynlistResolveHeader (region : ShmRegion) (listOffset : Nat) : Option Nat :=
  offsetPtrTryResolve region.base region.size listOffset DynListHeader.sizeof

def dynlistResolveNode (region : ShmRegion) (nodeOffset : Nat) : Option Nat :=
  offsetPtrTryResolve region.base region.size nodeOffset DynListNodeHeader.sizeof

def dynlistMutex (region : ShmRegion) (hdr : Nat) : Nat :=
  region.offsetOf (add64 hdr DynListHeader.lock)

def dynlistLock (region : ShmRegion) (hdr : Nat) : Code Unit := containerLock (dynlistMutex region hdr)
def dynlistUnlock (region : ShmRegion) (hdr : Nat) : Code Unit := containerUnlock (dynlistMutex region hdr)

def dynlistCreate (fuel : Nat) (region : ShmRegion) (elemSize : Nat) : Code Nat :=
  if elemSize = 0 then return offsetPtrNull
  else do
    let object ← objectStoreAlloc fuel region 1 DynListHeader.sizeof
    match object with
    | .error _ => return offsetPtrNull
    | .ok hdrPtr =>
      match dynlistResolveHeader region hdrPtr with
      | none => return offsetPtrNull
      | some hdr => do
        region.store64 hdr DynListHeader.length 0
        region.store64 hdr DynListHeader.elemSize elemSize
        region.store64 hdr DynListHeader.head offsetPtrNull
        region.store64 hdr DynListHeader.tail offsetPtrNull
        containerInitLock (dynlistMutex region hdr)
        return hdrPtr

/-- The walk of dynlist_destroy. It hands the element of each node to allocator_free,
    not the start of the allocation, and ignores the answer. -/
def dynlistFreeNodes (region : ShmRegion) : Nat → Nat → Code Unit
  | 0, _ => .spin
  | fuel + 1, cur =>
    if offsetPtrIsNull cur then return ()
    else
      match dynlistResolveNode region cur with
      | none => return ()
      | some node => do
        let _ ← allocatorFree region (add64 node DynListNodeHeader.sizeof)
        let next ← region.load64 node DynListNodeHeader.next
        dynlistFreeNodes region fuel next

def dynlistDestroy (fuel : Nat) (region : ShmRegion) (listOffset : Nat) : Code Unit :=
  match dynlistResolveHeader region listOffset with
  | none => return ()
  | some hdr => do
    dynlistLock region hdr
    let cur ← region.load64 hdr DynListHeader.head
    dynlistFreeNodes region fuel cur
    dynlistUnlock region hdr
    Prog.perform (.mutexDestroy (dynlistMutex region hdr))
    let _ ← objectStoreFree fuel region listOffset
    return ()

/-- The links of a node that comes after an existing one; false when that one does not
    resolve. -/
def dynlistLinkAfter (region : ShmRegion) (hdr node nodeOffset after : Nat) : Code Bool :=
  match dynlistResolveNode region after with
  | none => return false
  | some afterNode => do
    region.store64 node DynListNodeHeader.prev after
    let next ← region.load64 afterNode DynListNodeHeader.next
    region.store64 node DynListNodeHeader.next next
    region.store64 afterNode DynListNodeHeader.next nodeOffset
    let next ← region.load64 node DynListNodeHeader.next
    if offsetPtrIsNull next then
      region.store64 hdr DynListHeader.tail nodeOffset
      return true
    else
      match dynlistResolveNode region next with
      | none => return true
      | some nextNode => do
        region.store64 nextNode DynListNodeHeader.prev nodeOffset
        return true

/-- hdr->length++ -/
def dynlistCount (region : ShmRegion) (hdr : Nat) : Code Unit := do
  let length ← region.load64 hdr DynListHeader.length
  region.store64 hdr DynListHeader.length (add64 length 1)

def dynlistInsertNode (fuel : Nat) (region : ShmRegion) (hdr after : Nat) (elem : Mem) : Code Int := do
  let elemSize ← region.load64 hdr DynListHeader.elemSize
  let storage ← allocatorAlloc fuel region (add64 DynListNodeHeader.sizeof elemSize) 16
  match storage with
  | .error _ => return -1
  | .ok buf =>
    match offsetPtrTryFromRaw region.base region.size buf with
    | none => do
      let _ ← allocatorFree region buf
      return -1
    | some nodeOffset => do
      region.store64 buf DynListNodeHeader.next offsetPtrNull
      region.store64 buf DynListNodeHeader.prev offsetPtrNull
      let elemSize ← region.load64 hdr DynListHeader.elemSize
      region.copyIn buf DynListNodeHeader.sizeof (loadBytes elem 0 elemSize)
      if offsetPtrIsNull after then
        region.store64 hdr DynListHeader.head nodeOffset
        region.store64 hdr DynListHeader.tail nodeOffset
        dynlistCount region hdr
        return 0
      else
        let linked ← dynlistLinkAfter region hdr buf nodeOffset after
        if linked then
          dynlistCount region hdr
          return 0
        else
          let _ ← allocatorFree region buf
          return -1

def dynlistPushBack (fuel : Nat) (region : ShmRegion) (listOffset : Nat) (elem : Mem) : Code Int :=
  match dynlistResolveHeader region listOffset with
  | none => return -1
  | some hdr => do
    dynlistLock region hdr
    let tail ← region.load64 hdr DynListHeader.tail
    let rc ← dynlistInsertNode fuel region hdr tail elem
    dynlistUnlock region hdr
    return rc

/-- dynlist_push_front on a list that is not empty. -/
def dynlistPrepend (fuel : Nat) (region : ShmRegion) (hdr : Nat) (elem : Mem) : Code Int := do
  let elemSize ← region.load64 hdr DynListHeader.elemSize
  let storage ← allocatorAlloc fuel region (add64 DynListNodeHeader.sizeof elemSize) 16
  match storage with
  | .error _ => do
    dynlistUnlock region hdr
    return -1
  | .ok buf =>
    match offsetPtrTryFromRaw region.base region.size buf with
    | none => do
      let _ ← allocatorFree region buf
      dynlistUnlock region hdr
      return -1
    | some nodeOffset => do
      region.store64 buf DynListNodeHeader.prev offsetPtrNull
      let head ← region.load64 hdr DynListHeader.head
      region.store64 buf DynListNodeHeader.next head
      let elemSize ← region.load64 hdr DynListHeader.elemSize
      region.copyIn buf DynListNodeHeader.sizeof (loadBytes elem 0 elemSize)
      match dynlistResolveNode region head with
      | none => pure ()
      | some oldHead => region.store64 oldHead DynListNodeHeader.prev nodeOffset
      region.store64 hdr DynListHeader.head nodeOffset
      let tail ← region.load64 hdr DynListHeader.tail
      if offsetPtrIsNull tail then
        region.store64 hdr DynListHeader.tail nodeOffset
      dynlistCount region hdr
      dynlistUnlock region hdr
      return 0

def dynlistPushFront (fuel : Nat) (region : ShmRegion) (listOffset : Nat) (elem : Mem) : Code Int :=
  match dynlistResolveHeader region listOffset with
  | none => return -1
  | some hdr => do
    dynlistLock region hdr
    let head ← region.load64 hdr DynListHeader.head
    if offsetPtrIsNull head then
      let rc ← dynlistInsertNode fuel region hdr offsetPtrNull elem
      dynlistUnlock region hdr
      return rc
    else dynlistPrepend fuel region hdr elem

/-- The loop of dynlist_get; `left` steps remain. -/
def dynlistSeek (region : ShmRegion) : Nat → Nat → Code (Option Nat)
  | 0, cur => return some cur
  | left + 1, cur =>
    match dynlistResolveNode region cur with
    | none => return none
    | some node => do
      let next ← region.load64 node DynListNodeHeader.next
      dynlistSeek region left next

def dynlistGet (region : ShmRegion) (listOffset index : Nat) : Code (Option (List UInt8)) :=
  match dynlistResolveHeader region listOffset with
  | none => return none
  | some hdr => do
    dynlistLock region hdr
    let length ← region.load64 hdr DynListHeader.length
    if index ≥ length then
      dynlistUnlock region hdr
      return none
    else
      let head ← region.load64 hdr DynListHeader.head
      let cur ← dynlistSeek region index head
      match cur.bind (dynlistResolveNode region) with
      | none => do
        dynlistUnlock region hdr
        return none
      | some target => do
        let elemSize ← region.load64 hdr DynListHeader.elemSize
        let bytes ← region.copyOut target DynListNodeHeader.sizeof elemSize
        dynlistUnlock region hdr
        return some bytes

def dynlistLength (region : ShmRegion) (listOffset : Nat) : Code Nat :=
  match dynlistResolveHeader region listOffset with
  | none => return 0
  | some hdr => do
    dynlistLock region hdr
    let len ← region.load64 hdr DynListHeader.length
    dynlistUnlock region hdr
    return len

end OffsetStore
