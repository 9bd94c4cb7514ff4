import OffsetStore.DynArray

/- hashtable.c. A NULL key, value or out-parameter has no counterpart, as for the other
   containers; char is signed, as on x86-64. The loop that looks a key up is the same in
   put, get and delete and leaves by `break` at an entry that does not resolve; only
   delete uses the entry before the one found. -/
namespace OffsetStore
open ByteMemory Program Words

namespace HashTableHeader
@[simp] def numBuckets : Nat := 0
@[simp] def keySize : Nat := 8
@[simp] def valSize : Nat := 16
@[simp] def buckets : Nat := 24
@[simp] def lock : Nat := 32
@[simp] def sizeof : Nat := 72
end HashTableHeader

namespace HashTableEntry
@[simp] def keyOffset : Nat := 0
@[simp] def valueOffset : Nat := 8
@[simp] def next : Nat := 16
@[simp] def sizeof : Nat := 24
end HashTableEntry

def hashtableResolveHeader (region : ShmRegion) (tblOffset : Nat) : Option Nat :=
  offsetPtrTryResolve region.base region.size tblOffset HashTableHeader.sizeof

def hashtableMutex (region : ShmRegion) (hdr : Nat) : Nat :=
  region.offsetOf (add64 hdr HashTableHeader.lock)

def hashtableLock (region : ShmRegion) (hdr : Nat) : Code Unit := containerLock (hashtableMutex region hdr)
def hashtableUnlock (region : ShmRegion) (hdr : Nat) : Code Unit := containerUnlock (hashtableMutex region hdr)

/-- A signed char, converted to uint64_t. -/
def charWord (c : UInt8) : Nat := if c.toNat < 128 then c.toNat else 2 ^ 64 - 256 + c.toNat

def hashtableHash (key : CString) (numBuckets : Nat) : Nat :=
  key.bytes.foldl (fun h c => add64 (add64 (mul64 h 32) h) (charWord c)) 5381 % numBuckets

def hashtableAllocString (fuel : Nat) (region : ShmRegion) (str : CString) (maxLen : Nat) : Code Nat := do
  let len := if str.bytes.length > maxLen then maxLen else str.bytes.length
  let total := add64 (add64 4 len) 1
  let storage ← allocatorAlloc fuel region total 16
  match storage with
  | .error _ => return offsetPtrNull
  | .ok ptr => do
    region.store32 ptr 0 (len % 2 ^ 32)
    region.copyIn ptr 4 (str.bytes.take len)
    region.store8 ptr (4 + len) 0
    match offsetPtrTryFromRaw region.base region.size ptr with
    | none => do
      let _ ← allocatorFree region ptr
      return offsetPtrNull
    | some off => return off

/-- The address of the characters. -/
def hashtableResolveString (region : ShmRegion) (strOff : Nat) : Code (Option Nat) :=
  match offsetPtrTryResolve region.base region.size strOff 4 with
  | none => return none
  | some raw => do
    let len ← region.load32 raw 0
    match offsetPtrTryResolve region.base region.size strOff (add64 (add64 4 len) 1) with
    | none => return none
    | some raw => return some (add64 raw 4)

/-- Where the lengths agree, strncmp compares all characters of the second key. -/
def hashtableKeysEqual (region : ShmRegion) (key1Off : Nat) (key2 : CString) : Code Bool := do
  let resolved ← hashtableResolveString region key1Off
  match resolved with
  | none => return false
  | some key1 => do
    let len1 ← region.load32 (sub64 key1 4) 0
    if len1 ≠ key2.bytes.length then return false
    let chars ← region.copyOut key1 0 len1
    return decide (chars = key2.bytes)

def hashtableFreeString (region : ShmRegion) (strOff : Nat) : Code Unit :=
  match offsetPtrTryResolve region.base region.size strOff 4 with
  | none => return ()
  | some raw => do
    let _ ← allocatorFree region raw
    return ()

def hashtableAllocEntry (fuel : Nat) (region : ShmRegion) (keyOff valOff nextOff : Nat) : Code Nat := do
  let storage ← allocatorAlloc fuel region HashTableEntry.sizeof 16
  match storage with
  | .error _ => return offsetPtrNull
  | .ok ptr => do
    region.store64 ptr HashTableEntry.keyOffset keyOff
    region.store64 ptr HashTableEntry.valueOffset valOff
    region.store64 ptr HashTableEntry.next nextOff
    match offsetPtrTryFromRaw region.base region.size ptr with
    | none => do
      let _ ← allocatorFree region ptr
      return offsetPtrNull
    | some off => return off

/-- The exits of hashtable_create after its mutex exists. -/
def hashtableAbandon (fuel : Nat) (region : ShmRegion) (hdr hdrPtr : Nat) : Code Nat := do
  Prog.perform (.mutexDestroy (hashtableMutex region hdr))
  let _ ← objectStoreFree fuel region hdrPtr
  return offsetPtrNull

def hashtableCreate (fuel : Nat) (region : ShmRegion) (numBuckets keySize valSize : Nat) : Code Nat :=
  if numBuckets = 0 ∨ keySize = 0 ∨ valSize = 0 then return offsetPtrNull
  else do
    let object ← objectStoreAlloc fuel region 1 HashTableHeader.sizeof
    match object with
    | .error _ => return offsetPtrNull
    | .ok hdrPtr =>
      match hashtableResolveHeader region hdrPtr with
      | none => return offsetPtrNull
      | some hdr => do
        region.store64 hdr HashTableHeader.numBuckets numBuckets
        region.store64 hdr HashTableHeader.keySize keySize
        region.store64 hdr HashTableHeader.valSize valSize
        region.store64 hdr HashTableHeader.buckets offsetPtrNull
        containerInitLock (hashtableMutex region hdr)
        let bucketArrSize := mul64 numBuckets 8
        let storage ← allocatorAlloc fuel region bucketArrSize 16
        match storage with
        | .error _ => hashtableAbandon fuel region hdr hdrPtr
        | .ok bucketPtr => do
          region.copyIn bucketPtr 0 (List.replicate bucketArrSize 0)
          match offsetPtrTryFromRaw region.base region.size bucketPtr with
          | none => do
            let _ ← allocatorFree region bucketPtr
            hashtableAbandon fuel region hdr hdrPtr
          | some off => do
            region.store64 hdr HashTableHeader.buckets off
            return hdrPtr

/-- The bucket array, as every call resolves it. -/
def hashtableBuckets (region : ShmRegion) (hdr : Nat) : Code (Option Nat) := do
  let offset ← region.load64 hdr HashTableHeader.buckets
  let numBuckets ← region.load64 hdr HashTableHeader.numBuckets
  return offsetPtrTryResolve region.base region.size offset (mul64 numBuckets 8)

/-- The release of a value buffer, if its offset resolves. -/
def hashtableFreeValue (region : ShmRegion) (hdr entry : Nat) : Code Unit := do
  let value ← region.load64 entry HashTableEntry.valueOffset
  if offsetPtrIsNull value then return ()
  let valSize ← region.load64 hdr HashTableHeader.valSize
  match offsetPtrTryResolve region.base region.size value valSize with
  | none => return ()
  | some raw => do
    let _ ← allocatorFree region raw
    return ()

def hashtableFreeKey (region : ShmRegion) (entry : Nat) : Code Unit := do
  let key ← region.load64 entry HashTableEntry.keyOffset
  if offsetPtrIsNull key then return ()
  hashtableFreeString region key

/-- The chain of one bucket in hashtable_destroy. -/
def hashtableFreeChain (region : ShmRegion) (hdr : Nat) : Nat → Nat → Code Unit
  | 0, _ => .spin
  | fuel + 1, entryOff =>
    if offsetPtrIsNull entryOff then return ()
    else
      match offsetPtrTryResolve region.base region.size entryOff HashTableEntry.sizeof with
      | none => return ()
      | some entry => do
        let next ← region.load64 entry HashTableEntry.next
        hashtableFreeKey region entry
        hashtableFreeValue region hdr entry
        let _ ← allocatorFree region entry
        hashtableFreeChain region hdr fuel next

/-- The loop of hashtable_destroy over the buckets from i on. -/
def hashtableFreeChains (chainFuel : Nat) (region : ShmRegion) (hdr buckets : Nat) : Nat → Nat → Code Unit
  | 0, _ => .spin
  | fuel + 1, i => do
    let numBuckets ← region.load64 hdr HashTableHeader.numBuckets
    if i < numBuckets then
      let entryOff ← region.load64 buckets (mul64 8 i)
      hashtableFreeChain region hdr chainFuel entryOff
      hashtableFreeChains chainFuel region hdr buckets fuel (add64 i 1)
    else return ()

def hashtableDestroy (fuel : Nat) (region : ShmRegion) (tableOffset : Nat) : Code Unit :=
  match hashtableResolveHeader region tableOffset with
  | none => return ()
  | some hdr => do
    hashtableLock region hdr
    let buckets ← hashtableBuckets region hdr
    match buckets with
    | none => hashtableUnlock region hdr
    | some buckets => do
      hashtableFreeChains fuel region hdr buckets fuel 0
      let _ ← allocatorFree region buckets
      hashtableUnlock region hdr
      Prog.perform (.mutexDestroy (hashtableMutex region hdr))
      let _ ← objectStoreFree fuel region tableOffset
      return ()

/-- The entry that holds the key, from one entry of its chain on, and the offset of the
    entry before it. -/
def hashtableFind (region : ShmRegion) (key : CString) : Nat → Nat → Nat → Code (Option (Nat × Nat))
  | 0, _, _ => .spin
  | fuel + 1, prevOff, entryOff =>
    if offsetPtrIsNull entryOff then return none
    else
      match offsetPtrTryResolve region.base region.size entryOff HashTableEntry.sizeof with
      | none => return none
      | some entry => do
        let keyOffset ← region.load64 entry HashTableEntry.keyOffset
        let equal ← hashtableKeysEqual region keyOffset key
        if equal then return some (prevOff, entry)
        let next ← region.load64 entry HashTableEntry.next
        hashtableFind region key fuel entryOff next

/-- The search of put, get and delete: the address of the key's cell in the bucket array,
    and what the chain that begins there has for the key. -/
def hashtableLookup (fuel : Nat) (region : ShmRegion) (hdr : Nat) (key : CString) :
    Code (Option (Nat × Option (Nat × Nat))) := do
  let numBuckets ← region.load64 hdr HashTableHeader.numBuckets
  let idx := hashtableHash key numBuckets
  let buckets ← hashtableBuckets region hdr
  match buckets with
  | none => return none
  | some buckets => do
    let cell := add64 buckets (mul64 8 idx)
    let entryOff ← region.load64 cell 0
    let found ← hashtableFind region key fuel offsetPtrNull entryOff
    return some (cell, found)

/-- hashtable_put for a key that the table has. -/
def hashtableUpdate (fuel : Nat) (region : ShmRegion) (hdr entry : Nat) (value : Mem) : Code Int := do
  hashtableFreeValue region hdr entry
  let valSize ← region.load64 hdr HashTableHeader.valSize
  let storage ← allocatorAlloc fuel region valSize 16
  match storage with
  | .error _ => do
    hashtableUnlock region hdr
    return -1
  | .ok newVal => do
    let valSize ← region.load64 hdr HashTableHeader.valSize
    region.copyIn newVal 0 (loadBytes value 0 valSize)
    match offsetPtrTryFromRaw region.base region.size newVal with
    | none => do
      let _ ← allocatorFree region newVal
      hashtableUnlock region hdr
      return -1
    | some newValOff => do
      region.store64 entry HashTableEntry.valueOffset newValOff
      hashtableUnlock region hdr
      return 0

/-- hashtable_put for a key that the table lacks. -/
def hashtableInsert (fuel : Nat) (region : ShmRegion) (hdr cell : Nat) (key : CString) (value : Mem) : Code Int := do
  let keySize ← region.load64 hdr HashTableHeader.keySize
  let keyOff ← hashtableAllocString fuel region key keySize
  if offsetPtrIsNull keyOff then
    hashtableUnlock region hdr
    return -1
  else
    let valSize ← region.load64 hdr HashTableHeader.valSize
    let storage ← allocatorAlloc fuel region valSize 16
    match storage with
    | .error _ => do
      hashtableFreeString region keyOff
      hashtableUnlock region hdr
      return -1
    | .ok valPtr => do
      let valSize ← region.load64 hdr HashTableHeader.valSize
      region.copyIn valPtr 0 (loadBytes value 0 valSize)
      match offsetPtrTryFromRaw region.base region.size valPtr with
      | none => do
        let _ ← allocatorFree region valPtr
        hashtableFreeString region keyOff
        hashtableUnlock region hdr
        return -1
      | some valOff => do
        let head ← region.load64 cell 0
        let newEntryOff ← hashtableAllocEntry fuel region keyOff valOff head
        if offsetPtrIsNull newEntryOff then
          let _ ← allocatorFree region valPtr
          hashtableFreeString region keyOff
          hashtableUnlock region hdr
          return -1
        else
          region.store64 cell 0 newEntryOff
          hashtableUnlock region hdr
          return 0

def hashtablePut (fuel : Nat) (region : ShmRegion) (tableOffset : Nat) (key : CString) (value : Mem) : Code Int :=
  match hashtableResolveHeader region tableOffset with
  | none => return -1
  | some hdr => do
    hashtableLock region hdr
    let looked ← hashtableLookup fuel region hdr key
    match looked with
    | none => do
      hashtableUnlock region hdr
      return -1
    | some (_, some (_, entry)) => hashtableUpdate fuel region hdr entry value
    | some (cell, none) => hashtableInsert fuel region hdr cell key value

/-- The copied value, or none where the source returns -1. -/
def hashtableGet (fuel : Nat) (region : ShmRegion) (tableOffset : Nat) (key : CString) : Code (Option (List UInt8)) :=
  match hashtableResolveHeader region tableOffset with
  | none => return none
  | some hdr => do
    hashtableLock region hdr
    let looked ← hashtableLookup fuel region hdr key
    match looked with
    | some (_, some (_, entry)) => do
      let value ← region.load64 entry HashTableEntry.valueOffset
      let valSize ← region.load64 hdr HashTableHeader.valSize
      match offsetPtrTryResolve region.base region.size value valSize with
      | none => do
        hashtableUnlock region hdr
        return none
      | some raw => do
        let bytes ← region.copyOut raw 0 valSize
        hashtableUnlock region hdr
        return some bytes
    | _ => do
      hashtableUnlock region hdr
      return none

/-- The unlinking in hashtable_delete. -/
def hashtableUnlink (region : ShmRegion) (cell prevOff entry : Nat) : Code Unit :=
  if offsetPtrIsNull prevOff then do
    let next ← region.load64 entry HashTableEntry.next
    region.store64 cell 0 next
  else
    match offsetPtrTryResolve region.base region.size prevOff HashTableEntry.sizeof with
    | none => return ()
    | some prev => do
      let next ← region.load64 entry HashTableEntry.next
      region.store64 prev HashTableEntry.next next

def hashtableDelete (fuel : Nat) (region : ShmRegion) (tableOffset : Nat) (key : CString) : Code Int :=
  match hashtableResolveHeader region tableOffset with
  | none => return -1
  | some hdr => do
    hashtableLock region hdr
    let looked ← hashtableLookup fuel region hdr key
    match looked with
    | some (cell, some (prevOff, entry)) => do
      hashtableUnlink region cell prevOff entry
      hashtableFreeKey region entry
      hashtableFreeValue region hdr entry
      let _ ← allocatorFree region entry
      hashtableUnlock region hdr
      return 0
    | _ => do
      hashtableUnlock region hdr
      return -1

/-- The entries of one chain, added to the count. -/
def hashtableCountChain (region : ShmRegion) : Nat → Nat → Nat → Code Nat
  | 0, _, _ => .spin
  | fuel + 1, entryOff, count =>
    if offsetPtrIsNull entryOff then return count
    else
      match offsetPtrTryResolve region.base region.size entryOff HashTableEntry.sizeof with
      | none => return count
      | some entry => do
        let next ← region.load64 entry HashTableEntry.next
        hashtableCountChain region fuel next (add64 count 1)

def hashtableCountChains (chainFuel : Nat) (region : ShmRegion) (hdr buckets : Nat) : Nat → Nat → Nat → Code Nat
  | 0, _, _ => .spin
  | fuel + 1, i, count => do
    let numBuckets ← region.load64 hdr HashTableHeader.numBuckets
    if i < numBuckets then
      let entryOff ← region.load64 buckets (mul64 8 i)
      let count ← hashtableCountChain region chainFuel entryOff count
      hashtableCountChains chainFuel region hdr buckets fuel (add64 i 1) count
    else return count

def hashtableLength (fuel : Nat) (region : ShmRegion) (tableOffset : Nat) : Code Nat :=
  match hashtableResolveHeader region tableOffset with
  | none => return 0
  | some hdr => do
    hashtableLock region hdr
    let buckets ← hashtableBuckets region hdr
    match buckets with
    | none => do
      hashtableUnlock region hdr
      return 0
    | some buckets => do
      let count ← hashtableCountChains fuel region hdr buckets fuel 0 0
      hashtableUnlock region hdr
      return count

end OffsetStore
