import OffsetStore.DynList
import OffsetStore.RingBuf
import OffsetStore.TableRoom
import OffsetStore.LockRanks

/- The containers hold their own mutex while they allocate and free, and release it on
   every way out. -/
namespace OffsetStore
open ByteMemory Program Prog Words LockOrder

section DynArray
variable {region : ShmRegion}

theorem ranked_dynarrayCreate (fuel elemSize : Nat) : Ranked shardRank (dynarrayCreate fuel region elemSize) := by
  unfold dynarrayCreate ShmRegion.store64
  refine balanced_ite (fun _ => balanced_ret) fun _ => balanced_bind (ranked_objectAlloc _ _ _) fun object => ?_
  split
  · exact balanced_ret
  · split
    · exact balanced_ret
    · simp only [storeWord_bind]
      iterate 4 refine balanced_write ?_
      exact balanced_bind ranked_initLock fun _ => balanced_ret

theorem ranked_freeBuffer (hdr : Nat) : Ranked shardRank (dynarrayFreeBuffer region hdr) := by
  unfold dynarrayFreeBuffer ShmRegion.load64
  simp only [loadWord_bind]
  refine balanced_read fun dataOffset => balanced_ite (fun _ => balanced_ret) fun _ => ?_
  refine balanced_read fun capacity => balanced_read fun elemSize => ?_
  split
  · exact balanced_ret
  · exact balanced_bind (ranked_free _) fun _ => balanced_ret

theorem ranked_copyElements {k : Nat} (hdr newBuf : Nat) : Ranked k (dynarrayCopyElements region hdr newBuf) := by
  unfold dynarrayCopyElements ShmRegion.load64 ShmRegion.copyOut
  simp only [loadWord_bind]
  refine balanced_read fun length => balanced_read fun dataOffset => balanced_ite (fun _ => balanced_ret) fun _ => ?_
  refine balanced_read fun elemSize => ?_
  split
  · exact balanced_ret
  · exact balanced_bind (balanced_loads (loads_readBytes _ _)) fun bytes => ranked_copyIn _ _ _

theorem ranked_grow (fuel hdr newCap : Nat) : Ranked shardRank (dynarrayGrow fuel region hdr newCap) := by
  unfold dynarrayGrow ShmRegion.load64 ShmRegion.store64
  simp only [loadWord_bind, storeWord_bind]
  refine balanced_read fun elemSize => balanced_bind (ranked_alloc _ _ _) fun storage => ?_
  split
  · exact balanced_ret
  · refine balanced_bind (ranked_copyElements _ _) fun _ => balanced_bind (ranked_freeBuffer _) fun _ => ?_
    split
    · exact balanced_bind (ranked_free _) fun _ => balanced_ret
    · exact balanced_write (balanced_write balanced_ret)

theorem section_append {hdr : Nat} (elem : Mem) :
    Section containerRank (dynarrayMutex region hdr) (dynarrayAppend region hdr elem) := by
  unfold dynarrayAppend ShmRegion.load64 ShmRegion.store64
  simp only [loadWord_bind, storeWord_bind]
  refine closes_read fun dataOffset => closes_read fun length => closes_read fun elemSize => ?_
  split
  · exact section_unlocked balanced_ret
  · exact closes_bind (ranked_copyIn _ _ _) fun _ => closes_write (section_unlocked balanced_ret)

variable {arrOffset : Nat}

theorem ranked_dynarrayGet (index : Nat) : Ranked containerRank (dynarrayGet region arrOffset index) := by
  unfold dynarrayGet ShmRegion.load64 ShmRegion.copyOut
  split
  · exact balanced_ret
  · simp only [loadWord_bind]
    refine ranked_locked (closes_read fun length => closes_ite (fun _ => section_unlocked balanced_ret) fun _ => ?_)
    refine closes_read fun dataOffset => closes_read fun elemSize => ?_
    split
    · exact section_unlocked balanced_ret
    · exact closes_loads (loads_readBytes _ _) fun bytes => section_unlocked balanced_ret

theorem ranked_dynarrayLength : Ranked containerRank (dynarrayLength region arrOffset) := by
  unfold dynarrayLength ShmRegion.load64
  split
  · exact balanced_ret
  · simp only [loadWord_bind]
    exact ranked_locked (closes_read fun len => section_unlocked balanced_ret)

variable (map : region.Mapped) (placed : allocatorMetadataOffset + AllocatorHeader.sizeof ≤ arrOffset)
include map placed

theorem rank_dynarray {hdr : Nat} (resolved : dynarrayResolveHeader region arrOffset = some hdr) :
    lockRank (dynarrayMutex region hdr) = containerRank := rank_resolved map placed (by decide) resolved

theorem ranked_dynarrayDestroy (fuel : Nat) : Ranked containerRank (dynarrayDestroy fuel region arrOffset) := by
  unfold dynarrayDestroy
  split
  · exact balanced_ret
  · rename_i hdr resolved
    have low := rank_dynarray map placed resolved
    simp only [perform_bind]
    refine ranked_locked (section_heap low (ranked_freeBuffer _) fun _ => section_unlocked ?_)
    exact balanced_plain rfl fun _ => ranked_heap (ranked_objectFree _ _) fun _ => balanced_ret

theorem ranked_dynarrayReserve (fuel newCap : Nat) :
    Ranked containerRank (dynarrayReserve fuel region arrOffset newCap) := by
  unfold dynarrayReserve ShmRegion.load64
  split
  · exact balanced_ret
  · rename_i hdr resolved
    have low := rank_dynarray map placed resolved
    simp only [loadWord_bind]
    refine ranked_locked (closes_read fun capacity => closes_ite (fun _ => section_unlocked balanced_ret) fun _ => ?_)
    exact section_heap low (ranked_grow _ _ _) fun res => section_unlocked balanced_ret

theorem ranked_dynarrayPush (fuel : Nat) (elem : Mem) : Ranked containerRank (dynarrayPush fuel region arrOffset elem) := by
  unfold dynarrayPush ShmRegion.load64
  split
  · exact balanced_ret
  · rename_i hdr resolved
    have low := rank_dynarray map placed resolved
    simp only [loadWord_bind]
    refine ranked_locked (closes_read fun length => closes_read fun capacity => closes_ite (fun _ => ?_) fun _ => ?_)
    · refine section_heap low (ranked_grow _ _ _) fun res => closes_ite (fun _ => section_unlocked balanced_ret) fun _ => ?_
      exact section_append elem
    · exact section_append elem

end DynArray

section DynList
variable {region : ShmRegion}

theorem ranked_dynlistCreate (fuel elemSize : Nat) : Ranked shardRank (dynlistCreate fuel region elemSize) := by
  unfold dynlistCreate ShmRegion.store64
  refine balanced_ite (fun _ => balanced_ret) fun _ => balanced_bind (ranked_objectAlloc _ _ _) fun object => ?_
  split
  · exact balanced_ret
  · split
    · exact balanced_ret
    · simp only [storeWord_bind]
      iterate 4 refine balanced_write ?_
      exact balanced_bind ranked_initLock fun _ => balanced_ret

theorem ranked_freeNodes (fuel cur : Nat) : Ranked shardRank (dynlistFreeNodes region fuel cur) := by
  induction fuel generalizing cur with
  | zero => exact balanced_spin
  | succ fuel ih =>
    unfold dynlistFreeNodes ShmRegion.load64
    refine balanced_ite (fun _ => balanced_ret) fun _ => ?_
    split
    · exact balanced_ret
    · simp only [loadWord_bind]
      exact balanced_bind (ranked_free _) fun _ => balanced_read fun next => ih next

theorem ranked_linkAfter {k : Nat} (hdr node nodeOffset after : Nat) :
    Ranked k (dynlistLinkAfter region hdr node nodeOffset after) := by
  unfold dynlistLinkAfter ShmRegion.load64 ShmRegion.store64
  split
  · exact balanced_ret
  · simp only [loadWord_bind, storeWord_bind]
    refine balanced_write (balanced_read fun next => balanced_write (balanced_write (balanced_read fun next' => ?_)))
    refine balanced_ite (fun _ => balanced_write balanced_ret) fun _ => ?_
    split
    · exact balanced_ret
    · exact balanced_write balanced_ret

theorem ranked_count {k : Nat} (hdr : Nat) : Ranked k (dynlistCount region hdr) :=
  balanced_read fun _ => balanced_write balanced_ret

theorem ranked_insertNode (fuel hdr after : Nat) (elem : Mem) :
    Ranked shardRank (dynlistInsertNode fuel region hdr after elem) := by
  unfold dynlistInsertNode ShmRegion.load64 ShmRegion.store64
  simp only [loadWord_bind, storeWord_bind]
  refine balanced_read fun elemSize => balanced_bind (ranked_alloc _ _ _) fun storage => ?_
  split
  · exact balanced_ret
  · split
    · exact balanced_bind (ranked_free _) fun _ => balanced_ret
    · refine balanced_write (balanced_write (balanced_read fun size => balanced_bind (ranked_copyIn _ _ _) fun _ => ?_))
      refine balanced_ite (fun _ => ?_) fun _ => ?_
      · exact balanced_write (balanced_write (balanced_bind (ranked_count _) fun _ => balanced_ret))
      · refine balanced_bind (ranked_linkAfter _ _ _ _) fun linked => balanced_ite (fun _ => ?_) fun _ => ?_
        · exact balanced_bind (ranked_count _) fun _ => balanced_ret
        · exact balanced_bind (ranked_free _) fun _ => balanced_ret

/-- Every way out of the insertion before the first node releases the mutex. -/
theorem section_prepend {hdr : Nat} (low : lockRank (dynlistMutex region hdr) = containerRank) (fuel : Nat) (elem : Mem) :
    Section containerRank (dynlistMutex region hdr) (dynlistPrepend fuel region hdr elem) := by
  have last : ∀ nodeOffset, Section containerRank (dynlistMutex region hdr) (do
      region.store64 hdr DynListHeader.head nodeOffset
      let tail ← region.load64 hdr DynListHeader.tail
      if offsetPtrIsNull tail then
        region.store64 hdr DynListHeader.tail nodeOffset
      dynlistCount region hdr
      dynlistUnlock region hdr
      return 0 : Code Int) := by
    intro nodeOffset
    have counted : Section containerRank (dynlistMutex region hdr) (do
        dynlistCount region hdr
        dynlistUnlock region hdr
        return 0 : Code Int) := closes_bind (ranked_count _) fun _ => section_unlocked balanced_ret
    unfold ShmRegion.load64 ShmRegion.store64
    simp only [loadWord_bind, storeWord_bind]
    exact closes_write (closes_read fun tail => closes_ite (fun _ => closes_write counted) fun _ => counted)
  unfold dynlistPrepend
  simp only [ShmRegion.load64, ShmRegion.store64, loadWord_bind, storeWord_bind] at last ⊢
  refine closes_read fun elemSize => section_heap low (ranked_alloc _ _ _) fun storage => ?_
  split
  · exact section_unlocked balanced_ret
  · split
    · exact section_heap low (ranked_free _) fun _ => section_unlocked balanced_ret
    · refine closes_write (closes_read fun head => closes_write (closes_read fun size => ?_))
      refine closes_bind (ranked_copyIn _ _ _) fun _ => ?_
      split
      · exact last _
      · exact closes_write (last _)

theorem loads_seek (left cur : Nat) : Loads (dynlistSeek region left cur) := by
  induction left generalizing cur with
  | zero => exact loads_ret
  | succ left ih =>
    unfold dynlistSeek ShmRegion.load64
    split
    · exact loads_ret
    · simp only [loadWord_bind]
      exact loads_read fun next => ih next

variable {listOffset : Nat}

theorem ranked_dynlistGet (index : Nat) : Ranked containerRank (dynlistGet region listOffset index) := by
  unfold dynlistGet ShmRegion.load64 ShmRegion.copyOut
  split
  · exact balanced_ret
  · simp only [loadWord_bind]
    refine ranked_locked (closes_read fun length => closes_ite (fun _ => section_unlocked balanced_ret) fun _ => ?_)
    refine closes_read fun head => closes_loads (loads_seek _ _) fun cur => ?_
    split
    · exact section_unlocked balanced_ret
    · refine closes_read fun elemSize => closes_loads (loads_readBytes _ _) fun bytes => ?_
      exact section_unlocked balanced_ret

theorem ranked_dynlistLength : Ranked containerRank (dynlistLength region listOffset) := by
  unfold dynlistLength ShmRegion.load64
  split
  · exact balanced_ret
  · simp only [loadWord_bind]
    exact ranked_locked (closes_read fun len => section_unlocked balanced_ret)

variable (map : region.Mapped)
  (placed : allocatorMetadataOffset + AllocatorHeader.sizeof ≤ listOffset)
include map placed

theorem rank_dynlist {hdr : Nat} (resolved : dynlistResolveHeader region listOffset = some hdr) :
    lockRank (dynlistMutex region hdr) = containerRank := rank_resolved map placed (by decide) resolved

theorem ranked_dynlistDestroy (fuel : Nat) : Ranked containerRank (dynlistDestroy fuel region listOffset) := by
  unfold dynlistDestroy ShmRegion.load64
  split
  · exact balanced_ret
  · rename_i hdr resolved
    have low := rank_dynlist map placed resolved
    simp only [loadWord_bind, perform_bind]
    refine ranked_locked (closes_read fun cur => section_heap low (ranked_freeNodes _ _) fun _ => section_unlocked ?_)
    exact balanced_plain rfl fun _ => ranked_heap (ranked_objectFree _ _) fun _ => balanced_ret

theorem ranked_dynlistPushBack (fuel : Nat) (elem : Mem) :
    Ranked containerRank (dynlistPushBack fuel region listOffset elem) := by
  unfold dynlistPushBack ShmRegion.load64
  split
  · exact balanced_ret
  · rename_i hdr resolved
    have low := rank_dynlist map placed resolved
    simp only [loadWord_bind]
    refine ranked_locked (closes_read fun tail => section_heap low (ranked_insertNode _ _ _ _) fun rc => ?_)
    exact section_unlocked balanced_ret

theorem ranked_dynlistPushFront (fuel : Nat) (elem : Mem) :
    Ranked containerRank (dynlistPushFront fuel region listOffset elem) := by
  unfold dynlistPushFront ShmRegion.load64
  split
  · exact balanced_ret
  · rename_i hdr resolved
    have low := rank_dynlist map placed resolved
    simp only [loadWord_bind]
    refine ranked_locked (closes_read fun head => closes_ite (fun _ => ?_) fun _ => section_prepend low _ _)
    exact section_heap low (ranked_insertNode _ _ _ _) fun rc => section_unlocked balanced_ret

end DynList

section HashTable
variable {region : ShmRegion}

theorem ranked_allocString (fuel : Nat) (str : CString) (maxLen : Nat) :
    Ranked shardRank (hashtableAllocString fuel region str maxLen) := by
  unfold hashtableAllocString
  simp only [ShmRegion.store32, ShmRegion.store8, storeWord_bind]
  refine balanced_bind (ranked_alloc _ _ _) fun storage => ?_
  split
  · exact balanced_ret
  · refine balanced_write (balanced_bind (ranked_copyIn _ _ _) fun _ => balanced_write ?_)
    split
    · exact balanced_bind (ranked_free _) fun _ => balanced_ret
    · exact balanced_ret

theorem ranked_freeString (strOff : Nat) : Ranked shardRank (hashtableFreeString region strOff) := by
  unfold hashtableFreeString
  split
  · exact balanced_ret
  · exact balanced_bind (ranked_free _) fun _ => balanced_ret

theorem ranked_allocEntry (fuel keyOff valOff nextOff : Nat) :
    Ranked shardRank (hashtableAllocEntry fuel region keyOff valOff nextOff) := by
  unfold hashtableAllocEntry ShmRegion.store64
  simp only [storeWord_bind]
  refine balanced_bind (ranked_alloc _ _ _) fun storage => ?_
  split
  · exact balanced_ret
  · refine balanced_write (balanced_write (balanced_write ?_))
    split
    · exact balanced_bind (ranked_free _) fun _ => balanced_ret
    · exact balanced_ret

theorem ranked_hashtableAbandon (fuel hdr hdrPtr : Nat) : Ranked shardRank (hashtableAbandon fuel region hdr hdrPtr) := by
  unfold hashtableAbandon
  simp only [perform_bind]
  exact balanced_plain rfl fun _ => balanced_bind (ranked_objectFree _ _) fun _ => balanced_ret

theorem ranked_hashtableCreate (fuel numBuckets keySize valSize : Nat) :
    Ranked shardRank (hashtableCreate fuel region numBuckets keySize valSize) := by
  unfold hashtableCreate ShmRegion.store64
  refine balanced_ite (fun _ => balanced_ret) fun _ => balanced_bind (ranked_objectAlloc _ _ _) fun object => ?_
  split
  · exact balanced_ret
  · split
    · exact balanced_ret
    · simp only [storeWord_bind]
      iterate 4 refine balanced_write ?_
      refine balanced_bind ranked_initLock fun _ => balanced_bind (ranked_alloc _ _ _) fun storage => ?_
      split
      · exact ranked_hashtableAbandon _ _ _
      · refine balanced_bind (ranked_copyIn _ _ _) fun _ => ?_
        split
        · exact balanced_bind (ranked_free _) fun _ => ranked_hashtableAbandon _ _ _
        · exact balanced_write balanced_ret

theorem loads_buckets (hdr : Nat) : Loads (hashtableBuckets region hdr) :=
  loads_read fun _ => loads_read fun _ => loads_ret

theorem ranked_freeValue (hdr entry : Nat) : Ranked shardRank (hashtableFreeValue region hdr entry) := by
  unfold hashtableFreeValue ShmRegion.load64
  simp only [loadWord_bind]
  refine balanced_read fun value => balanced_ite (fun _ => balanced_ret) fun _ => balanced_read fun valSize => ?_
  split
  · exact balanced_ret
  · exact balanced_bind (ranked_free _) fun _ => balanced_ret

theorem ranked_freeKey (entry : Nat) : Ranked shardRank (hashtableFreeKey region entry) := by
  unfold hashtableFreeKey ShmRegion.load64
  simp only [loadWord_bind]
  exact balanced_read fun key => balanced_ite (fun _ => balanced_ret) fun _ => ranked_freeString _

theorem ranked_freeChain (hdr fuel entryOff : Nat) : Ranked shardRank (hashtableFreeChain region hdr fuel entryOff) := by
  induction fuel generalizing entryOff with
  | zero => exact balanced_spin
  | succ fuel ih =>
    unfold hashtableFreeChain ShmRegion.load64
    refine balanced_ite (fun _ => balanced_ret) fun _ => ?_
    split
    · exact balanced_ret
    · simp only [loadWord_bind]
      refine balanced_read fun next => balanced_bind (ranked_freeKey _) fun _ => ?_
      exact balanced_bind (ranked_freeValue _ _) fun _ => balanced_bind (ranked_free _) fun _ => ih next

theorem ranked_freeChains (chainFuel hdr buckets fuel i : Nat) :
    Ranked shardRank (hashtableFreeChains chainFuel region hdr buckets fuel i) := by
  induction fuel generalizing i with
  | zero => exact balanced_spin
  | succ fuel ih =>
    unfold hashtableFreeChains ShmRegion.load64
    simp only [loadWord_bind]
    refine balanced_read fun numBuckets => balanced_ite (fun _ => ?_) fun _ => balanced_ret
    exact balanced_read fun entryOff => balanced_bind (ranked_freeChain _ _ _) fun _ => ih _

theorem ranked_unlinkEntry (cell prevOff entry : Nat) {k : Nat} : Ranked k (hashtableUnlink region cell prevOff entry) := by
  unfold hashtableUnlink ShmRegion.load64 ShmRegion.store64
  simp only [loadWord_bind]
  refine balanced_ite (fun _ => balanced_read fun next => balanced_write balanced_ret) fun _ => ?_
  split
  · exact balanced_ret
  · exact balanced_read fun next => balanced_write balanced_ret

theorem loads_countChain (fuel entryOff count : Nat) : Loads (hashtableCountChain region fuel entryOff count) := by
  induction fuel generalizing entryOff count with
  | zero => exact loads_spin
  | succ fuel ih =>
    unfold hashtableCountChain ShmRegion.load64
    refine loads_ite loads_ret ?_
    split
    · exact loads_ret
    · simp only [loadWord_bind]
      exact loads_read fun next => ih _ _

theorem loads_countChains (chainFuel hdr buckets fuel i count : Nat) :
    Loads (hashtableCountChains chainFuel region hdr buckets fuel i count) := by
  induction fuel generalizing i count with
  | zero => exact loads_spin
  | succ fuel ih =>
    unfold hashtableCountChains ShmRegion.load64
    simp only [loadWord_bind]
    refine loads_read fun numBuckets => loads_ite ?_ loads_ret
    exact loads_read fun entryOff => loads_bind (loads_countChain _ _ _) fun count => ih _ _

section Locked
variable {hdr : Nat} (low : lockRank (hashtableMutex region hdr) = containerRank)
include low

theorem section_update (fuel entry : Nat) (value : Mem) :
    Section containerRank (hashtableMutex region hdr) (hashtableUpdate fuel region hdr entry value) := by
  unfold hashtableUpdate ShmRegion.load64 ShmRegion.store64
  simp only [loadWord_bind, storeWord_bind]
  refine section_heap low (ranked_freeValue _ _) fun _ => closes_read fun valSize => ?_
  refine section_heap low (ranked_alloc _ _ _) fun storage => ?_
  split
  · exact section_unlocked balanced_ret
  · refine closes_read fun size => closes_bind (ranked_copyIn _ _ _) fun _ => ?_
    split
    · exact section_heap low (ranked_free _) fun _ => section_unlocked balanced_ret
    · exact closes_write (section_unlocked balanced_ret)

theorem section_insert (fuel cell : Nat) (key : CString) (value : Mem) :
    Section containerRank (hashtableMutex region hdr) (hashtableInsert fuel region hdr cell key value) := by
  unfold hashtableInsert ShmRegion.load64 ShmRegion.store64
  simp only [loadWord_bind, storeWord_bind]
  refine closes_read fun keySize => section_heap low (ranked_allocString _ _ _) fun keyOff => ?_
  refine closes_ite (fun _ => section_unlocked balanced_ret) fun _ => closes_read fun valSize => ?_
  refine section_heap low (ranked_alloc _ _ _) fun storage => ?_
  split
  · exact section_heap low (ranked_freeString _) fun _ => section_unlocked balanced_ret
  · refine closes_read fun size => closes_bind (ranked_copyIn _ _ _) fun _ => ?_
    split
    · refine section_heap low (ranked_free _) fun _ => section_heap low (ranked_freeString _) fun _ => ?_
      exact section_unlocked balanced_ret
    · refine closes_read fun head => section_heap low (ranked_allocEntry _ _ _ _) fun newEntryOff => ?_
      refine closes_ite (fun _ => ?_) fun _ => closes_write (section_unlocked balanced_ret)
      refine section_heap low (ranked_free _) fun _ => section_heap low (ranked_freeString _) fun _ => ?_
      exact section_unlocked balanced_ret

end Locked

variable {tableOffset : Nat}

theorem ranked_hashtableGet (fuel : Nat) (key : CString) :
    Ranked containerRank (hashtableGet fuel region tableOffset key) := by
  unfold hashtableGet ShmRegion.load64 ShmRegion.copyOut
  split
  · exact balanced_ret
  · refine ranked_locked (closes_loads (loads_lookup _ _) fun looked => ?_)
    split
    · simp only [loadWord_bind]
      refine closes_read fun value => closes_read fun valSize => ?_
      split
      · exact section_unlocked balanced_ret
      · exact closes_loads (loads_readBytes _ _) fun bytes => section_unlocked balanced_ret
    · exact section_unlocked balanced_ret

theorem ranked_hashtableLength (fuel : Nat) : Ranked containerRank (hashtableLength fuel region tableOffset) := by
  unfold hashtableLength
  split
  · exact balanced_ret
  · refine ranked_locked (closes_loads (loads_buckets _) fun buckets => ?_)
    split
    · exact section_unlocked balanced_ret
    · exact closes_loads (loads_countChains _ _ _ _ _ _) fun count => section_unlocked balanced_ret

variable (map : region.Mapped)
  (placed : allocatorMetadataOffset + AllocatorHeader.sizeof ≤ tableOffset)
include map placed

theorem rank_hashtable {hdr : Nat} (resolved : hashtableResolveHeader region tableOffset = some hdr) :
    lockRank (hashtableMutex region hdr) = containerRank := rank_resolved map placed (by decide) resolved

theorem ranked_hashtableDestroy (fuel : Nat) : Ranked containerRank (hashtableDestroy fuel region tableOffset) := by
  unfold hashtableDestroy
  split
  · exact balanced_ret
  · rename_i hdr resolved
    have low := rank_hashtable map placed resolved
    refine ranked_locked (closes_loads (loads_buckets _) fun buckets => ?_)
    split
    · exact section_last
    · simp only [perform_bind]
      refine section_heap low (ranked_freeChains _ _ _ _ _) fun _ => section_heap low (ranked_free _) fun _ => ?_
      refine section_unlocked (balanced_plain rfl fun _ => ?_)
      exact ranked_heap (ranked_objectFree _ _) fun _ => balanced_ret

theorem ranked_hashtablePut (fuel : Nat) (key : CString) (value : Mem) :
    Ranked containerRank (hashtablePut fuel region tableOffset key value) := by
  unfold hashtablePut
  split
  · exact balanced_ret
  · rename_i hdr resolved
    have low := rank_hashtable map placed resolved
    refine ranked_locked (closes_loads (loads_lookup _ _) fun looked => ?_)
    split
    · exact section_unlocked balanced_ret
    · exact section_update low _ _ _
    · exact section_insert low _ _ _ _

theorem ranked_hashtableDelete (fuel : Nat) (key : CString) :
    Ranked containerRank (hashtableDelete fuel region tableOffset key) := by
  unfold hashtableDelete
  split
  · exact balanced_ret
  · rename_i hdr resolved
    have low := rank_hashtable map placed resolved
    refine ranked_locked (closes_loads (loads_lookup _ _) fun looked => ?_)
    split
    · refine closes_bind (ranked_unlinkEntry _ _ _) fun _ => section_heap low (ranked_freeKey _) fun _ => ?_
      refine section_heap low (ranked_freeValue _ _) fun _ => section_heap low (ranked_free _) fun _ => ?_
      exact section_unlocked balanced_ret
    · exact section_unlocked balanced_ret

end HashTable

section RingBuf
variable {region : ShmRegion}

theorem loads_idx (hdr i : Nat) : Loads (ringbufIdx region hdr i) := loads_read fun _ => loads_ret

theorem loads_data (hdr : Nat) : Loads (ringbufData region hdr) :=
  loads_read fun _ => loads_read fun _ => loads_read fun _ => loads_ret

theorem ranked_ringbufAbandon (fuel hdr hdrPtr : Nat) : Ranked shardRank (ringbufAbandon fuel region hdr hdrPtr) := by
  unfold ringbufAbandon
  simp only [perform_bind]
  exact balanced_plain rfl fun _ => balanced_bind (ranked_objectFree _ _) fun _ => balanced_ret

theorem ranked_ringbufCreate (fuel capacity elemSize : Nat) :
    Ranked shardRank (ringbufCreate fuel region capacity elemSize) := by
  unfold ringbufCreate ShmRegion.store64
  refine balanced_ite (fun _ => balanced_ret) fun _ => balanced_bind (ranked_objectAlloc _ _ _) fun object => ?_
  split
  · exact balanced_ret
  · split
    · exact balanced_ret
    · simp only [storeWord_bind]
      iterate 5 refine balanced_write ?_
      refine balanced_bind ranked_initLock fun _ => balanced_bind (ranked_alloc _ _ _) fun storage => ?_
      split
      · exact ranked_ringbufAbandon _ _ _
      · refine balanced_bind (ranked_copyIn _ _ _) fun _ => ?_
        split
        · exact balanced_bind (ranked_free _) fun _ => ranked_ringbufAbandon _ _ _
        · exact balanced_write balanced_ret

theorem ranked_freeData (hdr : Nat) : Ranked shardRank (ringbufFreeData region hdr) := by
  unfold ringbufFreeData ShmRegion.load64
  simp only [loadWord_bind]
  refine balanced_read fun dataOffset => balanced_ite (fun _ => balanced_ret) fun _ => ?_
  refine balanced_bind (balanced_loads (loads_data _)) fun data => ?_
  split
  · exact balanced_ret
  · exact balanced_bind (ranked_free _) fun _ => balanced_ret

theorem ranked_ringbufCapacity {k : Nat} (bufOffset : Nat) : Ranked k (ringbufCapacity region bufOffset) := by
  unfold ringbufCapacity
  split
  · exact balanced_ret
  · exact balanced_read fun _ => balanced_ret

variable {bufOffset : Nat}

theorem ranked_ringbufPush (element : Mem) : Ranked containerRank (ringbufPush region bufOffset element) := by
  unfold ringbufPush ShmRegion.load64 ShmRegion.store64
  split
  · exact balanced_ret
  · simp only [loadWord_bind, storeWord_bind]
    refine ranked_locked (closes_read fun tail => closes_loads (loads_idx _ _) fun nextTail => closes_read fun head => ?_)
    refine closes_ite (fun _ => section_unlocked balanced_ret) fun _ => closes_loads (loads_data _) fun data => ?_
    split
    · exact section_unlocked balanced_ret
    · refine closes_read fun tail => closes_read fun elemSize => closes_bind (ranked_copyIn _ _ _) fun _ => ?_
      exact closes_write (section_unlocked balanced_ret)

theorem ranked_ringbufPop : Ranked containerRank (ringbufPop region bufOffset) := by
  unfold ringbufPop ShmRegion.load64 ShmRegion.store64 ShmRegion.copyOut
  split
  · exact balanced_ret
  · simp only [loadWord_bind, storeWord_bind]
    refine ranked_locked (closes_read fun head => closes_read fun tail => ?_)
    refine closes_ite (fun _ => section_unlocked balanced_ret) fun _ => closes_loads (loads_data _) fun data => ?_
    split
    · exact section_unlocked balanced_ret
    · refine closes_read fun head => closes_read fun elemSize => closes_loads (loads_readBytes _ _) fun bytes => ?_
      refine closes_read fun head => closes_loads (loads_idx _ _) fun nextHead => ?_
      exact closes_write (section_unlocked balanced_ret)

theorem ranked_ringbufLength : Ranked containerRank (ringbufLength region bufOffset) := by
  unfold ringbufLength ShmRegion.load64
  split
  · exact balanced_ret
  · simp only [loadWord_bind]
    refine ranked_locked (closes_read fun tail => closes_read fun head => closes_ite (fun _ => ?_) fun _ => ?_)
    · exact section_unlocked (balanced_read fun tail => balanced_read fun head => balanced_ret)
    · exact closes_read fun capacity => section_unlocked balanced_ret

theorem ranked_ringbufIsEmpty : Ranked containerRank (ringbufIsEmpty region bufOffset) := by
  unfold ringbufIsEmpty ShmRegion.load64
  split
  · exact balanced_ret
  · simp only [loadWord_bind]
    exact ranked_locked (closes_read fun head => closes_read fun tail => section_unlocked balanced_ret)

theorem ranked_ringbufIsFull : Ranked containerRank (ringbufIsFull region bufOffset) := by
  unfold ringbufIsFull ShmRegion.load64
  split
  · exact balanced_ret
  · simp only [loadWord_bind]
    refine ranked_locked (closes_read fun tail => closes_loads (loads_idx _ _) fun next => closes_read fun head => ?_)
    exact section_unlocked balanced_ret

variable (map : region.Mapped)
  (placed : allocatorMetadataOffset + AllocatorHeader.sizeof ≤ bufOffset)
include map placed

theorem rank_ringbuf {hdr : Nat} (resolved : ringbufResolveHeader region bufOffset = some hdr) :
    lockRank (ringbufMutex region hdr) = containerRank := rank_resolved map placed (by decide) resolved

theorem ranked_ringbufDestroy (fuel : Nat) : Ranked containerRank (ringbufDestroy fuel region bufOffset) := by
  unfold ringbufDestroy
  split
  · exact balanced_ret
  · rename_i hdr resolved
    have low := rank_ringbuf map placed resolved
    simp only [perform_bind]
    refine ranked_locked (section_heap low (ranked_freeData _) fun _ => section_unlocked ?_)
    exact balanced_plain rfl fun _ => ranked_heap (ranked_objectFree _ _) fun _ => balanced_ret

end RingBuf

end OffsetStore
