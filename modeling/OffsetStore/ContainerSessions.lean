import OffsetStore.HashTable
import OffsetStore.DynList
import OffsetStore.RingBuf
import OffsetStore.HeapInit

/- The four containers used one call at a time, from creation on. -/
namespace OffsetStore
open ByteMemory Program Prog Words

/-- A container, with the arguments of its creation. -/
inductive Container where
  | dynarray (elemSize : Nat)
  | dynlist (elemSize : Nat)
  | hashtable (numBuckets keySize valSize : Nat)
  | ringbuf (capacity elemSize : Nat)

namespace Container

def create (fuel : Nat) (region : ShmRegion) : Container → Code Nat
  | .dynarray elemSize => dynarrayCreate fuel region elemSize
  | .dynlist elemSize => dynlistCreate fuel region elemSize
  | .hashtable numBuckets keySize valSize => hashtableCreate fuel region numBuckets keySize valSize
  | .ringbuf capacity elemSize => ringbufCreate fuel region capacity elemSize

def resolveHeader (region : ShmRegion) : Container → Nat → Option Nat
  | .dynarray _ => dynarrayResolveHeader region
  | .dynlist _ => dynlistResolveHeader region
  | .hashtable _ _ _ => hashtableResolveHeader region
  | .ringbuf _ _ => ringbufResolveHeader region

/-- The payload size each creation asks object_store_alloc for; the type is 1. -/
def headerSize : Container → Nat
  | .dynarray _ => DynArrayHeader.sizeof
  | .dynlist _ => DynListHeader.sizeof
  | .hashtable _ _ _ => HashTableHeader.sizeof
  | .ringbuf _ _ => RingBufHeader.sizeof

/-- The calls on a container between its creation and its destruction. -/
inductive Op : Container → Type where
  | push {e : Nat} (elem : Mem) : Op (.dynarray e)
  | reserve {e : Nat} (newCap : Nat) : Op (.dynarray e)
  | get {e : Nat} (index : Nat) : Op (.dynarray e)
  | length {e : Nat} : Op (.dynarray e)
  | pushBack {e : Nat} (elem : Mem) : Op (.dynlist e)
  | pushFront {e : Nat} (elem : Mem) : Op (.dynlist e)
  | nodeGet {e : Nat} (index : Nat) : Op (.dynlist e)
  | nodeCount {e : Nat} : Op (.dynlist e)
  | put {n k v : Nat} (key : CString) (value : Mem) : Op (.hashtable n k v)
  | lookup {n k v : Nat} (key : CString) : Op (.hashtable n k v)
  | delete {n k v : Nat} (key : CString) : Op (.hashtable n k v)
  | entryCount {n k v : Nat} : Op (.hashtable n k v)
  | enqueue {c e : Nat} (elem : Mem) : Op (.ringbuf c e)
  | pop {c e : Nat} : Op (.ringbuf c e)
  | queueLength {c e : Nat} : Op (.ringbuf c e)
  | capacity {c e : Nat} : Op (.ringbuf c e)
  | isEmpty {c e : Nat} : Op (.ringbuf c e)
  | isFull {c e : Nat} : Op (.ringbuf c e)

def Op.code (fuel : Nat) (region : ShmRegion) (h : Nat) {c : Container} : c.Op → Code Unit
  | .push elem => do let _ ← dynarrayPush fuel region h elem
  | .reserve newCap => do let _ ← dynarrayReserve fuel region h newCap
  | .get index => do let _ ← dynarrayGet region h index
  | .length => do let _ ← dynarrayLength region h
  | .pushBack elem => do let _ ← dynlistPushBack fuel region h elem
  | .pushFront elem => do let _ ← dynlistPushFront fuel region h elem
  | .nodeGet index => do let _ ← dynlistGet region h index
  | .nodeCount => do let _ ← dynlistLength region h
  | .put key value => do let _ ← hashtablePut fuel region h key value
  | .lookup key => do let _ ← hashtableGet fuel region h key
  | .delete key => do let _ ← hashtableDelete fuel region h key
  | .entryCount => do let _ ← hashtableLength fuel region h
  | .enqueue elem => do let _ ← ringbufPush region h elem
  | .pop => do let _ ← ringbufPop region h
  | .queueLength => do let _ ← ringbufLength region h
  | .capacity => do let _ ← ringbufCapacity region h
  | .isEmpty => do let _ ← ringbufIsEmpty region h
  | .isFull => do let _ ← ringbufIsFull region h

end Container

/-- A container that was created in m₀ and then used by calls that the memory allows. -/
inductive Session (fuel : Nat) (region : ShmRegion) (c : Container) (allowed : Nat → c.Op → Mem → Prop) (m₀ : Mem) :
    Nat → Mem → Prop where
  | created {h : Nat} {m : Mem} (run : exec (c.create fuel region) m₀ = some (h, m)) (made : h ≠ offsetPtrNull) :
      Session fuel region c allowed m₀ h m
  | called {h : Nat} {m m' : Mem} (before : Session fuel region c allowed m₀ h m) (op : c.Op) (may : allowed h op m)
      (run : exec (op.code fuel region h) m = some ((), m')) : Session fuel region c allowed m₀ h m'

/-- What the object store promises about the handle of a container: it is valid, its header
    shows what was allocated, and its payload is the header of the container. -/
structure WellFormedObject (fuel : Nat) (region : ShmRegion) (c : Container) (m : Mem) (h : Nat) : Prop where
  valid : exec (objectStoreValidate fuel region h) m = some (.ok, m)
  header : ∃ header, exec (objectStoreGetHeader fuel region h) m = some (some header, m) ∧
    load m (region.offsetOf (add64 header ObjectHeader.type)) 4 = 1 ∧
    load m (region.offsetOf (add64 header ObjectHeader.size)) 4 = c.headerSize
  payload : ∃ p, exec (objectStoreGetPayload fuel region h) m = some (some p, m) ∧ c.resolveHeader region h = some p

section Malformed
variable {fuel h : Nat} {region : ShmRegion} {c : Container} {m m₀ : Mem} {allowed : Nat → c.Op → Mem → Prop}

theorem resolve_address {span p : Nat} (resolved : offsetPtrTryResolve region.base region.size h span = some p) :
    p = add64 region.base h := by
  unfold offsetPtrTryResolve at resolved
  split at resolved
  · simp at resolved
  · split at resolved
    · simp at resolved
    · exact (Option.some.inj resolved).symm

theorem Container.resolve_address {p : Nat} (resolved : c.resolveHeader region h = some p) : p = add64 region.base h := by
  cases c with
  | dynarray => exact OffsetStore.resolve_address resolved
  | dynlist => exact OffsetStore.resolve_address resolved
  | hashtable => exact OffsetStore.resolve_address resolved
  | ringbuf => exact OffsetStore.resolve_address resolved

theorem resolve_results (object size : Nat) : Results (fun r => ∀ p, r = some p → p = add64 region.base object)
    (objectStoreResolveHeader fuel region object size) := by
  unfold objectStoreResolveHeader
  split
  · exact fun p absent => absurd absent (by simp)
  · split
    · exact fun p absent => absurd absent (by simp)
    · dsimp only
      split
      · exact fun p absent => absurd absent (by simp)
      · rename_i resolved
        refine results_bind _ fun span => ?_
        split
        · exact fun p absent => absurd absent (by simp)
        · split
          · exact fun p absent => absurd absent (by simp)
          · refine results_bind _ fun flags => ?_
            intro p same
            split at same
            · rw [← Option.some.inj same, resolve_address resolved]
            · simp at same

/-- The payload that the object store resolves lies 16 bytes behind the handle. -/
theorem payload_results (object : Nat) : Results (fun r => ∀ p, r = some p → p = add64 (add64 region.base object) 16)
    (objectStoreGetPayload fuel region object) := by
  unfold objectStoreGetPayload objectStoreGetPayloadConst
  refine results_bind _ fun first => ?_
  cases first with
  | none => exact fun p absent => absurd absent (by simp)
  | some header =>
    refine results_bind _ fun size => ?_
    refine results_then (resolve_results object size) fun resolved place => ?_
    cases resolved with
    | none => exact fun p absent => absurd absent (by simp)
    | some resolved =>
      intro p same
      rw [← Option.some.inj same, place resolved rfl]
      rfl

theorem payload_not_header : ¬∃ p, exec (objectStoreGetPayload fuel region h) m = some (some p, m) ∧
    c.resolveHeader region h = some p := by
  rintro ⟨p, run, resolved⟩
  have place := results_exec (payload_results h) run p rfl
  rw [c.resolve_address resolved] at place
  unfold add64 at place
  omega

/-- The header of the new object is resolved before anything is stored in it. -/
theorem create_then {P : Nat → Prop} {size : Nat} {make : Nat → Nat → Code Nat} {resolve : Nat → Option Nat} (null : P 0)
    (made : ∀ hdrPtr hdr, resolve hdrPtr = some hdr → Results P (make hdrPtr hdr)) :
    Results P (objectStoreAlloc fuel region 1 size >>= fun object =>
      match object with
      | .error _ => return offsetPtrNull
      | .ok hdrPtr =>
        match resolve hdrPtr with
        | none => return offsetPtrNull
        | some hdr => make hdrPtr hdr) := by
  refine results_bind _ fun object => ?_
  cases object with
  | error e => exact null
  | ok hdrPtr =>
    dsimp only
    cases resolved : resolve hdrPtr with
    | none => exact null
    | some hdr => exact made hdrPtr hdr resolved

/-- The second allocation of a creation: null without it, and the handle with it. -/
theorem second_results {P : Nat → Prop} {hdr hdrPtr size offset : Nat} {abandon : Code Nat} (whole : P hdrPtr)
    (abandoned : Results P abandon) :
    Results P (allocatorAlloc fuel region size 16 >>= fun storage =>
      match storage with
      | .error _ => abandon
      | .ok ptr => do
        region.copyIn ptr 0 (List.replicate size 0)
        match offsetPtrTryFromRaw region.base region.size ptr with
        | none => do
          let _ ← allocatorFree region ptr
          abandon
        | some off => do
          region.store64 hdr offset off
          return hdrPtr) := by
  refine results_bind _ fun storage => ?_
  cases storage with
  | error e => exact abandoned
  | ok ptr =>
    refine results_bind _ fun _ => ?_
    cases offsetPtrTryFromRaw region.base region.size ptr with
    | none => exact results_bind _ fun _ => abandoned
    | some off => exact results_bind _ fun _ => whole

theorem create_results : Results (fun a => a ≠ 0 → ∃ p, c.resolveHeader region a = some p) (c.create fuel region) := by
  have null : ∀ {P : Prop}, (0 : Nat) ≠ 0 → P := fun absurd => (absurd rfl).elim
  cases c with
  | dynarray elemSize =>
    simp only [Container.create, dynarrayCreate]
    split
    · exact null
    · refine create_then null fun hdrPtr hdr resolved => ?_
      iterate 5 refine results_bind _ fun _ => ?_
      exact fun _ => ⟨hdr, resolved⟩
  | dynlist elemSize =>
    simp only [Container.create, dynlistCreate]
    split
    · exact null
    · refine create_then null fun hdrPtr hdr resolved => ?_
      iterate 5 refine results_bind _ fun _ => ?_
      exact fun _ => ⟨hdr, resolved⟩
  | hashtable numBuckets keySize valSize =>
    simp only [Container.create, hashtableCreate]
    split
    · exact null
    · refine create_then null fun hdrPtr hdr resolved => ?_
      iterate 5 refine results_bind _ fun _ => ?_
      exact second_results (fun _ => ⟨hdr, resolved⟩) (results_bind _ fun _ => results_bind _ fun _ => null)
  | ringbuf capacity elemSize =>
    simp only [Container.create, ringbufCreate]
    split
    · exact null
    · refine create_then null fun hdrPtr hdr resolved => ?_
      iterate 6 refine results_bind _ fun _ => ?_
      exact second_results (fun _ => ⟨hdr, resolved⟩) (results_bind _ fun _ => results_bind _ fun _ => null)

theorem Session.resolves (session : Session fuel region c allowed m₀ h m) :
    ∃ p, c.resolveHeader region h = some p := by
  induction session with
  | created run made => exact results_exec create_results run made
  | called before op may run ih => exact ih

/-- No container is a well-formed object, whatever was called on it: what the object store
    takes for the payload lies 16 bytes behind the header of the container. -/
theorem container_not_object (session : Session fuel region c allowed m₀ h m) :
    c.resolveHeader region h = some (add64 region.base h) ∧ ¬WellFormedObject fuel region c m h := by
  obtain ⟨p, resolved⟩ := session.resolves
  exact ⟨by rw [resolved, c.resolve_address resolved], fun formed => payload_not_header formed.payload⟩

theorem container_not_object_small : ∃ m, Session 4096 smallRegion (.ringbuf 2 1) (fun _ _ _ => True) initialised 2784 m ∧
    ringbufResolveHeader smallRegion 2784 = some (add64 smallRegion.base 2784) ∧
    ¬WellFormedObject 4096 smallRegion (.ringbuf 2 1) m 2784 := by
  obtain ⟨m, run, _⟩ := ringbufCreate_small
  have session : Session 4096 smallRegion (.ringbuf 2 1) (fun _ _ _ => True) initialised 2784 m := .created run (by decide)
  exact ⟨m, session, container_not_object session⟩

/-- There the object store shows type 0 and size 2 in place of 1 and 80, and a payload at 2800
    in place of the header at 2784. -/
theorem ring_header_overwritten : ∃ m, exec (ringbufCreate 4096 smallRegion 2 1) initialised = some (2784, m) ∧
    (exec (objectStoreGetPayload 4096 smallRegion 2784) m).map Prod.fst = some (some (smallRegion.base + 2800)) ∧
    ringbufResolveHeader smallRegion 2784 = some (smallRegion.base + 2784) ∧
    load m (2784 + ObjectHeader.type) 4 = 0 ∧ load m (2784 + ObjectHeader.size) 4 = 2 ∧
    ¬WellFormedObject 4096 smallRegion (.ringbuf 2 1) m 2784 := by
  have made : (exec (ringbufCreate 4096 smallRegion 2 1) initialised).bind (fun r =>
      (exec (objectStoreGetPayload 4096 smallRegion 2784) r.2).map fun p =>
        (r.1, p.1, load r.2 (2784 + ObjectHeader.type) 4, load r.2 (2784 + ObjectHeader.size) 4)) =
      some (2784, some (smallRegion.base + 2800), 0, 2) := by decide +kernel
  obtain ⟨⟨h, m⟩, run, shown⟩ := Option.bind_eq_some_iff.mp made
  obtain ⟨⟨p, m'⟩, payload, same⟩ := Option.map_eq_some_iff.mp shown
  obtain ⟨handle, rest⟩ := Prod.mk.inj same
  obtain ⟨place, words⟩ := Prod.mk.inj rest
  obtain ⟨type, size⟩ := Prod.mk.inj words
  simp only at handle place type size payload
  subst handle place
  exact ⟨m, run, by rw [payload]; rfl, by decide, type, size, fun formed => payload_not_header formed.payload⟩

end Malformed

end OffsetStore
