import OffsetStore.ContainerSessions
import OffsetStore.HeapReleases
import OffsetStore.DynArrayRuns
import OffsetStore.RingBufRuns
import OffsetStore.TableHistory

/- The destruction of an array, a ring buffer or a table. The buffers and the entries go back
   one by one; the header goes through object_store_free, which reads the size and the flags of
   an object where the container keeps two fields of its own. -/
namespace OffsetStore
open ByteMemory Program Prog Words Tiling CellChain Pool

def Container.destroy (fuel : Nat) (region : ShmRegion) : Container → Nat → Code Unit
  | .dynarray _ => dynarrayDestroy fuel region
  | .dynlist _ => dynlistDestroy fuel region
  | .hashtable _ _ _ => hashtableDestroy fuel region
  | .ringbuf _ _ => ringbufDestroy fuel region

/-- The first two fields of the container pass for size and flags of an object: capacity and length of an array,
    capacity and head of a ring buffer, number of buckets and key size of a table. -/
def Disguise (m : Mem) (h : Nat) : Prop :=
  load m (h + 8) 8 % 2 = 0 ∧
    16 + load m h 8 % 2 ^ 32 ≤ load m (load m (h - AllocationPrefix.sizeof) 8) 8 - (h - load m (h - AllocationPrefix.sizeof) 8)

section Header
variable {n fuel : Nat} {region : ShmRegion} {m m' : Mem} {S S₀ L : Set Alloc} {a hdr : Alloc}

theorem HeapLive.disguise_iff (heap : HeapLive n m S) (mem : a ∈ S) : Disguise m a.ptr ↔ Freeable m a := by
  unfold Disguise Freeable spanOf
  have size := load_low m a.ptr 4 4
  have flags := load_low m (a.ptr + 8) 4 4
  simp only [Nat.reduceAdd] at size flags
  rw [heap.named mem]
  simp only [ObjectHeader.flags, ObjectHeader.size, ObjectHeader.sizeof, Nat.add_zero, objectFlagFreed, Nat.and_one_is_mod,
    size, flags]
  omega

/-- Nothing but the header is left of the container; its release decides. -/
theorem exec_freeHeader (map : region.Mapped) (total : region.size = n) (enough : n ≤ fuel) (own : Beside n S₀ L m)
    (mem : hdr ∈ L) (plain : hdr.align = 16) (whole : 16 ≤ hdr.size)
    (step : HeapStep n (L ∪ S₀) m (insert hdr S₀) m') :
    ∃ status m'', exec (objectStoreFree fuel region hdr.ptr) m' = some (status, m'') ∧
      (liveBlocks m'' = Alloc.block '' S₀ ↔ Disguise m hdr.ptr) := by
  have here : hdr ∈ L ∪ S₀ := Or.inl mem
  have stays : hdr ∈ insert hdr S₀ := Set.mem_insert hdr S₀
  have fresh : hdr ∉ S₀ := Set.disjoint_left.mp own.apart mem
  have bytes := step.bytes hdr here stays
  have same : Freeable m' hdr ↔ Freeable m hdr := by
    unfold Freeable
    rw [step.span here stays, load_congr (bytes.narrow (Nat.le_add_right _ _) (by simp only [ObjectHeader.flags]; omega)),
      load_congr (bytes.narrow (Nat.le_add_right _ _) (by simp only [ObjectHeader.size]; omega))]
  obtain ⟨status, m'', run, outcome⟩ := exec_objectFree map total enough step.heap stays plain whole
  refine ⟨status, m'', run, ?_⟩
  rw [own.heap.disguise_iff here, ← same]
  rcases outcome with ⟨free, release⟩ | ⟨kept, rfl⟩
  · refine iff_of_true ?_ free
    rw [release.heap.blocks, Set.insert_sdiff_self_of_notMem fresh]
  · refine iff_of_false (fun blocks => ?_) kept
    rw [step.heap.blocks] at blocks
    obtain ⟨c, mc, eq⟩ := blocks ▸ Set.mem_image_of_mem Alloc.block stays
    exact fresh (step.heap.block_injective (Set.mem_insert_of_mem hdr mc) stays eq ▸ mc)

end Header

/-- An array that its user holds, beside the allocations S₀ of the others. -/
structure ArrayHeld (n : Nat) (S₀ : Set Alloc) (h e : Nat) (m : Mem) (s : ArrayState) (hdr : Alloc) (data : Option Alloc) :
    Prop where
  beside : Beside n S₀ (arrayFoot hdr data) m
  stands : ArrayStands s hdr data m
  handle : s.handle = h
  width : s.elemSize = e
  plain : hdr.align = 16

/-- The byte sizes of a call stay below 2^64. -/
def Container.Op.Sized {c : Container} : c.Op → Prop
  | .reserve (e := e) newCap => newCap * e + 112 ≤ 2 ^ 64
  | .put key _ => key.bytes.length + 128 ≤ 2 ^ 64
  | _ => True

section Array
variable {n fuel e h : Nat} {region : ShmRegion} {m m' m₀ : Mem} {S₀ : Set Alloc} {s : ArrayState} {hdr : Alloc}
  {data : Option Alloc}

theorem ArrayHeld.moved (held : ArrayHeld n S₀ h e m s hdr data) {α : Type} {p : Code α} {op : ArrayOp} {r : α → ArrayResult}
    (does : Does n (arrayFoot hdr data) m p fun a L' μ' => ArrayMoves s hdr op (r a) L' μ')
    (run : exec (do let _ ← p) m = some ((), m')) : ∃ s' data', ArrayHeld n S₀ h e m' s' hdr data' := by
  obtain ⟨a, L', μ', ⟨s', data', next, width, rfl, stands⟩, own, same⟩ := held.beside.called does run
  have place : s'.handle = s.handle := stands.place.symm.trans held.stands.place
  exact ⟨s', data', own, stands.congr same, place.trans held.handle, width.trans held.width, held.plain⟩

theorem Session.array (map : region.Mapped) (total : region.size = n) (large : 2728 ≤ n) (enough : n ≤ fuel)
    (heap : HeapLive n m₀ S₀) (small : 4 * e + 112 ≤ 2 ^ 64)
    (session : Session fuel region (.dynarray e) (fun _ op _ => op.Sized) m₀ h m) :
    ∃ s hdr data, ArrayHeld n S₀ h e m s hdr data := by
  induction session with
  | created run made =>
    obtain ⟨h', m', L', μ', ran, outcome, own, same⟩ :=
      does_beside (does_create map total large enough (show e < 2 ^ 64 by omega)) (beside_nothing heap)
    obtain ⟨rfl, rfl⟩ := Prod.mk.inj (Option.some.inj (ran.symm.trans run))
    rcases outcome with ⟨null, _⟩ | ⟨_, _, hdr, plain, rfl, stands⟩
    · exact absurd null made
    · exact ⟨_, hdr, none, own, stands.congr same, rfl, rfl, plain⟩
  | called before op may run ih =>
    obtain ⟨s, hdr, data, held⟩ := ih
    have handle := held.handle
    have width := held.width
    subst handle width
    have stands := held.stands
    cases op with
    | push elem =>
      obtain ⟨s', data', held'⟩ := held.moved (does_push map total large enough stands small elem) run
      exact ⟨s', hdr, data', held'⟩
    | reserve newCap =>
      obtain ⟨s', data', held'⟩ := held.moved (does_reserve map total large enough stands may) run
      exact ⟨s', hdr, data', held'⟩
    | get index =>
      obtain ⟨r, L', μ', ⟨_, rfl, rfl⟩, own, same⟩ := held.beside.called (does_get map total stands index) run
      exact ⟨s, hdr, data, own, stands.congr same, rfl, rfl, held.plain⟩
    | length =>
      obtain ⟨r, L', μ', ⟨_, rfl, rfl⟩, own, same⟩ := held.beside.called (does_length map total stands) run
      exact ⟨s, hdr, data, own, stands.congr same, rfl, rfl, held.plain⟩

/-- The release of the buffer of an array that is held. -/
theorem ArrayHeld.freed (held : ArrayHeld n S₀ h e m s hdr data) (map : region.Mapped) (total : region.size = n) :
    ∃ m', exec (dynarrayFreeBuffer region (add64 region.base hdr.ptr)) m = some ((), m') ∧
      HeapStep n (arrayFoot hdr data ∪ S₀) m (insert hdr S₀) m' := by
  have user := map.user
  have stands := held.stands
  have foot := held.beside.heap.footprint
  have bounds := foot.bounds hdr (Or.inl (header_mem hdr data))
  have size := stands.size
  unfold dynarrayFreeBuffer
  simp only [DynArrayHeader.capacity, DynArrayHeader.dataOffset, DynArrayHeader.elemSize]
  rw [exec_load64 (by omega)]
  cases kind : data with
  | none =>
    have whole : arrayFoot hdr none ∪ S₀ = insert hdr S₀ := by simp [arrayFoot]
    have offset : load m (hdr.ptr + 24) 8 = 0 := by rw [stands.offset, kind, Option.elim_none]
    rw [offset, whole]
    exact ⟨m, rfl, HeapStep.refl (whole ▸ kind ▸ held.beside.heap)⟩
  | some d =>
    have isData : d ∈ data := kind
    have mem : d ∈ arrayFoot hdr data ∪ S₀ := Or.inl (data_mem isData)
    have resolved := resolve_buffer map total foot stands isData mem (Nat.le_refl _)
    have low := foot.bounds d mem
    have present : ¬offsetPtrIsNull d.ptr = true := by
      rw [offsetPtrIsNull_iff]
      unfold heapBase at low
      omega
    have near := foot.near d mem
    rw [(stands.buffer d isData).2] at near
    obtain ⟨m', run, step⟩ := exec_release map total held.beside.heap mem (by omega)
    rw [kind] at resolved step
    have left : (arrayFoot hdr (some d) ∪ S₀) \ {d} = insert hdr S₀ := by
      have other : hdr ≠ d := fun same => stands.other (same ▸ isData)
      have fresh : d ∉ S₀ := Set.disjoint_left.mp held.beside.apart (data_mem isData)
      ext a
      simp only [arrayFoot, Set.mem_sdiff, Set.mem_union, Set.mem_insert_iff, Set.mem_ofPred_eq, Option.mem_def, Option.some.injEq,
        Set.mem_singleton_iff]
      constructor
      · rintro ⟨(rfl | same) | there, away⟩
        · exact Or.inl rfl
        · exact absurd same.symm away
        · exact Or.inr there
      · rintro (rfl | there)
        · exact ⟨Or.inl (Or.inl rfl), other⟩
        · exact ⟨Or.inr there, fun same => fresh (same ▸ there)⟩
    rw [left] at step
    refine ⟨m', ?_, step⟩
    have offset : load m (hdr.ptr + 24) 8 = d.ptr := by rw [stands.offset, kind, Option.elim_some]
    rw [Option.elim_some] at resolved
    rw [offset, if_neg present, exec_load64 (by omega), exec_load64 (by omega), Nat.add_zero, stands.capacity, stands.elemSize]
    simp only [resolved]
    rw [exec_bind_of_some run]
    rfl

/-- The destruction of an array that is held. -/
theorem ArrayHeld.destroyed (held : ArrayHeld n S₀ h e m s hdr data) (map : region.Mapped) (total : region.size = n)
    (enough : n ≤ fuel) : ∃ m', exec (dynarrayDestroy fuel region h) m = some ((), m') ∧
      (liveBlocks m' = Alloc.block '' S₀ ↔ Disguise m h) := by
  have stands := held.stands
  have size := stands.size
  obtain ⟨m₁, freed, step⟩ := held.freed map total
  obtain ⟨status, m', released, outcome⟩ := exec_freeHeader map total enough held.beside (header_mem hdr data) held.plain
    (by omega) step
  have resolved := resolve_array map total held.beside.heap.footprint stands (Or.inl (header_mem hdr data))
  have place := stands.place.trans held.handle
  rw [held.handle] at resolved
  rw [place] at released outcome
  refine ⟨m', ?_, outcome⟩
  unfold dynarrayDestroy dynarrayLock dynarrayUnlock
  simp only [resolved]
  rw [exec_bind_of_some (exec_containerLock _ _), exec_bind_of_some freed]
  simp only [containerUnlock, perform_bind, exec_call]
  rw [exec_bind_of_some released]
  rfl

end Array

/-- What a ring buffer keeps through its calls: the fields that do not change, and indices below the capacity. -/
structure RingKept (c e : Nat) (hdr data : Alloc) (μ : Mem) : Prop where
  size : hdr.size = 96 ∧ hdr.align = 16
  buffer : data.size = c * e ∧ data.align = 16
  positive : 2 ≤ c
  other : hdr ≠ data
  capacity : load μ hdr.ptr 8 = c
  elemSize : load μ (hdr.ptr + 24) 8 = e
  offset : load μ (hdr.ptr + 32) 8 = data.ptr
  head : load μ (hdr.ptr + 8) 8 < c
  tail : load μ (hdr.ptr + 16) 8 < c

def ringFoot (hdr data : Alloc) : Set Alloc := {hdr, data}

section Ring
variable {n fuel c e h : Nat} {region : ShmRegion} {m m' m₀ μ μ' : Mem} {S₀ : Set Alloc} {hdr data : Alloc}

theorem RingKept.congr (ring : RingKept c e hdr data μ) (same : SameOn μ μ' hdr.ptr (hdr.ptr + 40)) :
    RingKept c e hdr data μ' := by
  have word : ∀ f, f + 8 ≤ 40 → load μ' (hdr.ptr + f) 8 = load μ (hdr.ptr + f) 8 :=
    fun f small => load_congr (same.narrow (by omega) (by omega))
  refine ⟨ring.size, ring.buffer, ring.positive, ring.other, ?_, ?_, ?_, ?_, ?_⟩
  · exact (word 0 (by omega)).trans ring.capacity
  · exact (word 24 (by omega)).trans ring.elemSize
  · exact (word 32 (by omega)).trans ring.offset
  · exact word 8 (by omega) ▸ ring.head
  · exact word 16 (by omega) ▸ ring.tail

theorem RingKept.capacity_lt (ring : RingKept c e hdr data μ) : c < 2 ^ 64 :=
  ring.capacity ▸ load_eight_lt μ hdr.ptr

/-- Another index in the place of head or tail. -/
theorem RingKept.moved (ring : RingKept c e hdr data μ) {o i : Nat} (index : o = 8 ∨ o = 16)
    (small : i < c) : RingKept c e hdr data (store μ (hdr.ptr + o) 8 i) := by
  have other : ∀ f, f + 8 ≤ o ∨ o + 8 ≤ f → load (store μ (hdr.ptr + o) 8 i) (hdr.ptr + f) 8 = load μ (hdr.ptr + f) 8 :=
    fun f apart => load_store_apart (by omega)
  have word := ring.capacity_lt
  have here : load (store μ (hdr.ptr + o) 8 i) (hdr.ptr + o) 8 = i := load_store_eight (by omega)
  refine ⟨ring.size, ring.buffer, ring.positive, ring.other, ?_, ?_, ?_, ?_, ?_⟩
  · exact (other 0 (by omega)).trans ring.capacity
  · exact (other 24 (by omega)).trans ring.elemSize
  · exact (other 32 (by omega)).trans ring.offset
  · rcases index with rfl | rfl
    · rwa [here]
    · rw [other 8 (by omega)]
      exact ring.head
  · rcases index with rfl | rfl
    · rw [other 16 (by omega)]
      exact ring.tail
    · rwa [here]

theorem ring_header (hdr data : Alloc) : hdr ∈ ringFoot hdr data := Set.mem_insert _ _

theorem ring_data (hdr data : Alloc) : data ∈ ringFoot hdr data := Set.mem_insert_of_mem _ rfl

theorem RingKept.resolve (ring : RingKept c e hdr data μ) (map : region.Mapped) (total : region.size = n) {L : Set Alloc}
    (foot : Footprint n L) (mem : hdr ∈ L) : ringbufResolveHeader region hdr.ptr = some (add64 region.base hdr.ptr) := by
  have bounds := foot.bounds hdr mem
  have size := ring.size.1
  exact resolve_eq_some map (by omega) (by omega) (by simp only [RingBufHeader.sizeof]; omega)

theorem RingKept.resolve_data (ring : RingKept c e hdr data μ) (map : region.Mapped) (total : region.size = n) {L : Set Alloc}
    (foot : Footprint n L) (mem : data ∈ L) :
    offsetPtrTryResolve region.base region.size data.ptr (mul64 c e) = some (add64 region.base data.ptr) := by
  have user := map.user
  have bounds := foot.bounds data mem
  have size := ring.buffer.1
  rw [mul64_eq (by omega)]
  exact resolve_eq_some map (by omega) (by omega) (by omega)

section Calls
variable {α : Type} {post : α → Set Alloc → Mem → Prop} (map : region.Mapped) (total : region.size = n)
  (ring : RingKept c e hdr data μ)
include map total ring

theorem does_ringField {f : Nat → Code α} {field : Nat} (small : field + 8 ≤ 40)
    (rest : Does n (ringFoot hdr data) μ (f (load μ (hdr.ptr + field) 8)) post) :
    Does n (ringFoot hdr data) μ (region.load64 (add64 region.base hdr.ptr) field >>= f) post := by
  have size := ring.size.1
  exact does_load64 map total (ring_header hdr data) (by omega) (by omega) rfl rest

theorem does_ringIdx {f : Nat → Code α} {i : Nat} (rest : Does n (ringFoot hdr data) μ (f (i % c)) post) :
    Does n (ringFoot hdr data) μ (ringbufIdx region (add64 region.base hdr.ptr) i >>= f) post := by
  unfold ringbufIdx
  refine does_ringField map total ring (by simp) ?_
  rw [RingBufHeader.capacity, Nat.add_zero, ring.capacity]
  exact rest

theorem does_ringData {f : Option Nat → Code α}
    (rest : Does n (ringFoot hdr data) μ (f (some (add64 region.base data.ptr))) post) :
    Does n (ringFoot hdr data) μ (ringbufData region (add64 region.base hdr.ptr) >>= f) post := by
  refine does_foot fun foot => ?_
  unfold ringbufData
  refine does_ringField map total ring (by simp) ?_
  refine does_ringField map total ring (by simp) ?_
  refine does_ringField map total ring (by simp) ?_
  simp only [RingBufHeader.dataOffset, RingBufHeader.capacity, RingBufHeader.elemSize, Nat.add_zero, ring.offset,
    ring.capacity, ring.elemSize, ring.resolve_data map total foot (ring_data hdr data)]
  exact rest

theorem does_ringPush (element : Mem) : Does n (ringFoot hdr data) μ (ringbufPush region hdr.ptr element)
    (fun _ L' μ' => L' = ringFoot hdr data ∧ RingKept c e hdr data μ') := by
  have user := map.user
  have header := ring_header hdr data
  have buffer := ring_data hdr data
  have size := ring.size.1
  have width := ring.buffer.1
  have positive := ring.positive
  refine does_foot fun foot => ?_
  have bounds := foot.bounds data buffer
  unfold ringbufPush ringbufLock
  simp only [ring.resolve map total foot header]
  refine does_containerLock ?_
  refine does_ringField map total ring (by simp) ?_
  refine does_ringIdx map total ring ?_
  refine does_ringField map total ring (by simp) ?_
  by_cases full : add64 (load μ (hdr.ptr + RingBufHeader.tail) 8) 1 % c = load μ (hdr.ptr + RingBufHeader.head) 8
  · rw [if_pos full]
    exact does_containerUnlock (does_ret ⟨rfl, ring⟩)
  · rw [if_neg full]
    refine does_ringData map total ring ?_
    refine does_ringField map total ring (by simp) ?_
    refine does_ringField map total ring (by simp) ?_
    rw [RingBufHeader.elemSize, ring.elemSize, RingBufHeader.tail]
    have slot := slot_le (e := e) ring.tail
    have length : (loadBytes element 0 e).length = e := loadBytes_length ..
    rw [mul64_eq (by omega)]
    refine does_bind (does_copyIn map total buffer (by omega) (by omega)) ?_
    rintro _ L' μ' ⟨rfl, rfl⟩
    have apart := foot.disjoint header buffer ring.other
    have kept : RingKept c e hdr data (storeBytes μ (data.ptr + load μ (hdr.ptr + 16) 8 * e) (loadBytes element 0 e)) :=
      ring.congr (SameOn.storeBytes (by omega))
    refine does_store64 map total header (by omega) (by omega) ?_
    exact does_containerUnlock (does_ret ⟨rfl, kept.moved (Or.inr rfl) (Nat.mod_lt _ (by omega))⟩)

theorem does_ringPop : Does n (ringFoot hdr data) μ (ringbufPop region hdr.ptr)
    (fun _ L' μ' => L' = ringFoot hdr data ∧ RingKept c e hdr data μ') := by
  have user := map.user
  have header := ring_header hdr data
  have buffer := ring_data hdr data
  have size := ring.size.1
  have width := ring.buffer.1
  have positive := ring.positive
  refine does_foot fun foot => ?_
  have bounds := foot.bounds data buffer
  unfold ringbufPop ringbufLock
  simp only [ring.resolve map total foot header]
  refine does_containerLock ?_
  refine does_ringField map total ring (by simp) ?_
  refine does_ringField map total ring (by simp) ?_
  by_cases empty : load μ (hdr.ptr + RingBufHeader.head) 8 = load μ (hdr.ptr + RingBufHeader.tail) 8
  · rw [if_pos empty]
    exact does_containerUnlock (does_ret ⟨rfl, ring⟩)
  · rw [if_neg empty]
    refine does_ringData map total ring ?_
    refine does_ringField map total ring (by simp) ?_
    refine does_ringField map total ring (by simp) ?_
    rw [RingBufHeader.elemSize, ring.elemSize, RingBufHeader.head]
    have slot := slot_le (e := e) ring.head
    rw [mul64_eq (by omega)]
    refine does_copyOut map total buffer (by omega) (by omega) ?_
    refine does_ringField map total ring (by simp) ?_
    refine does_ringIdx map total ring ?_
    refine does_store64 map total header (by omega) (by omega) ?_
    exact does_containerUnlock (does_ret ⟨rfl, ring.moved (Or.inl rfl) (Nat.mod_lt _ (by omega))⟩)

theorem does_ringLength : Does n (ringFoot hdr data) μ (ringbufLength region hdr.ptr)
    (fun _ L' μ' => L' = ringFoot hdr data ∧ RingKept c e hdr data μ') := by
  refine does_foot fun foot => ?_
  unfold ringbufLength ringbufLock
  simp only [ring.resolve map total foot (ring_header hdr data)]
  refine does_containerLock ?_
  refine does_ringField map total ring (by simp) ?_
  refine does_ringField map total ring (by simp) ?_
  split
  · refine does_containerUnlock ?_
    refine does_ringField map total ring (by simp) ?_
    exact does_ringField map total ring (by simp) (does_ret ⟨rfl, ring⟩)
  · refine does_ringField map total ring (by simp) ?_
    exact does_containerUnlock (does_ret ⟨rfl, ring⟩)

theorem does_ringCapacity : Does n (ringFoot hdr data) μ (ringbufCapacity region hdr.ptr)
    (fun _ L' μ' => L' = ringFoot hdr data ∧ RingKept c e hdr data μ') := by
  refine does_foot fun foot => ?_
  unfold ringbufCapacity
  simp only [ring.resolve map total foot (ring_header hdr data)]
  rw [← bind_ret (region.load64 _ _)]
  exact does_ringField map total ring (by simp) (does_ret ⟨rfl, ring⟩)

theorem does_ringIsEmpty : Does n (ringFoot hdr data) μ (ringbufIsEmpty region hdr.ptr)
    (fun _ L' μ' => L' = ringFoot hdr data ∧ RingKept c e hdr data μ') := by
  refine does_foot fun foot => ?_
  unfold ringbufIsEmpty ringbufLock
  simp only [ring.resolve map total foot (ring_header hdr data)]
  refine does_containerLock ?_
  refine does_ringField map total ring (by simp) ?_
  refine does_ringField map total ring (by simp) ?_
  exact does_containerUnlock (does_ret ⟨rfl, ring⟩)

theorem does_ringIsFull : Does n (ringFoot hdr data) μ (ringbufIsFull region hdr.ptr)
    (fun _ L' μ' => L' = ringFoot hdr data ∧ RingKept c e hdr data μ') := by
  refine does_foot fun foot => ?_
  unfold ringbufIsFull ringbufLock
  simp only [ring.resolve map total foot (ring_header hdr data)]
  refine does_containerLock ?_
  refine does_ringField map total ring (by simp) ?_
  refine does_ringIdx map total ring ?_
  refine does_ringField map total ring (by simp) ?_
  exact does_containerUnlock (does_ret ⟨rfl, ring⟩)

end Calls

/-- A ring buffer that its user holds, beside the allocations S₀ of the others. -/
structure RingHeld (n : Nat) (S₀ : Set Alloc) (h c e : Nat) (m : Mem) (hdr data : Alloc) : Prop where
  beside : Beside n S₀ (ringFoot hdr data) m
  kept : RingKept c e hdr data m
  handle : hdr.ptr = h

theorem RingHeld.called (held : RingHeld n S₀ h c e m hdr data) {α : Type} {p : Code α}
    (does : Does n (ringFoot hdr data) m p fun _ L' μ' => L' = ringFoot hdr data ∧ RingKept c e hdr data μ')
    (run : exec (do let _ ← p) m = some ((), m')) : RingHeld n S₀ h c e m' hdr data := by
  obtain ⟨_, L', μ', ⟨rfl, kept⟩, own, same⟩ := held.beside.called does run
  have size := kept.size.1
  exact ⟨own, kept.congr ((same hdr (ring_header hdr data)).narrow (Nat.le_refl _) (by omega)), held.handle⟩

theorem Session.ring (map : region.Mapped) (total : region.size = n) (large : 2728 ≤ n) (enough : n ≤ fuel)
    (heap : HeapLive n m₀ S₀) (small : c * e + 112 ≤ 2 ^ 64)
    (session : Session fuel region (.ringbuf c e) (fun _ op _ => op.Sized) m₀ h m) :
    ∃ hdr data, RingHeld n S₀ h c e m hdr data := by
  induction session with
  | created run made =>
    have makes : Does n ∅ m₀ (ringbufCreate fuel region c e) (ringMade n ⟨c, e⟩ ∅) :=
      @does_ringMake n fuel region ∅ m₀ map total large enough ⟨c, e⟩ small
    obtain ⟨h', m', L', μ', ran, outcome, own, same⟩ := does_beside makes (beside_nothing heap)
    obtain ⟨rfl, rfl⟩ := Prod.mk.inj (Option.some.inj (ran.symm.trans run))
    rcases outcome with null | ⟨wide, _, hdr, data, rfl, _, new, rfl, size, plain, width, plainD, _, ring⟩
    · exact absurd null made
    · have foot : insert data (insert hdr ∅) = ringFoot hdr data := by simp [ringFoot, Set.pair_comm]
      rw [foot] at own same
      have other : hdr ≠ data := fun eq => new (eq ▸ Set.mem_insert hdr ∅)
      have head : load μ' (hdr.ptr + 8) 8 < c := by
        rw [show load μ' (hdr.ptr + 8) 8 = 0 from ring.headWord]
        exact Nat.lt_of_lt_of_le Nat.zero_lt_two wide
      have tail : load μ' (hdr.ptr + 16) 8 < c := by
        rw [show load μ' (hdr.ptr + 16) 8 = ringSlot c 0 0 from ring.tailWord]
        exact ringSlot_lt (Nat.lt_of_lt_of_le Nat.zero_lt_two wide)
      have kept : RingKept c e hdr data μ' := ⟨⟨size, plain⟩, ⟨width, plainD⟩, wide, other, ring.capacity, ring.elemSize,
        ring.dataOffset, head, tail⟩
      exact ⟨hdr, data, own, kept.congr ((same hdr (ring_header hdr data)).narrow (Nat.le_refl _) (by omega)), rfl⟩
  | called before op may run ih =>
    obtain ⟨hdr, data, held⟩ := ih
    have handle := held.handle
    subst handle
    cases op with
    | enqueue elem => exact ⟨hdr, data, held.called (does_ringPush map total held.kept elem) run⟩
    | pop => exact ⟨hdr, data, held.called (does_ringPop map total held.kept) run⟩
    | queueLength => exact ⟨hdr, data, held.called (does_ringLength map total held.kept) run⟩
    | capacity => exact ⟨hdr, data, held.called (does_ringCapacity map total held.kept) run⟩
    | isEmpty => exact ⟨hdr, data, held.called (does_ringIsEmpty map total held.kept) run⟩
    | isFull => exact ⟨hdr, data, held.called (does_ringIsFull map total held.kept) run⟩

/-- The release of the element buffer of a ring buffer that is held. -/
theorem RingHeld.freed (held : RingHeld n S₀ h c e m hdr data) (map : region.Mapped) (total : region.size = n) :
    ∃ m', exec (ringbufFreeData region (add64 region.base hdr.ptr)) m = some ((), m') ∧
      HeapStep n (ringFoot hdr data ∪ S₀) m (insert hdr S₀) m' := by
  have user := map.user
  have ring := held.kept
  have foot := held.beside.heap.footprint
  have bounds := foot.bounds hdr (Or.inl (ring_header hdr data))
  have size := ring.size.1
  have mem : data ∈ ringFoot hdr data ∪ S₀ := Or.inl (ring_data hdr data)
  have resolved := ring.resolve_data map total foot mem
  have low := foot.bounds data mem
  have present : ¬offsetPtrIsNull data.ptr = true := by
    rw [offsetPtrIsNull_iff]
    unfold heapBase at low
    omega
  have near := foot.near data mem
  rw [ring.buffer.2] at near
  obtain ⟨m', run, step⟩ := exec_release map total held.beside.heap mem (by omega)
  have left : (ringFoot hdr data ∪ S₀) \ {data} = insert hdr S₀ := by
    have fresh : data ∉ S₀ := Set.disjoint_left.mp held.beside.apart (ring_data hdr data)
    ext a
    simp only [ringFoot, Set.mem_sdiff, Set.mem_union, Set.mem_insert_iff, Set.mem_singleton_iff]
    constructor
    · rintro ⟨(rfl | same) | there, away⟩
      · exact Or.inl rfl
      · exact absurd same away
      · exact Or.inr there
    · rintro (rfl | there)
      · exact ⟨Or.inl (Or.inl rfl), ring.other⟩
      · exact ⟨Or.inr there, fun same => fresh (same ▸ there)⟩
  rw [left] at step
  refine ⟨m', ?_, step⟩
  unfold ringbufFreeData ringbufData
  simp only [RingBufHeader.capacity, RingBufHeader.dataOffset, RingBufHeader.elemSize, bind_assoc]
  rw [exec_load64 (by omega), ring.offset, if_neg present, exec_load64 (by omega), exec_load64 (by omega),
    exec_load64 (by omega), ring.offset, ring.elemSize, show load m (hdr.ptr + 0) 8 = c from ring.capacity]
  simp only [resolved]
  rw [exec_bind_of_some (show exec (pure (some (add64 region.base data.ptr))) m = some (_, m) from rfl)]
  rw [exec_bind_of_some run]
  rfl

/-- The destruction of a ring buffer that is held. -/
theorem RingHeld.destroyed (held : RingHeld n S₀ h c e m hdr data) (map : region.Mapped) (total : region.size = n)
    (enough : n ≤ fuel) : ∃ m', exec (ringbufDestroy fuel region h) m = some ((), m') ∧
      (liveBlocks m' = Alloc.block '' S₀ ↔ Disguise m h) := by
  have ring := held.kept
  have size := ring.size.1
  obtain ⟨m₁, freed, step⟩ := held.freed map total
  obtain ⟨status, m', released, outcome⟩ := exec_freeHeader map total enough held.beside (ring_header hdr data) ring.size.2
    (by omega) step
  have resolved := ring.resolve map total held.beside.heap.footprint (Or.inl (ring_header hdr data))
  rw [held.handle] at resolved released outcome
  refine ⟨m', ?_, outcome⟩
  unfold ringbufDestroy ringbufLock ringbufUnlock
  simp only [resolved]
  rw [← held.handle, exec_bind_of_some (exec_containerLock _ _), exec_bind_of_some freed, held.handle]
  simp only [containerUnlock, perform_bind, exec_call]
  rw [exec_bind_of_some released]
  rfl

end Ring

section Table
variable {n fuel h : Nat} {region : ShmRegion} {m m' m₀ μ : Mem} {S S' S₀ : Set Alloc} {p : TableParams} {hdr array : Alloc}
  {items : List Item}

/-- A call on a table, seen by a session. -/
theorem called_ends {α : Type} {q : Code α} {r : α} (ran : exec q m = some (r, μ)) (run : exec (do let _ ← q) m = some ((), m')) :
    μ = m' := by
  rw [exec_bind_of_some ran] at run
  exact (Prod.mk.inj (Option.some.inj run)).2

theorem Session.table (map : region.Mapped) (total : region.size = n) (enough : n ≤ fuel) (heap : HeapLive n m₀ S₀)
    (small : p.numBuckets * 8 + 112 ≤ 2 ^ 64) (wordK : p.keySize < 2 ^ 64) (wide : p.valSize + 112 ≤ 2 ^ 64)
    (session : Session fuel region (.hashtable p.numBuckets p.keySize p.valSize) (fun _ op _ => op.Sized) m₀ h m) :
    ∃ hdr array items, hdr.ptr = h ∧ TableHeld n S₀ p hdr array items m := by
  induction session with
  | created run made =>
    obtain ⟨hdr, array, rfl, held⟩ := table_created map total enough heap small wordK (by omega) run made
    exact ⟨hdr, array, [], rfl, held⟩
  | called before op may run ih =>
    obtain ⟨hdr, array, items, rfl, held⟩ := ih
    cases op with
    | put key value =>
      have bound : (key.bytes.take p.keySize).length + 128 ≤ 2 ^ 64 := by
        have short : key.bytes.length + 128 ≤ 2 ^ 64 := may
        rw [List.length_take]
        omega
      obtain ⟨rc, m₁, items', ran, _, held'⟩ := held.put map total enough bound wide value
      obtain rfl := called_ends ran run
      exact ⟨hdr, array, items', rfl, held'⟩
    | lookup key =>
      obtain ⟨m₁, ran, held'⟩ := held.get map total enough key
      obtain rfl := called_ends ran run
      exact ⟨hdr, array, items, rfl, held'⟩
    | delete key =>
      obtain ⟨rc, m₁, items', ran, _, held'⟩ := held.delete map total enough key
      obtain rfl := called_ends ran run
      exact ⟨hdr, array, items', rfl, held'⟩
    | entryCount =>
      obtain ⟨m₁, ran, held'⟩ := held.length map total enough
      obtain rfl := called_ends ran run
      exact ⟨hdr, array, items, rfl, held'⟩

/-- The allocations of some items. -/
def itemAllocs (items : List Item) : Set Alloc := {a | ∃ it ∈ items, a ∈ it.allocs}

theorem itemAllocs_cons (it : Item) (items : List Item) :
    itemAllocs (it :: items) = {a | a ∈ it.allocs} ∪ itemAllocs items := by
  ext a
  simp [itemAllocs]

theorem insert_parts (it : Item) (G : Set Alloc) :
    insert it.node (insert it.val (insert it.key G)) = G ∪ {a | a ∈ it.allocs} := by
  ext a
  simp only [Item.allocs, Set.mem_insert_iff, Set.mem_union, Set.mem_ofPred_eq, List.mem_cons, List.not_mem_nil, or_false]
  tauto

/-- One more of the allocations W goes, after those of G. -/
theorem exec_drop (map : region.Mapped) (total : region.size = n) {W G : Set Alloc} {a : Alloc} (step : HeapStep n W μ (W \ G) m)
    (mem : a ∈ W) (still : a ∉ G) (plain : a.align = 16) :
    ∃ m', exec (allocatorFree region (add64 region.base a.ptr)) m = some (.ok, m') ∧ HeapStep n W μ (W \ insert a G) m' := by
  have here : a ∈ W \ G := ⟨mem, still⟩
  have near := step.heap.footprint.near a here
  rw [plain] at near
  obtain ⟨m', run, next⟩ := exec_release map total step.heap here (by omega)
  rw [Set.sdiff_sdiff, Set.union_singleton] at next
  exact ⟨m', run, step.trans next fun c mc left => ⟨mc, fun gone => left.2 (Set.mem_insert_of_mem a gone)⟩⟩

section Parts
variable {G : Set Alloc} {it : Item} {row : List Item} (map : region.Mapped) (total : region.size = n)
  (held : TableHeld n S₀ p hdr array items μ) (step : HeapStep n (tableFoot hdr array items ∪ S₀) μ ((tableFoot hdr array items ∪ S₀) \ G) m)
include map total held step

theorem exec_dropKey (mem : it ∈ items) (node : it.node ∉ G) (key : it.key ∉ G) :
    ∃ m', exec (hashtableFreeKey region (add64 region.base it.node.ptr)) m = some ((), m') ∧
      HeapStep n (tableFoot hdr array items ∪ S₀) μ ((tableFoot hdr array items ∪ S₀) \ insert it.key G) m' := by
  have user := map.user
  have item := held.stands.each it mem
  have nodeIn : it.node ∈ tableFoot hdr array items := tableFoot_item mem node_mem
  have keyIn : it.key ∈ tableFoot hdr array items := tableFoot_item mem key_mem
  have foot := held.beside.heap.footprint
  have boundsN := foot.bounds it.node (Or.inl nodeIn)
  have boundsK := foot.bounds it.key (Or.inl keyIn)
  have nodeSize := item.nodeSize
  have keySize := item.keySize
  have word : load m (it.node.ptr + 0) 8 = it.key.ptr :=
    (load_congr ((step.bytes it.node (Or.inl nodeIn) ⟨Or.inl nodeIn, node⟩).narrow (by omega) (by omega))).trans item.keyOffset
  have present : ¬offsetPtrIsNull it.key.ptr = true := by
    rw [offsetPtrIsNull_iff]
    omega
  have resolved : offsetPtrTryResolve region.base region.size it.key.ptr 4 = some (add64 region.base it.key.ptr) :=
    resolve_eq_some map (by omega) (by omega) (by omega)
  obtain ⟨m', run, next⟩ := exec_drop map total step (Or.inl keyIn) key (item.plain _ key_mem)
  refine ⟨m', ?_, next⟩
  unfold hashtableFreeKey hashtableFreeString
  rw [HashTableEntry.keyOffset, exec_load64 (by omega), word, if_neg present]
  simp only [resolved]
  rw [exec_bind_of_some run]
  rfl

theorem exec_dropValue (mem : it ∈ items) (node : it.node ∉ G) (val : it.val ∉ G) (header : hdr ∉ G) :
    ∃ m', exec (hashtableFreeValue region (add64 region.base hdr.ptr) (add64 region.base it.node.ptr)) m = some ((), m') ∧
      HeapStep n (tableFoot hdr array items ∪ S₀) μ ((tableFoot hdr array items ∪ S₀) \ insert it.val G) m' := by
  have user := map.user
  have item := held.stands.each it mem
  have nodeIn : it.node ∈ tableFoot hdr array items := tableFoot_item mem node_mem
  have valIn : it.val ∈ tableFoot hdr array items := tableFoot_item mem val_mem
  have foot := held.beside.heap.footprint
  have boundsN := foot.bounds it.node (Or.inl nodeIn)
  have boundsV := foot.bounds it.val (Or.inl valIn)
  have boundsH := foot.bounds hdr (Or.inl tableFoot_header)
  have nodeSize := item.nodeSize
  have width := item.valSize
  have size := held.stands.size.1
  have word : load m (it.node.ptr + 8) 8 = it.val.ptr :=
    (load_congr ((step.bytes it.node (Or.inl nodeIn) ⟨Or.inl nodeIn, node⟩).narrow (by omega) (by omega))).trans item.valueOffset
  have wordV : load m (hdr.ptr + 16) 8 = p.valSize :=
    (load_congr ((step.bytes hdr (Or.inl tableFoot_header) ⟨Or.inl tableFoot_header, header⟩).narrow (by omega)
      (by omega))).trans held.stands.valSize
  have present : ¬offsetPtrIsNull it.val.ptr = true := by
    rw [offsetPtrIsNull_iff]
    omega
  have resolved : offsetPtrTryResolve region.base region.size it.val.ptr p.valSize = some (add64 region.base it.val.ptr) :=
    resolve_eq_some map (by omega) (by omega) (by omega)
  obtain ⟨m', run, next⟩ := exec_drop map total step (Or.inl valIn) val (item.plain _ val_mem)
  refine ⟨m', ?_, next⟩
  unfold hashtableFreeValue
  rw [HashTableEntry.valueOffset, exec_load64 (by omega), word, if_neg present, HashTableHeader.valSize,
    exec_load64 (by omega), wordV]
  simp only [resolved]
  rw [exec_bind_of_some run]
  rfl

/-- The entry of an item goes last, after its key and its value. -/
theorem exec_dropItem (mem : it ∈ items) (still : ∀ a ∈ it.allocs, a ∉ G) (header : hdr ∉ G) {f : OffsetStoreStatus → Code Unit} :
    ∃ m', HeapStep n (tableFoot hdr array items ∪ S₀) μ ((tableFoot hdr array items ∪ S₀) \ (G ∪ {a | a ∈ it.allocs})) m' ∧
      exec (hashtableFreeKey region (add64 region.base it.node.ptr) >>= fun _ =>
        hashtableFreeValue region (add64 region.base hdr.ptr) (add64 region.base it.node.ptr) >>= fun _ =>
        allocatorFree region (add64 region.base it.node.ptr) >>= f) m = exec (f .ok) m' := by
  obtain ⟨nodeKey, nodeVal, keyVal⟩ := parts_distinct held.stands.distinct mem
  have item := held.stands.each it mem
  obtain ⟨m₁, first, step₁⟩ := exec_dropKey map total held step mem (still _ node_mem) (still _ key_mem)
  obtain ⟨m₂, second, step₂⟩ := exec_dropValue map total held step₁ mem
    (by simp [nodeKey, still _ node_mem]) (by simp [keyVal.symm, still _ val_mem])
    (by simp [header, header_ne_part held.stands.distinct mem key_mem])
  obtain ⟨m₃, third, step₃⟩ := exec_drop map total step₂ (Or.inl (tableFoot_item mem node_mem))
    (by simp [nodeKey, nodeVal, still _ node_mem]) (item.plain _ node_mem)
  rw [insert_parts] at step₃
  refine ⟨m₃, step₃, ?_⟩
  rw [exec_bind_of_some first, exec_bind_of_some second, exec_bind_of_some third]

/-- The chain of one bucket, entry after entry. -/
theorem exec_dropChain (sub : ∀ x ∈ row, x ∈ items) (apart : (row.map fun x => x.node.ptr).Nodup)
    (still : ∀ x ∈ row, ∀ a ∈ x.allocs, a ∉ G) (header : hdr ∉ G) {cell : Nat}
    (links : Chain (fun c => load μ c 8) 16 cell (row.map fun x => x.node.ptr)) {left : Nat} (enough : row.length < left) :
    ∃ m', HeapStep n (tableFoot hdr array items ∪ S₀) μ ((tableFoot hdr array items ∪ S₀) \ (G ∪ itemAllocs row)) m' ∧
      exec (hashtableFreeChain region (add64 region.base hdr.ptr) left (load μ cell 8)) m = some ((), m') := by
  induction row generalizing G m cell left with
  | nil =>
    obtain ⟨left, rfl⟩ : ∃ k, left = k + 1 := ⟨left - 1, by simp at enough; omega⟩
    have zero : load μ cell 8 = 0 := links
    have none : G ∪ itemAllocs [] = G := by simp [itemAllocs]
    rw [zero, none, hashtableFreeChain]
    exact ⟨m, step, rfl⟩
  | cons x row ih =>
    obtain ⟨left, rfl⟩ : ∃ k, left = k + 1 := ⟨left - 1, by simp at enough; omega⟩
    obtain ⟨first, nonzero, later⟩ := links
    have user := map.user
    have mem := sub x List.mem_cons_self
    have item := held.stands.each x mem
    have nodeIn : x.node ∈ tableFoot hdr array items := tableFoot_item mem node_mem
    have bounds := held.beside.heap.footprint.bounds x.node (Or.inl nodeIn)
    have nodeSize := item.nodeSize
    have resolved : offsetPtrTryResolve region.base region.size x.node.ptr HashTableEntry.sizeof =
        some (add64 region.base x.node.ptr) :=
      resolve_eq_some map (by omega) (by omega) (by simp only [HashTableEntry.sizeof]; omega)
    have next : load m (x.node.ptr + 16) 8 = load μ (x.node.ptr + 16) 8 :=
      load_congr ((step.bytes x.node (Or.inl nodeIn) ⟨Or.inl nodeIn, still x List.mem_cons_self _ node_mem⟩).narrow (by omega)
        (by omega))
    rw [List.map_cons, List.nodup_cons] at apart
    obtain ⟨m₁, step₁, run⟩ := exec_dropItem map total held step mem (still x List.mem_cons_self) header
      (f := fun _ => hashtableFreeChain region (add64 region.base hdr.ptr) left (load μ (x.node.ptr + 16) 8))
    have fresh : ∀ y ∈ row, ∀ a ∈ y.allocs, a ∉ G ∪ {a | a ∈ x.allocs} := by
      intro y my a part gone
      rcases gone with old | here
      · exact still y (List.mem_cons_of_mem x my) a part old
      · have other : y ≠ x := fun same => apart.1 (same ▸ List.mem_map_of_mem my)
        exact (items_distinct held.stands.distinct (sub y (List.mem_cons_of_mem x my)) mem part here).resolve_left other rfl
    have away : hdr ∉ G ∪ {a | a ∈ x.allocs} := by
      rintro (old | here)
      · exact header old
      · exact header_ne_part held.stands.distinct mem here rfl
    obtain ⟨m', step', rest⟩ := ih step₁ (fun y my => sub y (List.mem_cons_of_mem x my)) apart.2 fresh away later
      (by simpa using enough)
    rw [Set.union_assoc, ← itemAllocs_cons] at step'
    refine ⟨m', step', ?_⟩
    have present : ¬offsetPtrIsNull x.node.ptr = true := by
      rw [offsetPtrIsNull_iff]
      exact nonzero
    rw [show load μ cell 8 = x.node.ptr from first, hashtableFreeChain, if_neg present]
    simp only [resolved]
    rw [HashTableEntry.next, exec_load64 (by omega), next, run, rest]

end Parts

theorem mem_foot {a : Alloc} : a ∈ tableFoot hdr array items ↔ a = hdr ∨ a = array ∨ a ∈ itemAllocs items := by
  simp [tableFoot, tableAllocs, itemAllocs]

/-- Without the items and the bucket array only the header is left. -/
theorem foot_left (distinct : (tableAllocs hdr array items).Nodup) (apart : Disjoint (tableFoot hdr array items) S₀) :
    (tableFoot hdr array items ∪ S₀) \ insert array (itemAllocs items) = insert hdr S₀ := by
  have fresh : ∀ a ∈ S₀, a ∉ tableFoot hdr array items := fun a mem own => Set.disjoint_left.mp apart own mem
  ext a
  rw [Set.mem_sdiff, Set.mem_union, mem_foot, Set.mem_insert_iff, Set.mem_insert_iff, not_or]
  constructor
  · rintro ⟨(rfl | rfl | item) | other, notArray, notItem⟩
    · exact Or.inl rfl
    · exact absurd rfl notArray
    · exact absurd item notItem
    · exact Or.inr other
  · rintro (rfl | other)
    · refine ⟨Or.inl (Or.inl rfl), header_ne_array distinct, ?_⟩
      rintro ⟨x, mx, part⟩
      exact header_ne_part distinct mx part rfl
    · refine ⟨Or.inr other, ?_, fun item => fresh a other (mem_foot.mpr (Or.inr (Or.inr item)))⟩
      rintro rfl
      exact fresh a other tableFoot_array

/-- The items of the buckets below i. -/
def itemsBelow (items : List Item) (i : Nat) : List Item := items.filter fun it => it.bucket < i

theorem itemAllocs_below (items : List Item) (i : Nat) :
    itemAllocs (itemsBelow items i) ∪ itemAllocs (chainItems items i) = itemAllocs (itemsBelow items (i + 1)) := by
  ext a
  simp only [itemAllocs, itemsBelow, chainItems, Set.mem_union, Set.mem_ofPred_eq, List.mem_filter, decide_eq_true_eq]
  constructor
  · rintro (⟨x, ⟨mem, low⟩, part⟩ | ⟨x, ⟨mem, same⟩, part⟩)
    · exact ⟨x, ⟨mem, by omega⟩, part⟩
    · exact ⟨x, ⟨mem, by omega⟩, part⟩
  · rintro ⟨x, ⟨mem, low⟩, part⟩
    by_cases same : x.bucket = i
    · exact Or.inr ⟨x, ⟨mem, same⟩, part⟩
    · exact Or.inl ⟨x, ⟨mem, by omega⟩, part⟩

/-- The chains of all buckets from i on, after those below. -/
theorem exec_dropChains (map : region.Mapped) (total : region.size = n) (held : TableHeld n S₀ p hdr array items μ)
    {i left chainFuel : Nat} (start : i ≤ p.numBuckets) (turns : p.numBuckets - i < left) (enough : items.length < chainFuel)
    (step : HeapStep n (tableFoot hdr array items ∪ S₀) μ ((tableFoot hdr array items ∪ S₀) \ itemAllocs (itemsBelow items i)) m) :
    ∃ m', HeapStep n (tableFoot hdr array items ∪ S₀) μ ((tableFoot hdr array items ∪ S₀) \ itemAllocs items) m' ∧
      exec (hashtableFreeChains chainFuel region (add64 region.base hdr.ptr) (add64 region.base array.ptr) left i) m =
        some ((), m') := by
  have user := map.user
  have foot := held.beside.heap.footprint
  have stands := held.stands
  have boundsH := foot.bounds hdr (Or.inl tableFoot_header)
  have boundsA := foot.bounds array (Or.inl tableFoot_array)
  have size := stands.size.1
  have width := stands.arraySize.1
  induction left generalizing i m with
  | zero => omega
  | succ left ih =>
    have header : hdr ∉ itemAllocs (itemsBelow items i) := by
      rintro ⟨x, mx, part⟩
      exact header_ne_part stands.distinct (List.mem_of_mem_filter mx) part rfl
    have cells : array ∉ itemAllocs (itemsBelow items i) := by
      rintro ⟨x, mx, part⟩
      exact array_ne_part stands.distinct (List.mem_of_mem_filter mx) part rfl
    have count : load m (hdr.ptr + 0) 8 = p.numBuckets :=
      (load_congr ((step.bytes hdr (Or.inl tableFoot_header) ⟨Or.inl tableFoot_header, header⟩).narrow (by omega)
        (by omega))).trans stands.numBuckets
    rw [hashtableFreeChains, HashTableHeader.numBuckets, exec_load64 (by omega), count]
    by_cases more : i < p.numBuckets
    · have cell : load m (array.ptr + mul64 8 i) 8 = load μ (array.ptr + 8 * i) 8 := by
        rw [mul64_eq (by omega)]
        exact load_congr ((step.bytes array (Or.inl tableFoot_array) ⟨Or.inl tableFoot_array, cells⟩).narrow (by omega)
          (by omega))
      have short : (chainItems items i).length < chainFuel := Nat.lt_of_le_of_lt (chain_short items i) enough
      have layout := stands.layout (foot.mono Set.subset_union_left) (Set.Subset.refl _)
      have still : ∀ x ∈ chainItems items i, ∀ a ∈ x.allocs, a ∉ itemAllocs (itemsBelow items i) := by
        rintro x mx a part ⟨y, my, part'⟩
        obtain ⟨here, bucket⟩ := mem_chainItems.mp mx
        obtain ⟨there, low⟩ := List.mem_filter.mp my
        rw [decide_eq_true_eq] at low
        rcases items_distinct stands.distinct here there part part' with rfl | other
        · omega
        · exact other rfl
      obtain ⟨m₁, step₁, run⟩ := exec_dropChain map total held step (fun x mx => (mem_chainItems.mp mx).1)
        (layout.chain_nodup i) still header (stands.chains i more) short
      rw [itemAllocs_below] at step₁
      obtain ⟨m', step', rest⟩ := ih (i := i + 1) (by omega) (by omega) step₁
      refine ⟨m', step', ?_⟩
      rw [if_pos more, exec_load64 (by rw [mul64_eq (by omega)]; omega), cell, exec_bind_of_some run,
        show add64 i 1 = i + 1 from add64_eq (by omega), rest]
    · have all : itemsBelow items i = items :=
        List.filter_eq_self.mpr fun x mx => by
          have inside := stands.inside x mx
          rw [decide_eq_true_eq]
          omega
      rw [if_neg more]
      rw [all] at step
      exact ⟨m, step, rfl⟩

/-- The destruction of a table that is held. -/
theorem TableHeld.destroyed (held : TableHeld n S₀ p hdr array items m) (map : region.Mapped) (total : region.size = n)
    (enough : n ≤ fuel) : ∃ m', exec (hashtableDestroy fuel region hdr.ptr) m = some ((), m') ∧
      (liveBlocks m' = Alloc.block '' S₀ ↔ Disguise m hdr.ptr) := by
  have user := map.user
  have stands := held.stands
  have foot := held.beside.heap.footprint
  have boundsH := foot.bounds hdr (Or.inl tableFoot_header)
  have boundsA := foot.bounds array (Or.inl tableFoot_array)
  have size := stands.size.1
  have width := stands.arraySize.1
  have own : Footprint n (tableFoot hdr array items) := foot.mono Set.subset_union_left
  have short := items_short own (Set.Subset.refl _) (stands.layout own (Set.Subset.refl _))
  have intact : HeapStep n (tableFoot hdr array items ∪ S₀) m
      ((tableFoot hdr array items ∪ S₀) \ itemAllocs (itemsBelow items 0)) m := by
    have none : itemAllocs (itemsBelow items 0) = ∅ := by simp [itemAllocs, itemsBelow]
    rw [none, Set.sdiff_empty]
    exact HeapStep.refl held.beside.heap
  obtain ⟨m₁, step₁, chains⟩ := exec_dropChains map total held (Nat.zero_le _) (show p.numBuckets - 0 < fuel by omega)
    (show items.length < fuel by omega) intact
  have cells : array ∉ itemAllocs items := by
    rintro ⟨x, mx, part⟩
    exact array_ne_part stands.distinct mx part rfl
  obtain ⟨m₂, freed, step₂⟩ := exec_drop map total step₁ (Or.inl tableFoot_array) cells stands.arraySize.2
  rw [foot_left stands.distinct held.beside.apart] at step₂
  obtain ⟨status, m', released, outcome⟩ := exec_freeHeader map total enough held.beside tableFoot_header stands.size.2
    (by omega) step₂
  have resolved := resolve_table map total foot stands (Or.inl tableFoot_header)
  have buckets : offsetPtrTryResolve region.base region.size array.ptr (mul64 p.numBuckets 8) = some (add64 region.base array.ptr) := by
    rw [mul64_eq (by omega)]
    exact resolve_eq_some map (by omega) (by omega) (by omega)
  refine ⟨m', ?_, outcome⟩
  unfold hashtableDestroy hashtableLock hashtableUnlock hashtableBuckets
  simp only [resolved, HashTableHeader.buckets, HashTableHeader.numBuckets, bind_assoc]
  rw [exec_bind_of_some (exec_containerLock _ _), exec_load64 (by omega), exec_load64 (by omega), stands.buckets,
    show load m (hdr.ptr + 0) 8 = p.numBuckets from stands.numBuckets, buckets]
  rw [exec_bind_of_some (show exec (pure (some (add64 region.base array.ptr))) m = some (_, m) from rfl)]
  simp only [containerUnlock, perform_bind]
  rw [exec_bind_of_some chains, exec_bind_of_some freed]
  simp only [exec_call]
  rw [exec_bind_of_some released]
  rfl

end Table

/-- The byte sizes that follow from the arguments of the creation stay below 2^64. -/
def Container.Sized : Container → Prop
  | .dynarray elemSize => 4 * elemSize + 112 ≤ 2 ^ 64
  | .dynlist elemSize => elemSize + 128 ≤ 2 ^ 64
  | .hashtable numBuckets keySize valSize => numBuckets * 8 + 112 ≤ 2 ^ 64 ∧ keySize < 2 ^ 64 ∧ valSize + 112 ≤ 2 ^ 64
  | .ringbuf capacity elemSize => capacity * elemSize + 112 ≤ 2 ^ 64

section Clean
variable {n fuel h : Nat} {region : ShmRegion} {m m₀ : Mem} {S₀ : Set Alloc} {c : Container}

/-- The destruction of an array, a ring buffer or a table gives everything back exactly when the first two fields of the
    header pass for the words of an object. -/
theorem destroy_clean_iff (map : region.Mapped) (total : region.size = n) (large : 2728 ≤ n) (enough : n ≤ fuel)
    (heap : HeapLive n m₀ S₀) (flat : ∀ elemSize, c ≠ .dynlist elemSize) (small : c.Sized)
    (session : Session fuel region c (fun _ op _ => op.Sized) m₀ h m) :
    ∃ m', exec (c.destroy fuel region h) m = some ((), m') ∧ (liveBlocks m' = liveBlocks m₀ ↔ Disguise m h) := by
  rw [heap.blocks]
  cases c with
  | dynarray elemSize =>
    obtain ⟨s, hdr, data, held⟩ := session.array map total large enough heap small
    exact held.destroyed map total enough
  | dynlist elemSize => exact absurd rfl (flat elemSize)
  | hashtable numBuckets keySize valSize =>
    obtain ⟨small, wordK, wide⟩ := small
    obtain ⟨hdr, array, items, rfl, held⟩ := session.table (p := ⟨numBuckets, keySize, valSize⟩) map total enough heap small
      wordK wide
    exact held.destroyed map total enough
  | ringbuf capacity elemSize =>
    obtain ⟨hdr, data, held⟩ := session.ring map total large enough heap small
    exact held.destroyed map total enough

/-- Two elements have passed through a ring buffer of two slots of one byte and a third one is in it:
    the head is even again. -/
theorem destroy_clean_small : ∃ m m', Session 4096 smallRegion (.ringbuf 2 1) (fun _ op _ => op.Sized) initialised 2784 m ∧
    exec (ringbufDestroy 4096 smallRegion 2784) m = some ((), m') ∧ liveBlocks m' = liveBlocks initialised := by
  let push := (Container.Op.enqueue (c := 2) (e := 1) fun _ => 7).code 4096 smallRegion 2784
  let pop := (Container.Op.pop (c := 2) (e := 1)).code 4096 smallRegion 2784
  have made : (exec (ringbufCreate 4096 smallRegion 2 1) initialised).bind (fun made => (exec push made.2).bind fun one =>
      (exec pop one.2).bind fun two => (exec push two.2).bind fun three => (exec pop three.2).bind fun four =>
        (exec push four.2).map fun r =>
          [made.1, load r.2 (2784 + 8) 8, load r.2 2784 8, load r.2 (2784 - AllocationPrefix.sizeof) 8, load r.2 2736 8]) =
      some [2784, 0, 2, 2736, 144] := by decide +kernel
  obtain ⟨⟨h, m₀⟩, run, made⟩ := Option.bind_eq_some_iff.mp made
  obtain ⟨⟨_, m₁⟩, first, made⟩ := Option.bind_eq_some_iff.mp made
  obtain ⟨⟨_, m₂⟩, second, made⟩ := Option.bind_eq_some_iff.mp made
  obtain ⟨⟨_, m₃⟩, third, made⟩ := Option.bind_eq_some_iff.mp made
  obtain ⟨⟨_, m₄⟩, fourth, made⟩ := Option.bind_eq_some_iff.mp made
  obtain ⟨⟨_, m⟩, fifth, same⟩ := Option.map_eq_some_iff.mp made
  simp only [List.cons.injEq, and_true] at same
  obtain ⟨rfl, head, capacity, block, width⟩ := same
  have created : Session 4096 smallRegion (.ringbuf 2 1) (fun _ op _ => op.Sized) initialised 2784 m₀ :=
    .created run (by decide)
  have once := (created.called (.enqueue fun _ => 7) trivial first).called .pop trivial second
  have session := ((once.called (.enqueue fun _ => 7) trivial third).called .pop trivial fourth).called
    (.enqueue fun _ => 7) trivial fifth
  obtain ⟨m', destroy, clean⟩ := destroy_clean_iff (c := .ringbuf 2 1) smallRegion_mapped rfl (by decide) (Nat.le_refl _)
    heapLive_initialised (fun _ => by simp) (show 2 * 1 + 112 ≤ 2 ^ 64 by decide) session
  refine ⟨m, m', session, destroy, clean.mpr ?_⟩
  unfold Disguise
  rw [head, capacity, block, width]
  decide

/-- Once an element has passed through, the head is odd and the header at 2736 stays allocated. -/
theorem ring_header_leaks : ∃ m m', Session 4096 smallRegion (.ringbuf 2 1) (fun _ op _ => op.Sized) initialised 2784 m ∧
    exec (ringbufDestroy 4096 smallRegion 2784) m = some ((), m') ∧ ¬liveBlocks m' = liveBlocks initialised := by
  have made : (exec (ringbufCreate 4096 smallRegion 2 1) initialised).bind (fun r =>
      (exec ((Container.Op.enqueue (c := 2) (e := 1) fun _ => 0).code 4096 smallRegion 2784) r.2).bind fun q =>
        (exec ((Container.Op.pop (c := 2) (e := 1)).code 4096 smallRegion 2784) q.2).bind fun t =>
          (exec (ringbufDestroy 4096 smallRegion 2784) t.2).map fun d =>
            [r.1, load d.2 2512 8, load d.2 2520 8, load d.2 2736 8, load d.2 2752 4, load d.2 2880 8, load d.2 2944 8]) =
      some [2784, 2736, 1360, 144, 0, 64, 132] := by decide +kernel
  obtain ⟨⟨h, m⟩, run, shown⟩ := Option.bind_eq_some_iff.mp made
  obtain ⟨⟨_, m₁⟩, first, shown⟩ := Option.bind_eq_some_iff.mp shown
  obtain ⟨⟨_, m₂⟩, second, shown⟩ := Option.bind_eq_some_iff.mp shown
  obtain ⟨⟨_, m'⟩, destroy, same⟩ := Option.map_eq_some_iff.mp shown
  simp only [List.cons.injEq, and_true] at same
  obtain ⟨rfl, offset, total, header, flags, buffer, rest⟩ := same
  refine ⟨m₂, m', .called (.called (.created run (by decide)) (.enqueue fun _ => 0) trivial first) .pop trivial second, destroy,
    fun clean => ?_⟩
  have none := heapLive_initialised.blocks
  rw [Set.image_empty, ← clean] at none
  have here : 2736 ∈ liveBlocks m' := by
    refine ⟨0, by omega, [2736, 2880, 2944], ?_, by simp, ?_⟩
    · simp [Tiles, heapOffsetOf, heapSizeOf, blockSizeOf, offset, total, header, buffer, rest]
    · simp [isFreeBlock, flags]
  rw [none] at here
  exact here

end Clean

end OffsetStore
