import OffsetStore.HeapSessions
import OffsetStore.DynArrayRuns
import OffsetStore.DynListRuns
import OffsetStore.HashTableRuns
import OffsetStore.RingBufRuns

/- The byte sizes that the containers ask the allocator for. They are computed modulo
   2^64; what a call then has is as much as it wanted exactly when that fits the region. -/
namespace OffsetStore
open ByteMemory Program Prog Words Pool

/-- A call that allocates and succeeds: the bytes it wants, over unbounded integers, the
    memory it leaves, and where the new allocation should be. -/
inductive Allocates (fuel : Nat) (region : ShmRegion) (n : Nat) (m : Mem) (S : Set Alloc) : Nat → Mem → Nat → Prop where
  | reserve {s : ArrayState} {hdr : Alloc} {data : Option Alloc} {newCap : Nat} {m' : Mem}
      (stands : ArrayStands s hdr data m) (mine : arrayFoot hdr data ⊆ S) (grows : s.capacity < newCap)
      (run : exec (dynarrayReserve fuel region s.handle newCap) m = some (0, m')) :
      Allocates fuel region n m S (newCap * s.elemSize) m' (load m' (s.handle + DynArrayHeader.dataOffset) 8)
  | push {s : ArrayState} {hdr : Alloc} {data : Option Alloc} {elem : Mem} {m' : Mem}
      (stands : ArrayStands s hdr data m) (mine : arrayFoot hdr data ⊆ S) (full : s.elems.length = s.capacity)
      (run : exec (dynarrayPush fuel region s.handle elem) m = some (0, m')) :
      Allocates fuel region n m S (s.grown * s.elemSize) m' (load m' (s.handle + DynArrayHeader.dataOffset) 8)
  | ringbuf {capacity elemSize h : Nat} {m' : Mem}
      (run : exec (ringbufCreate fuel region capacity elemSize) m = some (h, m')) (made : h ≠ offsetPtrNull) :
      Allocates fuel region n m S (capacity * elemSize) m' (load m' (h + RingBufHeader.dataOffset) 8)
  | hashtable {numBuckets keySize valSize h : Nat} {m' : Mem} (keyWord : keySize < 2 ^ 64) (valWord : valSize < 2 ^ 64)
      (run : exec (hashtableCreate fuel region numBuckets keySize valSize) m = some (h, m')) (made : h ≠ offsetPtrNull) :
      Allocates fuel region n m S (numBuckets * 8) m' (load m' (h + HashTableHeader.buckets) 8)
  | pushBack {s : ListState} {hdr : Alloc} {nodes : List Alloc} {elem : Mem} {m' : Mem}
      (stands : ListStands s hdr nodes m) (mine : listFoot hdr nodes ⊆ S)
      (run : exec (dynlistPushBack fuel region s.handle elem) m = some (0, m')) :
      Allocates fuel region n m S (DynListNodeHeader.sizeof + s.elemSize) m' (load m' (s.handle + DynListHeader.tail) 8)
  | pushFront {s : ListState} {hdr : Alloc} {nodes : List Alloc} {elem : Mem} {m' : Mem}
      (stands : ListStands s hdr nodes m) (mine : listFoot hdr nodes ⊆ S)
      (run : exec (dynlistPushFront fuel region s.handle elem) m = some (0, m')) :
      Allocates fuel region n m S (DynListNodeHeader.sizeof + s.elemSize) m' (load m' (s.handle + DynListHeader.head) 8)

section Sizes
variable {fuel n : Nat} {region : ShmRegion} {m m' : Mem} {S : Set Alloc}

theorem Left.designates {L L' : Set Alloc} {μ' : Mem} (left : Left n S L m L' μ' m') {a : Alloc} (mem : a ∈ L') :
    Designates n m' a.ptr a.size := left.heap.designates (Or.inl mem)

/-- A buffer of an array that stands has room for all slots. -/
theorem array_designates {s : ArrayState} {hdr : Alloc} {data : Option Alloc} {L : Set Alloc} {μ' : Mem}
    (left : Left n S L m (arrayFoot hdr data) μ' m') (stands : ArrayStands s hdr data μ') (positive : 0 < s.capacity) :
    Designates n m' (load m' (s.handle + DynArrayHeader.dataOffset) 8) (s.capacity * s.elemSize) := by
  have now := stands.congr left.mine
  have offset := now.offset
  rw [now.place] at offset
  cases data with
  | none =>
    have bare := stands.bare rfl
    omega
  | some d =>
    have mem : d ∈ arrayFoot hdr (some d) := data_mem rfl
    have found := left.designates mem
    rw [(stands.buffer d rfl).1] at found
    rw [DynArrayHeader.dataOffset, offset]
    exact found

theorem reserve_designates (map : region.Mapped) (total : region.size = n) (large : 2728 ≤ n) (enough : n ≤ fuel)
    (heap : HeapLive n m S) {s : ArrayState} {hdr : Alloc} {data : Option Alloc} {newCap : Nat}
    (stands : ArrayStands s hdr data m) (mine : arrayFoot hdr data ⊆ S) (grows : s.capacity < newCap)
    (run : exec (dynarrayReserve fuel region s.handle newCap) m = some (0, m')) (small : newCap * s.elemSize ≤ n) :
    Designates n m' (load m' (s.handle + DynArrayHeader.dataOffset) 8) (newCap * s.elemSize) := by
  have user := map.user
  have bound : newCap * s.elemSize + 112 ≤ 2 ^ 64 := by omega
  obtain ⟨rc, m₁, L', μ', ran, ⟨s', data', next, width, rfl, after⟩, left⟩ :=
    does_alone (does_reserve map total large enough stands bound) heap mine
  obtain ⟨rfl, rfl⟩ := Prod.mk.inj (Option.some.inj (run.symm.trans ran))
  simp only [arrayNext, if_neg (Nat.not_le.mpr grows), if_true] at next
  obtain rfl := Option.some.inj (Option.some.inj next)
  exact array_designates left after (Nat.lt_of_le_of_lt (Nat.zero_le _) grows)

theorem push_designates (map : region.Mapped) (total : region.size = n) (large : 2728 ≤ n) (enough : n ≤ fuel)
    (heap : HeapLive n m S) {s : ArrayState} {hdr : Alloc} {data : Option Alloc} {elem : Mem}
    (stands : ArrayStands s hdr data m) (mine : arrayFoot hdr data ⊆ S) (full : s.elems.length = s.capacity)
    (run : exec (dynarrayPush fuel region s.handle elem) m = some (0, m')) (small : s.grown * s.elemSize ≤ n) :
    Designates n m' (load m' (s.handle + DynArrayHeader.dataOffset) 8) (s.grown * s.elemSize) := by
  have user := map.user
  have positive : 0 < s.grown := by
    unfold ArrayState.grown
    split
    · omega
    · split
      · omega
      · omega
  have least := Nat.le_mul_of_pos_left s.elemSize positive
  obtain ⟨rc, m₁, L', μ', ran, ⟨s', data', next, width, rfl, after⟩, left⟩ :=
    does_alone (does_push map total large enough stands (by omega) elem) heap mine
  obtain ⟨rfl, rfl⟩ := Prod.mk.inj (Option.some.inj (run.symm.trans ran))
  simp only [arrayNext, if_true] at next
  obtain rfl := Option.some.inj (Option.some.inj next)
  exact array_designates left after positive

theorem pushBack_designates (map : region.Mapped) (total : region.size = n) (large : 2728 ≤ n) (enough : n ≤ fuel)
    (heap : HeapLive n m S) {s : ListState} {hdr : Alloc} {nodes : List Alloc} {elem : Mem}
    (stands : ListStands s hdr nodes m) (mine : listFoot hdr nodes ⊆ S)
    (run : exec (dynlistPushBack fuel region s.handle elem) m = some (0, m')) (small : 16 + s.elemSize ≤ n) :
    Designates n m' (load m' (s.handle + DynListHeader.tail) 8) (16 + s.elemSize) := by
  obtain ⟨rc, m₁, L', μ', ran, ⟨s', next, repr⟩, left⟩ :=
    does_alone (does_pushBack map total large enough stands small elem) heap mine
  obtain ⟨rfl, rfl⟩ := Prod.mk.inj (Option.some.inj (run.symm.trans ran))
  simp only [listNext, if_true] at next
  obtain rfl := Option.some.inj next
  obtain ⟨_, hdr', nodes', after, rfl⟩ := repr
  have now := after.congr left.mine
  obtain ⟨rfl, _⟩ | ⟨before, t, rfl, tail, _⟩ := now.tail_cases
  · exact absurd now.elements (by simp)
  · have mem : t ∈ before ++ [t] := by simp
    have found := left.designates (node_in hdr' mem)
    rw [now.layout.width t mem] at found
    rw [now.place] at tail
    rw [DynListHeader.tail, tail]
    exact found

theorem pushFront_designates (map : region.Mapped) (total : region.size = n) (large : 2728 ≤ n) (enough : n ≤ fuel)
    (heap : HeapLive n m S) {s : ListState} {hdr : Alloc} {nodes : List Alloc} {elem : Mem}
    (stands : ListStands s hdr nodes m) (mine : listFoot hdr nodes ⊆ S)
    (run : exec (dynlistPushFront fuel region s.handle elem) m = some (0, m')) (small : 16 + s.elemSize ≤ n) :
    Designates n m' (load m' (s.handle + DynListHeader.head) 8) (16 + s.elemSize) := by
  obtain ⟨rc, m₁, L', μ', ran, ⟨s', next, repr⟩, left⟩ :=
    does_alone (does_pushFront map total large enough stands small elem) heap mine
  obtain ⟨rfl, rfl⟩ := Prod.mk.inj (Option.some.inj (run.symm.trans ran))
  simp only [listNext, if_true] at next
  obtain rfl := Option.some.inj next
  obtain ⟨_, hdr', nodes', after, rfl⟩ := repr
  have now := after.congr left.mine
  obtain ⟨rfl, _⟩ | ⟨h, rest, rfl, head, _⟩ := now.head_cases
  · exact absurd now.elements (by simp)
  · have mem : h ∈ h :: rest := List.mem_cons_self
    have found := left.designates (node_in hdr' mem)
    rw [now.layout.width h mem] at found
    rw [now.place] at head
    rw [DynListHeader.head, head]
    exact found

theorem ringbuf_designates (map : region.Mapped) (total : region.size = n) (large : 2728 ≤ n) (enough : n ≤ fuel)
    (heap : HeapLive n m S) (params : RingParams) {h : Nat}
    (run : exec (ringbufCreate fuel region params.capacity params.elemSize) m = some (h, m')) (made : h ≠ 0)
    (small : params.capacity * params.elemSize ≤ n) :
    Designates n m' (load m' (h + RingBufHeader.dataOffset) 8) (params.capacity * params.elemSize) := by
  have user := map.user
  have bound : params.capacity * params.elemSize + 112 ≤ 2 ^ 64 := by omega
  obtain ⟨h', m₁, L', μ', ran, outcome, left⟩ :=
    does_alone (does_ringMake map total large enough bound) heap (Set.empty_subset S)
  obtain ⟨rfl, rfl⟩ := Prod.mk.inj (Option.some.inj (run.symm.trans ran))
  obtain rfl | ⟨_, _, hdr, data, rfl, _, _, rfl, size, _, width, _, _, ring⟩ := outcome
  · exact absurd rfl made
  · have header := left.mine hdr (Set.mem_insert_of_mem _ (Set.mem_insert _ _))
    have found := left.designates (Set.mem_insert data _)
    rw [width] at found
    rw [load_congr (header.narrow (Nat.le_add_right _ _) (by simp only [RingBufHeader.dataOffset]; omega)),
      ring.dataOffset]
    exact found

theorem hashtable_designates (map : region.Mapped) (total : region.size = n) (large : 2728 ≤ n) (enough : n ≤ fuel)
    (heap : HeapLive n m S) (p : TableParams) {h : Nat} (wordK : p.keySize < 2 ^ 64) (wordV : p.valSize < 2 ^ 64)
    (run : exec (hashtableCreate fuel region p.numBuckets p.keySize p.valSize) m = some (h, m')) (made : h ≠ 0)
    (small : p.numBuckets * 8 ≤ n) :
    Designates n m' (load m' (h + HashTableHeader.buckets) 8) (p.numBuckets * 8) := by
  have user := map.user
  obtain ⟨h', m₁, L', μ', ran, outcome, left⟩ :=
    does_alone (does_tableCreate map total large enough (by omega) wordK wordV) heap (Set.empty_subset S)
  obtain ⟨rfl, rfl⟩ := Prod.mk.inj (Option.some.inj (run.symm.trans ran))
  obtain rfl | ⟨_, hdr, array, rfl, rfl, after⟩ := outcome
  · exact absurd rfl made
  · have now := after.congr left.mine
    have found := left.designates tableFoot_array
    rw [now.arraySize.1] at found
    rw [HashTableHeader.buckets, now.buckets]
    exact found

/-- A successful call has the bytes it wanted exactly when they fit the region. -/
theorem allocates_iff (map : region.Mapped) (total : region.size = n) (large : 2728 ≤ n) (enough : n ≤ fuel)
    (heap : HeapLive n m S) {wanted p : Nat} (call : Allocates fuel region n m S wanted m' p) :
    Designates n m' p wanted ↔ wanted ≤ n := by
  refine ⟨fun found => ?_, fun small => ?_⟩
  · have inside := found.inside
    omega
  · cases call with
    | reserve stands mine grows run => exact reserve_designates map total large enough heap stands mine grows run small
    | push stands mine full run => exact push_designates map total large enough heap stands mine full run small
    | ringbuf run made =>
      exact ringbuf_designates map total large enough heap ⟨_, _⟩ run made small
    | hashtable keyWord valWord run made =>
      exact hashtable_designates map total large enough heap ⟨_, _, _⟩ keyWord valWord run made small
    | pushBack stands mine run => exact pushBack_designates map total large enough heap stands mine run small
    | pushFront stands mine run => exact pushFront_designates map total large enough heap stands mine run small

/-- The slots of an allocation of count times width bytes lie in its block. -/
theorem Designates.slot {p i count width : Nat} (found : Designates n m p (count * width)) (inside : i < count) :
    p + i * width + width ≤ load m (p - AllocationPrefix.sizeof) 8 +
      blockSizeOf m (load m (p - AllocationPrefix.sizeof) 8) := by
  have fits := slot_le (e := width) inside
  have room := found.room
  omega

/-- A ring buffer of two slots of one byte. -/
theorem allocates_iff_small : ∃ m' p, Allocates 4096 smallRegion 4096 initialised ∅ (2 * 1) m' p ∧
    (Designates 4096 m' p (2 * 1) ↔ 2 * 1 ≤ 4096) := by
  obtain ⟨m', run, _⟩ := ringbufCreate_small
  have call : Allocates 4096 smallRegion 4096 initialised ∅ (2 * 1) m' (load m' (2784 + RingBufHeader.dataOffset) 8) :=
    .ringbuf run (by decide)
  exact ⟨m', _, call, allocates_iff smallRegion_mapped rfl (by decide) (Nat.le_refl _) heapLive_initialised call⟩

/-- A ring buffer of 2^61 + 1 slots of eight bytes is created in a region of 4096 bytes. -/
theorem wrapped_ring_created : HeapLive 4096 initialised ∅ ∧
    ∃ m', exec (ringbufCreate 4096 smallRegion (2 ^ 61 + 1) 8) initialised = some (2784, m') ∧
      ¬Designates 4096 m' (load m' (2784 + RingBufHeader.dataOffset) 8) ((2 ^ 61 + 1) * 8) := by
  have made : (exec (ringbufCreate 4096 smallRegion (2 ^ 61 + 1) 8) initialised).map Prod.fst = some 2784 := by
    decide +kernel
  obtain ⟨⟨h, m'⟩, run, same⟩ := Option.map_eq_some_iff.mp made
  have handle : h = 2784 := same
  subst handle
  refine ⟨heapLive_initialised, m', run, fun found => ?_⟩
  have inside := found.inside
  omega

end Sizes

end OffsetStore
