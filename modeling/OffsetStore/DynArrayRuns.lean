import OffsetStore.ContainerRuns

/- The dynamic array as a growable list. The array owns its header object and, once it
   has grown, one data buffer of capacity times element size bytes. -/
namespace OffsetStore
open ByteMemory Program Prog Words Pool

structure ArrayState where
  handle : Nat
  elemSize : Nat
  capacity : Nat
  elems : List (List UInt8)

inductive ArrayOp where
  | create (elemSize : Nat)
  | push (arr : Nat) (elem : Mem)
  | reserve (arr newCap : Nat)
  | get (arr index : Nat)
  | length (arr : Nat)

inductive ArrayResult where
  | handle (h : Nat)
  | code (rc : Int)
  | element (bytes : Option (List UInt8))
  | length (len : Nat)

def arrayCode (fuel : Nat) (region : ShmRegion) : ArrayOp → Code ArrayResult
  | .create elemSize => do
    let h ← dynarrayCreate fuel region elemSize
    return .handle h
  | .push arr elem => do
    let rc ← dynarrayPush fuel region arr elem
    return .code rc
  | .reserve arr newCap => do
    let rc ← dynarrayReserve fuel region arr newCap
    return .code rc
  | .get arr index => do
    let bytes ← dynarrayGet region arr index
    return .element bytes
  | .length arr => do
    let len ← dynarrayLength region arr
    return .length len

/-- One array is created, with elements no larger than the region; its calls name its handle. -/
def arrayEnabled (n : Nat) : Option ArrayState → ArrayOp → Prop
  | none, .create elemSize => elemSize ≤ n
  | some s, .push arr _ => arr = s.handle
  | some s, .reserve arr newCap => arr = s.handle ∧ newCap * s.elemSize < 2 ^ 63
  | some s, .get arr _ => arr = s.handle
  | some s, .length arr => arr = s.handle
  | _, _ => False

/-- Room for one more element. -/
def ArrayState.grown (s : ArrayState) : Nat :=
  if s.elems.length < s.capacity then s.capacity else if s.capacity = 0 then 4 else 2 * s.capacity

/-- The growable list: what each call may return, and the list after it. -/
def arrayNext : Option ArrayState → ArrayOp → ArrayResult → Option (Option ArrayState)
  | none, .create elemSize, .handle h =>
      if h = 0 then some none
      else if elemSize = 0 then none
      else some (some ⟨h, elemSize, 0, []⟩)
  | some s, .push _ elem, .code rc =>
      if rc = 0 then
        some (some { s with capacity := s.grown, elems := s.elems ++ [loadBytes elem 0 s.elemSize] })
      else if rc = -1 ∧ s.elems.length = s.capacity then some (some s)
      else none
  | some s, .reserve _ newCap, .code rc =>
      if newCap ≤ s.capacity then if rc = 0 then some (some s) else none
      else if rc = 0 then some (some { s with capacity := newCap })
      else if rc = -1 then some (some s)
      else none
  | some s, .get _ index, .element bytes => if bytes = s.elems[index]? then some (some s) else none
  | some s, .length _, .length len => if len = s.elems.length then some (some s) else none
  | _, _, _ => none

def arrayComponent (fuel n : Nat) : Component ArrayOp ArrayResult (Option ArrayState) where
  code := arrayCode fuel
  enabled := arrayEnabled n
  next := arrayNext

/-- The header and the data buffer stand for a list. -/
structure ArrayStands (s : ArrayState) (hdr : Alloc) (data : Option Alloc) (μ : Mem) : Prop where
  place : hdr.ptr = s.handle
  size : hdr.size = 88
  positive : 0 < s.elemSize
  capacity : load μ hdr.ptr 8 = s.capacity
  length : load μ (hdr.ptr + 8) 8 = s.elems.length
  elemSize : load μ (hdr.ptr + 16) 8 = s.elemSize
  offset : load μ (hdr.ptr + 24) 8 = data.elim 0 Alloc.ptr
  room : s.elems.length ≤ s.capacity
  other : hdr ∉ data
  buffer : ∀ d ∈ data, d.size = s.capacity * s.elemSize ∧ d.align = 16
  bare : data = none → s.capacity = 0
  elements : ∀ d ∈ data, ∀ i, (inside : i < s.elems.length) →
    loadBytes μ (d.ptr + i * s.elemSize) s.elemSize = s.elems[i]

def arrayFoot (hdr : Alloc) (data : Option Alloc) : Set Alloc := insert hdr {d | d ∈ data}

def arrayRepr (n : Nat) : Option ArrayState → Set Alloc → Mem → Prop
  | none, L, _ => L = ∅
  | some s, L, μ => s.elemSize ≤ n ∧ ∃ hdr data, ArrayStands s hdr data μ ∧ L = arrayFoot hdr data

section Stands
variable {s : ArrayState} {hdr : Alloc} {data : Option Alloc} {μ μ' : Mem} {n : Nat}

theorem header_mem (hdr : Alloc) (data : Option Alloc) : hdr ∈ arrayFoot hdr data := Set.mem_insert _ _

theorem data_mem {d : Alloc} (mem : d ∈ data) : d ∈ arrayFoot hdr data := Set.mem_insert_of_mem _ mem

theorem ArrayStands.congr (stands : ArrayStands s hdr data μ)
    (same : ∀ a ∈ arrayFoot hdr data, SameOn μ μ' a.ptr (a.ptr + a.size)) : ArrayStands s hdr data μ' := by
  have header := same hdr (header_mem hdr data)
  have size := stands.size
  refine ⟨stands.place, size, stands.positive, ?_, ?_, ?_, ?_, stands.room, stands.other, stands.buffer,
    stands.bare, ?_⟩
  · rw [load_congr (header.narrow (by omega) (by omega)), stands.capacity]
  · rw [load_congr (header.narrow (by omega) (by omega)), stands.length]
  · rw [load_congr (header.narrow (by omega) (by omega)), stands.elemSize]
  · rw [load_congr (header.narrow (by omega) (by omega)), stands.offset]
  · intro d mem i inside
    have fits := slot_le (e := s.elemSize) (Nat.lt_of_lt_of_le inside stands.room)
    have width := (stands.buffer d mem).1
    rw [loadBytes_congr ((same d (data_mem mem)).narrow (by omega) (by omega))]
    exact stands.elements d mem i inside

/-- With the old buffer gone, the header and the new buffer are left. -/
theorem arrayFoot_moved {d : Alloc} (other : hdr ∉ data) (fresh : d ∉ arrayFoot hdr data) :
    insert d (arrayFoot hdr data) \ {a | a ∈ data} = arrayFoot hdr (some d) := by
  ext x
  have second : d ∉ data := fun isData => fresh (data_mem isData)
  simp only [arrayFoot, Set.mem_sdiff, Set.mem_insert_iff, Set.mem_ofPred_eq, Option.mem_def, Option.some.injEq]
  constructor
  · rintro ⟨rfl | rfl | isData, gone⟩
    · exact Or.inr rfl
    · exact Or.inl rfl
    · exact absurd isData gone
  · rintro (rfl | rfl)
    · exact ⟨Or.inr (Or.inl rfl), other⟩
    · exact ⟨Or.inl rfl, second⟩

/-- The list stands in a new buffer that holds its elements, once the header names it and its capacity. -/
theorem ArrayStands.grown (stands : ArrayStands s hdr data μ) {d : Alloc} {newCap : Nat} (fresh : d ∉ arrayFoot hdr data)
    (wide : d.size = newCap * s.elemSize) (align : d.align = 16)
    (apart : d.ptr + d.size ≤ hdr.ptr ∨ hdr.ptr + hdr.size ≤ d.ptr) (word : newCap < 2 ^ 64) (place : d.ptr < 2 ^ 64)
    (more : s.capacity < newCap) (elements : ∀ i, (inside : i < s.elems.length) →
      loadBytes μ (d.ptr + i * s.elemSize) s.elemSize = s.elems[i]) :
    ArrayStands { s with capacity := newCap } hdr (some d) (store (store μ (hdr.ptr + 24) 8 d.ptr) hdr.ptr 8 newCap) := by
  have size := stands.size
  have room := stands.room
  have bytes : s.elems.length * s.elemSize ≤ newCap * s.elemSize := Nat.mul_le_mul_right _ (by omega)
  refine ⟨stands.place, size, stands.positive, ?_, ?_, ?_, ?_, by simp only; omega, ?_, ?_, by simp, ?_⟩
  · exact load_store_eight (by omega)
  · rw [load_store_apart (by omega), load_store_apart (by omega), stands.length]
  · rw [load_store_apart (by omega), load_store_apart (by omega), stands.elemSize]
  · rw [load_store_apart (by omega)]
    exact load_store_eight (by omega)
  · rintro ⟨⟩
    exact fresh (header_mem hdr data)
  · rintro _ ⟨⟩
    exact ⟨wide, align⟩
  · rintro _ ⟨⟩ i inside
    have slot : i * s.elemSize + s.elemSize ≤ s.elems.length * s.elemSize := slot_le inside
    refine (loadBytes_congr fun x low high => ?_).trans (elements i inside)
    simp only at low high
    rw [store_outside, store_outside]
    all_goals omega

end Stands

/-- A call has made the list one that its description allows, in the same header. -/
def ArrayMoves (s : ArrayState) (hdr : Alloc) (op : ArrayOp) (r : ArrayResult) (L' : Set Alloc) (μ' : Mem) : Prop :=
  ∃ s' data', arrayNext (some s) op r = some (some s') ∧ s'.elemSize = s.elemSize ∧ L' = arrayFoot hdr data' ∧
    ArrayStands s' hdr data' μ'

/-- The calls whose byte sizes do not come near 2^64. -/
def arrayFits (s : ArrayState) : ArrayOp → Prop
  | .create _ => False
  | .push arr _ => arr = s.handle
  | .reserve arr newCap => arr = s.handle ∧ newCap * s.elemSize + 112 ≤ 2 ^ 64
  | .get arr _ => arr = s.handle
  | .length arr => arr = s.handle

section Calls
variable {s : ArrayState} {hdr : Alloc} {data : Option Alloc} {μ : Mem} {n fuel : Nat} {region : ShmRegion}
  {L : Set Alloc}

theorem resolve_array (map : region.Mapped) (total : region.size = n) (foot : Footprint n L)
    (stands : ArrayStands s hdr data μ) (mem : hdr ∈ L) :
    dynarrayResolveHeader region s.handle = some (add64 region.base hdr.ptr) := by
  have bounds := foot.bounds hdr mem
  have size := stands.size
  rw [← stands.place]
  exact resolve_eq_some map (by omega) (by omega) (by simp only [DynArrayHeader.sizeof]; omega)

/-- The buffer resolves for any number of elements up to the capacity. -/
theorem resolve_buffer (map : region.Mapped) (total : region.size = n) (foot : Footprint n L)
    (stands : ArrayStands s hdr data μ) {d : Alloc} (isData : d ∈ data) (mem : d ∈ L) {count : Nat}
    (few : count ≤ s.capacity) :
    offsetPtrTryResolve region.base region.size (data.elim 0 Alloc.ptr) (mul64 count s.elemSize) =
      some (add64 region.base d.ptr) := by
  have user := map.user
  have bounds := foot.bounds d mem
  have width := (stands.buffer d isData).1
  have fits : count * s.elemSize ≤ s.capacity * s.elemSize := Nat.mul_le_mul_right _ few
  rw [isData, mul64_eq (by omega)]
  exact resolve_eq_some map (by simp only [Option.elim_some]; omega) (by simp only [Option.elim_some]; omega)
    (by simp only [Option.elim_some]; omega)

/-- The copy brings every element to its place in the new buffer and changes nothing else. -/
theorem does_copyElements (map : region.Mapped) (total : region.size = n) (stands : ArrayStands s hdr data μ)
    (whole : arrayFoot hdr data ⊆ L) {a : Alloc} (mem : a ∈ L) (wide : s.elems.length * s.elemSize ≤ a.size) :
    Does n L μ (dynarrayCopyElements region (add64 region.base hdr.ptr) (add64 region.base a.ptr))
      (fun _ L' μ' => L' = L ∧ SameOff μ μ' a.ptr (a.ptr + a.size) ∧ ∀ i, (inside : i < s.elems.length) →
        loadBytes μ' (a.ptr + i * s.elemSize) s.elemSize = s.elems[i]) := by
  have size := stands.size
  have header := whole (header_mem hdr data)
  unfold dynarrayCopyElements
  simp only [DynArrayHeader.length, DynArrayHeader.dataOffset, DynArrayHeader.elemSize]
  refine does_load64 map total header (by omega) (by omega) stands.length ?_
  refine does_load64 map total header (by omega) (by omega) stands.offset ?_
  by_cases nothing : s.elems.length = 0
  · rw [if_pos (Or.inl nothing)]
    exact does_ret ⟨rfl, fun _ _ => rfl, fun i inside => absurd inside (by omega)⟩
  · have room := stands.room
    cases kind : data with
    | none => exact absurd (stands.bare kind) (by omega)
    | some d =>
      have isData : d ∈ data := kind
      refine does_foot fun foot => ?_
      have bounds := foot.bounds d (whole (data_mem isData))
      have width := (stands.buffer d isData).1
      have resolved := resolve_buffer map total foot stands isData (whole (data_mem isData)) room
      rw [kind] at resolved
      rw [if_neg (by simp [nothing]; omega)]
      refine does_load64 map total header (by omega) (by omega) stands.elemSize ?_
      simp only [Option.elim_some] at resolved ⊢
      simp only [resolved]
      have user := map.user
      have bytes : s.elems.length * s.elemSize ≤ s.capacity * s.elemSize := Nat.mul_le_mul_right _ room
      rw [mul64_eq (by omega)]
      refine does_copyOut map total (whole (data_mem isData)) (by omega) (by omega) ?_
      refine does_weaken (does_copyIn map total mem (by omega) (by rw [loadBytes_length]; omega)) ?_
      rintro _ L' μ' ⟨rfl, rfl⟩
      refine ⟨rfl, ?_, ?_⟩
      · intro x out
        exact storeBytes_outside (by rw [loadBytes_length]; omega)
      · intro i inside
        have slot := slot_le (e := s.elemSize) inside
        rw [Nat.add_zero, Nat.add_zero, loadBytes_copy slot]
        exact stands.elements d isData i inside

/-- The release of the buffer; the bytes of all that stays are untouched. -/
theorem does_freeBuffer (map : region.Mapped) (total : region.size = n) (stands : ArrayStands s hdr data μ)
    (whole : arrayFoot hdr data ⊆ L) :
    Does n L μ (dynarrayFreeBuffer region (add64 region.base hdr.ptr))
      (fun _ L' μ' => L' = L \ {d | d ∈ data} ∧ μ' = μ) := by
  have size := stands.size
  have header := whole (header_mem hdr data)
  have offset := stands.offset
  unfold dynarrayFreeBuffer
  simp only [DynArrayHeader.capacity, DynArrayHeader.dataOffset, DynArrayHeader.elemSize]
  cases kind : data with
  | none =>
    rw [kind] at offset
    refine does_load64 map total header (by omega) (by omega) offset (does_ret ⟨?_, rfl⟩)
    simp
  | some d =>
    have isData : d ∈ data := kind
    rw [kind] at offset
    refine does_foot fun foot => ?_
    have resolved := resolve_buffer map total foot stands isData (whole (data_mem isData)) (Nat.le_refl _)
    rw [kind] at resolved
    have bounds := foot.bounds d (whole (data_mem isData))
    have present : offsetPtrIsNull d.ptr = false := by
      simp [offsetPtrIsNull]
      omega
    refine does_load64 map total header (by omega) (by omega) offset ?_
    simp only [Option.elim_some] at resolved ⊢
    simp only [present, Bool.false_eq_true, if_false]
    refine does_load64 map total header (by omega) (by omega) stands.capacity ?_
    refine does_load64 map total header (by omega) (by omega) stands.elemSize ?_
    simp only [resolved]
    refine does_bind (does_free map total (whole (data_mem isData)) (stands.buffer d isData).2) ?_
    rintro status L' μ' ⟨rfl, rfl, rfl⟩
    refine does_ret ⟨?_, rfl⟩
    congr 1
    ext x
    simp [eq_comm]

/-- Growth moves the list to a new buffer, or leaves everything as it was. -/
theorem does_grow (map : region.Mapped) (total : region.size = n) (large : 2728 ≤ n) (enough : n ≤ fuel)
    (stands : ArrayStands s hdr data μ) {newCap : Nat} (more : s.capacity < newCap)
    (bound : newCap * s.elemSize + 112 ≤ 2 ^ 64) :
    Does n (arrayFoot hdr data) μ (dynarrayGrow fuel region (add64 region.base hdr.ptr) newCap)
      (fun rc L' μ' => (rc = -1 ∧ L' = arrayFoot hdr data ∧ ArrayStands s hdr data μ') ∨
        (rc = 0 ∧ ∃ d, L' = arrayFoot hdr (some d) ∧
          ArrayStands { s with capacity := newCap } hdr (some d) μ')) := by
  have size := stands.size
  have user := map.user
  have positive := stands.positive
  have room := stands.room
  have word : newCap ≤ newCap * s.elemSize := Nat.le_mul_of_pos_right _ positive
  have bytes : s.elems.length * s.elemSize ≤ newCap * s.elemSize := Nat.mul_le_mul_right _ (by omega)
  unfold dynarrayGrow
  simp only [DynArrayHeader.capacity, DynArrayHeader.dataOffset, DynArrayHeader.elemSize]
  refine does_load64 map total (header_mem hdr data) (by omega) (by omega) stands.elemSize ?_
  rw [mul64_eq (by omega)]
  refine does_bind (does_alloc map total large enough (by omega) (by omega)) ?_
  intro result L' μ' holds
  cases result with
  | error status =>
    obtain ⟨sameL, sameM⟩ := holds
    subst sameL sameM
    exact does_ret (Or.inl ⟨rfl, rfl, stands⟩)
  | ok newBuf =>
    obtain ⟨a, fresh, grown, kept, address, wide, align⟩ := holds
    subst grown address
    have mem : a ∈ insert a (arrayFoot hdr data) := Set.mem_insert _ _
    have whole : arrayFoot hdr data ⊆ insert a (arrayFoot hdr data) := Set.subset_insert _ _
    refine does_foot fun foot => ?_
    have apart : ∀ b ∈ arrayFoot hdr data, a.ptr + a.size ≤ b.ptr ∨ b.ptr + b.size ≤ a.ptr := by
      intro b mb
      rcases foot.apart a mem b (whole mb) with same | apart
      · rw [← same] at mb
        exact absurd mb fresh
      · exact apart
    have bounds := foot.bounds a mem
    have apartHdr := apart hdr (header_mem hdr data)
    refine does_bind (does_copyElements map total (stands.congr kept) whole mem (by omega)) ?_
    rintro _ L' μ₁ ⟨rfl, off, elements⟩
    have kept₁ : ∀ b ∈ arrayFoot hdr data, SameOn μ' μ₁ b.ptr (b.ptr + b.size) :=
      fun b mb => off.on (by have := apart b mb; omega)
    have stands₁ := (stands.congr kept).congr kept₁
    refine does_bind (does_freeBuffer map total stands₁ whole) ?_
    rintro _ L' μ₂ ⟨rfl, rfl⟩
    rw [from_raw_eq_some map (by omega) (by omega)]
    -- what is left are the header and the new buffer
    rw [arrayFoot_moved stands.other fresh]
    refine does_store64 map total (header_mem hdr (some a)) (by omega) (by omega) ?_
    refine does_store64 map total (header_mem hdr (some a)) (by omega) (by omega) ?_
    refine does_ret (Or.inr ⟨rfl, a, rfl, ?_⟩)
    rw [Nat.add_zero]
    exact stands₁.grown fresh wide align (by omega) (by omega) (by omega) more elements

theorem does_append (map : region.Mapped) (total : region.size = n) (stands : ArrayStands s hdr data μ)
    (free : s.elems.length < s.capacity) (elem : Mem) :
    Does n (arrayFoot hdr data) μ (dynarrayAppend region (add64 region.base hdr.ptr) elem)
      (fun rc L' μ' => rc = 0 ∧ L' = arrayFoot hdr data ∧
        ArrayStands { s with elems := s.elems ++ [loadBytes elem 0 s.elemSize] } hdr data μ') := by
  have size := stands.size
  have user := map.user
  have header := header_mem hdr data
  obtain ⟨d, isData⟩ : ∃ d, d ∈ data := by
    cases kind : data with
    | none => exact absurd (stands.bare kind) (by omega)
    | some d => exact ⟨d, rfl⟩
  have mem : d ∈ arrayFoot hdr data := data_mem isData
  refine does_foot fun foot => ?_
  have bounds := foot.bounds d mem
  have width := (stands.buffer d isData).1
  have slot : s.elems.length * s.elemSize + s.elemSize ≤ s.capacity * s.elemSize := slot_le free
  have apart : hdr.ptr + hdr.size ≤ d.ptr ∨ d.ptr + d.size ≤ hdr.ptr := by
    rcases foot.apart hdr header d mem with same | apart
    · rw [← same] at isData
      exact absurd isData stands.other
    · exact apart
  have least := Nat.le_mul_of_pos_right s.capacity stands.positive
  have next : add64 s.elems.length 1 = s.elems.length + 1 := add64_eq (by omega)
  unfold dynarrayAppend
  simp only [DynArrayHeader.length, DynArrayHeader.dataOffset, DynArrayHeader.elemSize]
  refine does_load64 map total header (by omega) (by omega) stands.offset ?_
  refine does_load64 map total header (by omega) (by omega) stands.length ?_
  refine does_load64 map total header (by omega) (by omega) stands.elemSize ?_
  simp only [next, resolve_buffer map total foot stands isData mem free]
  rw [mul64_eq (by omega)]
  refine does_bind (does_copyIn map total mem (by omega) (by rw [loadBytes_length]; omega)) ?_
  rintro _ L' μ' ⟨rfl, rfl⟩
  refine does_store64 map total header (by omega) (by omega) (does_containerUnlock (does_ret ⟨rfl, rfl, ?_⟩))
  -- the new bytes lie in the last slot, the new length in the header
  have bytes : (loadBytes elem 0 s.elemSize).length = s.elemSize := loadBytes_length _ _ _
  have field : ∀ o, hdr.ptr ≤ o → o + 8 ≤ hdr.ptr + 88 → (o + 8 ≤ hdr.ptr + 8 ∨ hdr.ptr + 16 ≤ o) →
      load (store (storeBytes μ (d.ptr + s.elems.length * s.elemSize) (loadBytes elem 0 s.elemSize))
        (hdr.ptr + 8) 8 (s.elems.length + 1)) o 8 = load μ o 8 := by
    intro o low high out
    rw [load_store_apart (by omega)]
    exact load_congr (SameOn.storeBytes (by omega))
  refine ⟨stands.place, size, stands.positive, ?_, ?_, ?_, ?_, ?_, stands.other, stands.buffer, stands.bare, ?_⟩
  · rw [field _ (by omega) (by omega) (by omega), stands.capacity]
  · rw [load_store_eight (by omega), List.length_append, List.length_singleton]
  · rw [field _ (by omega) (by omega) (by omega), stands.elemSize]
  · rw [field _ (by omega) (by omega) (by omega), stands.offset]
  · simp only [List.length_append, List.length_singleton]
    exact free
  · intro e isE i inside
    have same : e = d := Option.some.inj (isE.symm.trans isData)
    simp only [List.length_append, List.length_singleton] at inside
    rw [same]
    have slotI : i * s.elemSize + s.elemSize ≤ (s.elems.length + 1) * s.elemSize := slot_le inside
    rw [Nat.add_mul, Nat.one_mul] at slotI
    rw [loadBytes_congr (SameOn.store (by simp only; omega))]
    by_cases old : i < s.elems.length
    · have slotOld : i * s.elemSize + s.elemSize ≤ s.elems.length * s.elemSize := slot_le old
      rw [loadBytes_congr (SameOn.storeBytes (by simp only; omega)), List.getElem_append_left old]
      exact stands.elements d isData i old
    · have last : i = s.elems.length := by omega
      subst last
      have written := loadBytes_storeBytes μ (d.ptr + s.elems.length * s.elemSize) (loadBytes elem 0 s.elemSize)
      rw [bytes] at written
      simp only [List.getElem_concat_length]
      exact written

theorem does_push (map : region.Mapped) (total : region.size = n) (large : 2728 ≤ n) (enough : n ≤ fuel)
    (stands : ArrayStands s hdr data μ) (bound : 4 * s.elemSize + 112 ≤ 2 ^ 64) (elem : Mem) :
    Does n (arrayFoot hdr data) μ (dynarrayPush fuel region s.handle elem)
      (fun rc L' μ' => ArrayMoves s hdr (.push s.handle elem) (.code rc) L' μ') := by
  have size := stands.size
  have user := map.user
  have header := header_mem hdr data
  have room := stands.room
  refine does_foot fun foot => ?_
  unfold dynarrayPush
  simp only [resolve_array map total foot stands header]
  unfold dynarrayLock
  refine does_containerLock ?_
  simp only [DynArrayHeader.length, DynArrayHeader.capacity]
  refine does_load64 map total header (by omega) (by omega) stands.length ?_
  refine does_load64 map total header (by omega) (by omega) stands.capacity ?_
  by_cases full : s.elems.length = s.capacity
  · rw [if_pos full]
    -- the buffer fits the region, so doubling it cannot wrap
    have least := Nat.le_mul_of_pos_right s.capacity stands.positive
    have fits : s.capacity * s.elemSize ≤ n := by
      cases kind : data with
      | none =>
        rw [stands.bare kind, Nat.zero_mul]
        exact Nat.zero_le n
      | some d =>
        have bounds := foot.bounds d (data_mem kind)
        have width := (stands.buffer d kind).1
        omega
    obtain ⟨grown, more, bytes⟩ : (if s.capacity ≠ 0 then mul64 s.capacity 2 else 4) = s.grown ∧
        s.capacity < s.grown ∧ s.grown * s.elemSize + 112 ≤ 2 ^ 64 := by
      have grown : s.grown = if s.capacity = 0 then 4 else 2 * s.capacity := if_neg (by omega)
      rw [grown]
      by_cases first : s.capacity = 0
      · rw [if_neg (by omega), if_pos first]
        exact ⟨rfl, by omega, by omega⟩
      · rw [if_pos first, if_neg first, mul64_eq (by omega), Nat.mul_assoc]
        exact ⟨Nat.mul_comm _ _, by omega, by omega⟩
    rw [grown]
    refine does_bind (does_grow map total large enough stands more bytes) ?_
    rintro rc L' μ' (⟨rfl, rfl, kept⟩ | ⟨rfl, d, rfl, wider⟩)
    · rw [if_pos (by decide)]
      exact does_containerUnlock (does_ret ⟨s, data, by simp [arrayNext, full], rfl, rfl, kept⟩)
    · rw [if_neg (by decide)]
      refine does_weaken (does_append map total wider (by simp only; omega) elem) ?_
      rintro rc L' μ'' ⟨rfl, rfl, after⟩
      exact ⟨_, some d, rfl, rfl, rfl, after⟩
  · rw [if_neg full]
    refine does_weaken (does_append map total stands (by omega) elem) ?_
    rintro rc L' μ' ⟨rfl, rfl, after⟩
    have kept : s.grown = s.capacity := if_pos (by omega)
    refine ⟨_, data, rfl, rfl, rfl, ?_⟩
    rw [kept]
    exact after

theorem does_reserve (map : region.Mapped) (total : region.size = n) (large : 2728 ≤ n) (enough : n ≤ fuel)
    (stands : ArrayStands s hdr data μ) {newCap : Nat} (bound : newCap * s.elemSize + 112 ≤ 2 ^ 64) :
    Does n (arrayFoot hdr data) μ (dynarrayReserve fuel region s.handle newCap)
      (fun rc L' μ' => ArrayMoves s hdr (.reserve s.handle newCap) (.code rc) L' μ') := by
  have size := stands.size
  have header := header_mem hdr data
  refine does_foot fun foot => ?_
  unfold dynarrayReserve
  simp only [resolve_array map total foot stands header]
  unfold dynarrayLock
  refine does_containerLock ?_
  simp only [DynArrayHeader.capacity]
  refine does_load64 map total header (by omega) (by omega) stands.capacity ?_
  by_cases small : newCap ≤ s.capacity
  · rw [if_pos small]
    exact does_containerUnlock (does_ret ⟨s, data, by simp [arrayNext, small], rfl, rfl, stands⟩)
  · rw [if_neg small]
    refine does_bind (does_grow map total large enough stands (by omega) bound) ?_
    rintro rc L' μ' (⟨rfl, rfl, kept⟩ | ⟨rfl, d, rfl, wider⟩)
    · exact does_containerUnlock (does_ret ⟨s, data, by simp [arrayNext, small], rfl, rfl, kept⟩)
    · exact does_containerUnlock (does_ret ⟨{ s with capacity := newCap }, some d, by simp [arrayNext, small],
        rfl, rfl, wider⟩)

theorem does_get (map : region.Mapped) (total : region.size = n) (stands : ArrayStands s hdr data μ) (index : Nat) :
    Does n (arrayFoot hdr data) μ (dynarrayGet region s.handle index)
      (fun bytes L' μ' => bytes = s.elems[index]? ∧ L' = arrayFoot hdr data ∧ μ' = μ) := by
  have size := stands.size
  have header := header_mem hdr data
  have room := stands.room
  have user := map.user
  refine does_foot fun foot => ?_
  unfold dynarrayGet
  simp only [resolve_array map total foot stands header]
  unfold dynarrayLock
  refine does_containerLock ?_
  simp only [DynArrayHeader.length, DynArrayHeader.dataOffset, DynArrayHeader.elemSize]
  refine does_load64 map total header (by omega) (by omega) stands.length ?_
  by_cases beyond : index ≥ s.elems.length
  · rw [if_pos beyond]
    exact does_containerUnlock (does_ret ⟨(List.getElem?_eq_none beyond).symm, rfl, rfl⟩)
  · rw [if_neg beyond]
    obtain ⟨d, isData⟩ : ∃ d, d ∈ data := by
      cases kind : data with
      | none => exact absurd (stands.bare kind) (by omega)
      | some d => exact ⟨d, rfl⟩
    have inside : index < s.elems.length := by omega
    have mem : d ∈ arrayFoot hdr data := data_mem isData
    have bounds := foot.bounds d mem
    have width := (stands.buffer d isData).1
    have slot : index * s.elemSize + s.elemSize ≤ s.capacity * s.elemSize := slot_le (by omega)
    refine does_load64 map total header (by omega) (by omega) stands.offset ?_
    refine does_load64 map total header (by omega) (by omega) stands.elemSize ?_
    simp only [resolve_buffer map total foot stands isData mem room]
    rw [mul64_eq (by omega)]
    refine does_copyOut map total mem (by omega) (by omega) (does_containerUnlock (does_ret ⟨?_, rfl, rfl⟩))
    rw [stands.elements d isData index inside, List.getElem?_eq_getElem inside]

theorem does_length (map : region.Mapped) (total : region.size = n) (stands : ArrayStands s hdr data μ) :
    Does n (arrayFoot hdr data) μ (dynarrayLength region s.handle)
      (fun len L' μ' => len = s.elems.length ∧ L' = arrayFoot hdr data ∧ μ' = μ) := by
  have size := stands.size
  have header := header_mem hdr data
  refine does_foot fun foot => ?_
  unfold dynarrayLength
  simp only [resolve_array map total foot stands header]
  unfold dynarrayLock
  refine does_containerLock ?_
  simp only [DynArrayHeader.length]
  refine does_load64 map total header (by omega) (by omega) stands.length ?_
  exact does_containerUnlock (does_ret ⟨rfl, rfl, rfl⟩)

/-- A call on an existing array. -/
theorem does_arrayCall (map : region.Mapped) (total : region.size = n) (large : 2728 ≤ n) (enough : n ≤ fuel)
    (stands : ArrayStands s hdr data μ) (bound : 4 * s.elemSize + 112 ≤ 2 ^ 64) {op : ArrayOp} (fits : arrayFits s op) :
    Does n (arrayFoot hdr data) μ (arrayCode fuel region op) (ArrayMoves s hdr op) := by
  cases op with
  | create => exact False.elim fits
  | push arr elem =>
    have same : arr = s.handle := fits
    subst same
    exact does_bind (does_push map total large enough stands bound elem) fun rc L' μ' holds => does_ret holds
  | reserve arr newCap =>
    obtain ⟨rfl, small⟩ := fits
    exact does_bind (does_reserve map total large enough stands small) fun rc L' μ' holds => does_ret holds
  | get arr index =>
    have same : arr = s.handle := fits
    subst same
    refine does_bind (does_get map total stands index) ?_
    rintro bytes L' μ' ⟨rfl, rfl, rfl⟩
    exact does_ret ⟨s, data, by simp [arrayNext], rfl, rfl, stands⟩
  | length arr =>
    have same : arr = s.handle := fits
    subst same
    refine does_bind (does_length map total stands) ?_
    rintro len L' μ' ⟨rfl, rfl, rfl⟩
    exact does_ret ⟨s, data, by simp [arrayNext], rfl, rfl, stands⟩

/-- The outcome of dynarray_create: nothing, or an empty list in a header of its own. -/
def arrayCreated (elemSize h : Nat) (L : Set Alloc) (μ : Mem) : Prop :=
  (h = 0 ∧ L = ∅) ∨ (0 < elemSize ∧ 0 < h ∧ ∃ hdr, hdr.align = 16 ∧ L = arrayFoot hdr none ∧
    ArrayStands ⟨h, elemSize, 0, []⟩ hdr none μ)

theorem does_create (map : region.Mapped) (total : region.size = n) (large : 2728 ≤ n) (enough : n ≤ fuel)
    {elemSize : Nat} (word : elemSize < 2 ^ 64) :
    Does n ∅ μ (dynarrayCreate fuel region elemSize) (arrayCreated elemSize) := by
  unfold dynarrayCreate
  by_cases zero : elemSize = 0
  · rw [if_pos zero]
    exact does_ret (Or.inl ⟨rfl, rfl⟩)
  rw [if_neg zero]
  refine does_header map total large enough (by simp) (fun _ => does_ret (Or.inl ⟨rfl, rfl⟩)) ?_
  intro hdr μ' fresh size align low high resolved
  simp only [DynArrayHeader.sizeof] at size
  have header : hdr ∈ insert hdr (∅ : Set Alloc) := Set.mem_insert _ _
  simp only [dynarrayResolveHeader, resolved, DynArrayHeader.capacity, DynArrayHeader.length,
    DynArrayHeader.elemSize, DynArrayHeader.dataOffset, offsetPtrNull]
  refine does_store64 map total header (by omega) (by omega) ?_
  refine does_store64 map total header (by omega) (by omega) ?_
  refine does_store64 map total header (by omega) (by omega) ?_
  refine does_store64 map total header (by omega) (by omega) ?_
  refine does_containerInitLock (does_ret (Or.inr ⟨by omega, by omega, hdr, align, ?_, ?_⟩))
  · simp [arrayFoot]
  · rw [Nat.add_zero]
    refine ⟨rfl, by omega, by simp only; omega, ?_, ?_, ?_, ?_, Nat.le_refl _, by simp, by simp, fun _ => rfl, by simp⟩
    · rw [load_store_apart (by omega), load_store_apart (by omega), load_store_apart (by omega)]
      exact load_store_eight (by omega)
    · rw [load_store_apart (by omega), load_store_apart (by omega)]
      exact load_store_eight (by simp)
    · rw [load_store_apart (by omega)]
      exact load_store_eight (by omega)
    · exact load_store_eight (by simp)

/-- Every call of the array follows its description. -/
theorem array_refines (map : region.Mapped) (total : region.size = n) (large : 2728 ≤ n) (enough : n ≤ fuel) :
    Refines n region (arrayComponent fuel n) (arrayRepr n) := by
  have user := map.user
  intro s op L μ enabled repr
  cases s with
  | none =>
    subst repr
    cases op with
    | create elemSize =>
      have small : elemSize ≤ n := enabled
      refine does_bind (does_create map total large enough (by omega)) ?_
      rintro h L' μ' (⟨rfl, rfl⟩ | ⟨positive, present, hdr, _, rfl, stands⟩)
      · exact does_ret ⟨none, rfl, rfl⟩
      · refine does_ret ⟨some ⟨h, elemSize, 0, []⟩, ?_, small, hdr, none, stands, rfl⟩
        simp only [arrayComponent, arrayNext]
        rw [if_neg (by omega), if_neg (by omega)]
    | push => exact False.elim enabled
    | reserve => exact False.elim enabled
    | get => exact False.elim enabled
    | length => exact False.elim enabled
  | some s =>
    obtain ⟨width, hdr, data, stands, rfl⟩ := repr
    have fits : arrayFits s op := by
      cases op with
      | create => exact False.elim enabled
      | push => exact enabled
      | reserve =>
        have bound := enabled.2
        exact ⟨enabled.1, by omega⟩
      | get => exact enabled
      | length => exact enabled
    refine does_weaken (does_arrayCall map total large enough stands (by omega) fits) ?_
    rintro r L' μ' ⟨s', data', next, same, rfl, after⟩
    exact ⟨some s', next, same ▸ width, hdr, data', after, rfl⟩

theorem array_local {s : Option ArrayState} {L : Set Alloc} {μ m : Mem} (repr : arrayRepr n s L μ)
    (same : ∀ a ∈ L, SameOn μ m a.ptr (a.ptr + a.size)) : arrayRepr n s L m := by
  cases s with
  | none => exact repr
  | some s =>
    obtain ⟨width, hdr, data, stands, rfl⟩ := repr
    exact ⟨width, hdr, data, stands.congr same, rfl⟩

end Calls

/-- The array among other users of a heap that allocator_init has laid out: whatever the
    other processes allocate, release and write between two lock operations, the history
    of the array is one of a growable list, and between its calls its memory holds that
    list in allocations of its own. -/
theorem dynarray_runs_refine {S : Type} {n fuel : Nat} {regions : Nat → ShmRegion} {before m : Mem}
    {handle : Sys → S → Int × S} {env env' : S} (creator : Nat)
    {st : State Sys (UserResult ArrayResult) (UserView ArrayOp ArrayResult) (UserRequest ArrayOp ArrayResult)}
    (mapped : ∀ p, (regions p).Mapped) (sizes : ∀ p, (regions p).size = n) (enough : n ≤ fuel)
    (init : run handle (allocatorInit (regions creator)) before env = some (.ok, m, env'))
    (runs : Reachable (userRules (arrayComponent fuel n) none n regions) (userOrigin m) st) :
    ∃ s, (arrayComponent fuel n).follow none st.client.history = some s ∧
      (st.client.busy = false → ∃ L V, arrayRepr n s L st.mem ∧ Resting n st L V) := by
  have fresh := (run_allocatorInit (mapped creator) (sizes creator) init).inv
  have room := fresh.room
  unfold heapBase at room
  exact component_runs (fun p => array_refines (mapped p) (sizes p) (by omega) enough) mapped sizes fresh
    (show arrayRepr n none ∅ m from rfl) (fun _ _ _ _ repr same => array_local repr same) runs

/-- One array of one-byte elements in the small region. Two elements are pushed, with an
    allocation of another process between them, and the second one is read. -/
theorem dynarray_runs_refine_small :
    ∃ st L V, Reachable (userRules (arrayComponent 4096 4096) none 4096 fun _ => smallRegion)
        (userOrigin initialised) st ∧
      st.client.history = [(.create 1, some (.handle 2784)), (.push 2784 fun _ => 7, some (.code 0)),
        (.push 2784 fun _ => 8, some (.code 0)), (.get 2784 1, some (.element (some [8])))] ∧
      st.client.live = {(3120, 100)} ∧ arrayRepr 4096 (some ⟨2784, 1, 4, [[7], [8]]⟩) L st.mem ∧
      Resting 4096 st L V := by
  have served : ((exec (dynarrayCreate 4096 smallRegion 1) initialised).bind fun one =>
      (exec (dynarrayPush 4096 smallRegion 2784 fun _ => 7) one.2).bind fun two =>
        (exec (allocatorAlloc 8 smallRegion 100 16) two.2).bind fun other =>
          (exec (dynarrayPush 4096 smallRegion 2784 fun _ => 8) other.2).bind fun three =>
            (exec (dynarrayGet smallRegion 2784 1) three.2).map fun four =>
              ((one.1, two.1), other.1, three.1, four.1)) =
      some ((2784, 0), .ok (add64 smallRegion.base 3120), 0, some [8]) := by decide +kernel
  have init := initialised_run
  generalize initialised = m at served init ⊢
  obtain ⟨⟨one, m₁⟩, run₁, served⟩ := Option.bind_eq_some_iff.mp served
  obtain ⟨⟨two, m₂⟩, run₂, served⟩ := Option.bind_eq_some_iff.mp served
  obtain ⟨⟨other, m₃⟩, run₃, served⟩ := Option.bind_eq_some_iff.mp served
  obtain ⟨⟨three, m₄⟩, run₄, served⟩ := Option.bind_eq_some_iff.mp served
  obtain ⟨⟨four, m₅⟩, run₅, same⟩ := Option.map_eq_some_iff.mp served
  obtain ⟨⟨rfl, rfl⟩, rfl, rfl, rfl⟩ : (one = 2784 ∧ two = 0) ∧ other = .ok _ ∧ three = 0 ∧ four = some [8] := by
    simpa using same
  have origin : Reachable (userRules (arrayComponent 4096 4096) none 4096 fun _ => smallRegion) (userOrigin m)
    (userOrigin m) := .refl
  have created := reachable_container origin (p := 0) (.create 1) rfl rfl (by decide : 1 ≤ 4096)
    (exec_bind_of_some run₁ _)
  have pushed := reachable_container created (p := 0) (.push 2784 fun _ => 7) rfl rfl rfl
    (exec_bind_of_some run₂ _)
  have served : exec (heapCode smallRegion (.alloc 8 100 16)) m₂ = some (.allocated (.ok _), m₃) :=
    exec_bind_of_some run₃ _
  have shared := reachable_other pushed (p := 1) rfl (.alloc 8 (by decide) (by decide)) served (.allocated 8 100 16 _)
  rw [show smallRegion.offsetOf (add64 smallRegion.base 3120) = 3120 by decide] at shared
  have again := reachable_container shared (p := 0) (.push 2784 fun _ => 8) rfl rfl rfl
    (exec_bind_of_some run₄ _)
  have done := reachable_container again (p := 0) (.get 2784 1) rfl rfl rfl (exec_bind_of_some run₅ _)
  obtain ⟨s, follows, rest⟩ := dynarray_runs_refine 0 (fun _ => smallRegion_mapped) (fun _ => rfl)
    (Nat.le_refl _) init done
  obtain ⟨L, V, repr, resting⟩ := rest rfl
  rw [← Option.some.inj follows] at repr
  exact ⟨_, L, V, done, rfl, by simp, repr, resting⟩

end OffsetStore
