import OffsetStore.Objects
import OffsetStore.RingBuf
import OffsetStore.Lib.RobustMutex

/- The ring buffer is a bounded queue, whoever dies inside its calls. The element of a
   push lies in the reserved slot until the tail moves, and the element of a pop is
   outside the queue once the head has moved: each call has one store that counts. -/
namespace OffsetStore
open ByteMemory Program Prog Words Pool RobustMutex

/-- Slot of the i-th element behind the head. -/
def ringSlot (c head i : Nat) : Nat := (head + i) % c

section Slots
variable {c head i j : Nat}

theorem ringSlot_lt (positive : 0 < c) : ringSlot c head i < c := Nat.mod_lt _ positive

theorem ringSlot_zero (inside : head < c) : ringSlot c head 0 = head := Nat.mod_eq_of_lt inside

theorem ringSlot_injective (left : i < c) (right : j < c) (same : ringSlot c head i = ringSlot c head j) : i = j := by
  have shifted : i ≡ j [MOD c] := Nat.ModEq.add_left_cancel' head same
  exact Nat.ModEq.eq_of_lt_of_lt shifted left right

theorem ringSlot_next : ringSlot c (ringSlot c head i) j = ringSlot c head (i + j) := by
  unfold ringSlot
  rw [Nat.mod_add_mod, Nat.add_assoc]

/-- The slot i places on is the head again exactly after a full turn. -/
theorem ringSlot_turn (inside : head < c) (positive : 0 < i) (bound : i ≤ c) : ringSlot c head i = head ↔ i = c := by
  constructor
  · intro same
    by_cases short : i < c
    · have zero := ringSlot_injective short (by omega) (same.trans (ringSlot_zero inside).symm)
      omega
    · omega
  · rintro rfl
    unfold ringSlot
    rw [Nat.add_mod_right, Nat.mod_eq_of_lt inside]

end Slots

/-- Where the header and the element buffer of a ring buffer lie. -/
structure RingPlace (n c e hdr data : Nat) : Prop where
  capacity : 2 ≤ c
  positive : 0 < e
  header : 0 < hdr ∧ hdr + 80 ≤ n
  buffer : 0 < data ∧ data + c * e ≤ n
  apart : hdr + 80 ≤ data ∨ data + c * e ≤ hdr

/-- The bytes at hdr and data hold the queue q, from the slot of the head on. -/
structure RingAt (c e hdr data head : Nat) (q : List (List UInt8)) (m : Mem) : Prop where
  capacity : load m (hdr + RingBufHeader.capacity) 8 = c
  elemSize : load m (hdr + RingBufHeader.elemSize) 8 = e
  dataOffset : load m (hdr + RingBufHeader.dataOffset) 8 = data
  headWord : load m (hdr + RingBufHeader.head) 8 = head
  tailWord : load m (hdr + RingBufHeader.tail) 8 = ringSlot c head q.length
  bound : head < c
  room : q.length < c
  elements : ∀ i (inside : i < q.length), loadBytes m (data + ringSlot c head i * e) e = q[i]

def RingStands (c e hdr data : Nat) (q : List (List UInt8)) (m : Mem) : Prop := ∃ head, RingAt c e hdr data head q m

/-- The fields of the header and the slots: all that the calls read. -/
def ringBytes (c e hdr data : Nat) : Set Nat :=
  {a | (hdr ≤ a ∧ a < hdr + RingBufHeader.lock) ∨ (data ≤ a ∧ a < data + c * e)}

inductive RingOp where
  | push (element : Mem)
  | pop
  | isEmpty
  | isFull

inductive RingResult where
  | code (rc : Int)
  | bytes (out : Option (List UInt8))
  | flag (b : Bool)
  deriving DecidableEq, Repr

def ringCode (region : ShmRegion) (hdr : Nat) : RingOp → Code RingResult
  | .push element => do
    let rc ← ringbufPush region hdr element
    return .code rc
  | .pop => do
    let out ← ringbufPop region hdr
    return .bytes out
  | .isEmpty => do
    let b ← ringbufIsEmpty region hdr
    return .flag b
  | .isFull => do
    let b ← ringbufIsFull region hdr
    return .flag b

/-- A queue of at most c - 1 elements of e bytes. -/
def ringNext (c e : Nat) (q : List (List UInt8)) : RingOp → RingResult → Option (List (List UInt8))
  | .push element, .code rc =>
    if q.length = c - 1 then (if rc = -1 then some q else none)
    else (if rc = 0 then some (q ++ [loadBytes element 0 e]) else none)
  | .pop, .bytes out =>
    match q with
    | [] => if out = none then some [] else none
    | first :: rest => if out = some first then some rest else none
  | .isEmpty, .flag b => if b = decide (q = []) then some q else none
  | .isFull, .flag b => if b = decide (q.length = c - 1) then some q else none
  | _, _ => none

/-- The mutex in the header; 131 is ENOTRECOVERABLE. -/
def ringMutex (hdr : Nat) : Calls Sys :=
  ⟨.mutexLock (hdr + RingBufHeader.lock), .mutexConsistent (hdr + RingBufHeader.lock),
    .mutexUnlock (hdr + RingBufHeader.lock), eownerdead, 131⟩

section Calls
variable {n c e hdr data : Nat} {region : ShmRegion} {q : List (List UInt8)} {m m' : Mem}
  {op : RingOp} {head : Nat}

theorem RingAt.congr (ring : RingAt c e hdr data head q m)
    (field : ∀ f, f + 8 ≤ 40 → load m' (hdr + f) 8 = load m (hdr + f) 8)
    (slots : ∀ i, i < q.length → SameOn m m' (data + ringSlot c head i * e) (data + ringSlot c head i * e + e)) :
    RingAt c e hdr data head q m' := by
  refine ⟨?_, ?_, ?_, ?_, ?_, ring.bound, ring.room, ?_⟩
  · exact (field _ (by simp)).trans ring.capacity
  · exact (field _ (by simp)).trans ring.elemSize
  · exact (field _ (by simp)).trans ring.dataOffset
  · exact (field _ (by simp)).trans ring.headWord
  · exact (field _ (by simp)).trans ring.tailWord
  · intro i inside
    rw [loadBytes_congr (slots i inside)]
    exact ring.elements i inside

theorem ring_near (m m' : Mem) (same : ∀ a ∈ ringBytes c e hdr data, m' a = m a)
    (stands : RingStands c e hdr data q m) : RingStands c e hdr data q m' := by
  obtain ⟨head, ring⟩ := stands
  have room := ring.room
  refine ⟨head, ring.congr (fun f small => load_congr fun a low high => same a (Or.inl ⟨by omega, ?_⟩)) ?_⟩
  · simp only [RingBufHeader.lock]
    omega
  · intro i inside a low high
    have slot : ringSlot c head i < c := ringSlot_lt (by omega)
    have fits := slot_le (e := e) slot
    exact same a (Or.inr ⟨by omega, by omega⟩)

/-- The rest of a critical section of a ring buffer call that began with the queue q. -/
abbrev RingCareful (c e hdr data : Nat) (q : List (List UInt8)) (op : RingOp) (b : Bool) (p : Code RingResult)
    (m : Mem) : Prop :=
  Careful (ringMutex hdr) (RingStands c e hdr data) (ringNext c e) (ringBytes c e hdr data) q op b p m

theorem guarded_lock {f : Unit → Code RingResult}
    (all : ∀ q m, RingStands c e hdr data q m → RingCareful c e hdr data q op true (f ()) m) :
    Guarded (ringMutex hdr) (RingStands c e hdr data) (ringNext c e) (ringBytes c e hdr data) op
      (containerLock (hdr + RingBufHeader.lock) >>= f) := by
  refine ⟨_, rfl, fun q m stands => ⟨?_, ?_⟩⟩
  · exact all q m stands
  · exact careful_consistent (by simp [ringMutex]) stands (all q m stands)

section Fields
variable (map : region.Mapped) (total : region.size = n) (place : RingPlace n c e hdr data) {b : Bool}
  (ring : RingAt c e hdr data head q m)
include map total place ring

theorem careful_field {field v : Nat} {f : Nat → Code RingResult} (small : field + 8 ≤ 40)
    (value : load m (hdr + field) 8 = v) (rest : RingCareful c e hdr data q op b (f v) m) :
    RingCareful c e hdr data q op b (region.load64 (add64 region.base hdr) field >>= f) m := by
  have user := map.user
  have header := place.header
  rw [load64_field (by omega), loadWord_bind]
  refine careful_read ⟨head, ring⟩ (fun a low high => Or.inl ⟨by omega, ?_⟩) value rest
  simp only [RingBufHeader.lock]
  omega

theorem careful_idx {i : Nat} {f : Nat → Code RingResult} (rest : RingCareful c e hdr data q op b (f (i % c)) m) :
    RingCareful c e hdr data q op b (ringbufIdx region (add64 region.base hdr) i >>= f) m := by
  unfold ringbufIdx
  rw [bind_assoc]
  exact careful_field map total place ring (by simp) ring.capacity rest

theorem careful_data {f : Option Nat → Code RingResult}
    (rest : RingCareful c e hdr data q op b (f (some (add64 region.base data))) m) :
    RingCareful c e hdr data q op b (ringbufData region (add64 region.base hdr) >>= f) m := by
  have user := map.user
  have buffer := place.buffer
  have positive : 0 < c * e := Nat.mul_pos (by have := place.capacity; omega) place.positive
  have resolved : offsetPtrTryResolve region.base region.size data (mul64 c e) = some (add64 region.base data) := by
    rw [mul64_eq (by omega)]
    exact resolve_eq_some map buffer.1 (by omega) (by omega)
  unfold ringbufData
  simp only [bind_assoc]
  refine careful_field map total place ring (by simp) ring.dataOffset ?_
  refine careful_field map total place ring (by simp) ring.capacity ?_
  refine careful_field map total place ring (by simp) ring.elemSize ?_
  rw [resolved]
  exact rest

end Fields

theorem resolve_ring (map : region.Mapped) (total : region.size = n) (place : RingPlace n c e hdr data) :
    ringbufResolveHeader region hdr = some (add64 region.base hdr) := by
  have header := place.header
  exact resolve_eq_some map header.1 (by omega) (by simp only [RingBufHeader.sizeof]; omega)

theorem ring_mutex (map : region.Mapped) (total : region.size = n) (place : RingPlace n c e hdr data) :
    ringbufMutex region (add64 region.base hdr) = hdr + RingBufHeader.lock := by
  have user := map.user
  have header := place.header
  exact ShmRegion.Mapped.offsetOf_field (by simp only [RingBufHeader.lock]; omega)

/-- The slot behind the last element is the head exactly when c - 1 elements are stored. -/
theorem RingAt.full_iff (ring : RingAt c e hdr data head q m) :
    ringSlot c head (q.length + 1) = head ↔ q.length = c - 1 := by
  have room := ring.room
  rw [ringSlot_turn ring.bound (by omega) (by omega)]
  omega

theorem RingAt.empty_iff (ring : RingAt c e hdr data head q m) : head = ringSlot c head q.length ↔ q = [] := by
  have room := ring.room
  have start := ringSlot_zero ring.bound
  rw [← List.length_eq_zero_iff]
  constructor
  · intro same
    exact (ringSlot_injective (by omega) room (start.trans same)).symm
  · intro empty
    rw [empty, start]

/-- The slot behind the last element may hold anything. -/
theorem RingAt.scratch (place : RingPlace n c e hdr data) (ring : RingAt c e hdr data head q m)
    (same : SameOff m m' (data + ringSlot c head q.length * e) (data + ringSlot c head q.length * e + e)) :
    RingAt c e hdr data head q m' := by
  have room := ring.room
  have apart := place.apart
  have last : ringSlot c head q.length < c := ringSlot_lt (by omega)
  have fits := slot_le (e := e) last
  refine ring.congr (fun f small => same.load (by omega)) fun i inside => same.on ?_
  have other : ringSlot c head i ≠ ringSlot c head q.length := fun equal => by
    have index := ringSlot_injective (by omega) room equal
    omega
  cases Nat.lt_or_gt_of_ne other with
  | inl before =>
    have step := slot_le (e := e) before
    omega
  | inr after =>
    have step := slot_le (e := e) after
    omega

/-- The store of the tail makes the element in the slot behind the last one part of the queue. -/
theorem RingAt.pushed (place : RingPlace n c e hdr data) (ring : RingAt c e hdr data head q m)
    (free : q.length + 1 < c) (small : c < 2 ^ 63) {bytes : List UInt8}
    (there : loadBytes m (data + ringSlot c head q.length * e) e = bytes) :
    RingAt c e hdr data head (q ++ [bytes])
      (store m (hdr + RingBufHeader.tail) 8 (ringSlot c head (q.length + 1))) := by
  have apart := place.apart
  have next : ringSlot c head (q.length + 1) < c := ringSlot_lt (by omega)
  have field : ∀ f, f + 8 ≤ 16 ∨ 24 ≤ f → load (store m (hdr + RingBufHeader.tail) 8
      (ringSlot c head (q.length + 1))) (hdr + f) 8 = load m (hdr + f) 8 := fun f other =>
    load_store_apart (by simp only [RingBufHeader.tail]; omega)
  refine ⟨?_, ?_, ?_, ?_, ?_, ring.bound, ?_, ?_⟩
  · exact (field _ (by simp)).trans ring.capacity
  · exact (field _ (by simp)).trans ring.elemSize
  · exact (field _ (by simp)).trans ring.dataOffset
  · exact (field _ (by simp)).trans ring.headWord
  · rw [load_store_eight (by omega), List.length_append, List.length_singleton]
  · rw [List.length_append, List.length_singleton]
    exact free
  · intro i inside
    rw [List.length_append, List.length_singleton] at inside
    have slot : ringSlot c head i < c := ringSlot_lt (by omega)
    have fits := slot_le (e := e) slot
    rw [loadBytes_congr (SameOn.store (by simp only [RingBufHeader.tail]; omega))]
    by_cases old : i < q.length
    · rw [List.getElem_append_left old]
      exact ring.elements i old
    · have last : i = q.length := by omega
      subst last
      rw [List.getElem_concat_length]
      · exact there
      · rfl

/-- The store of the head takes the first element out. -/
theorem RingAt.popped (place : RingPlace n c e hdr data) {first : List UInt8}
    (ring : RingAt c e hdr data head (first :: q) m) (small : c < 2 ^ 63) :
    RingAt c e hdr data (ringSlot c head 1) q (store m (hdr + RingBufHeader.head) 8 (ringSlot c head 1)) := by
  have apart := place.apart
  have room := ring.room
  rw [List.length_cons] at room
  have next : ringSlot c head 1 < c := ringSlot_lt (by omega)
  have field : ∀ f, f + 8 ≤ 8 ∨ 16 ≤ f → load (store m (hdr + RingBufHeader.head) 8
      (ringSlot c head 1)) (hdr + f) 8 = load m (hdr + f) 8 := fun f other =>
    load_store_apart (by simp only [RingBufHeader.head]; omega)
  refine ⟨?_, ?_, ?_, load_store_eight (by omega), ?_, next, by omega, ?_⟩
  · exact (field _ (by simp)).trans ring.capacity
  · exact (field _ (by simp)).trans ring.elemSize
  · exact (field _ (by simp)).trans ring.dataOffset
  · rw [ringSlot_next, field _ (by simp), ring.tailWord, List.length_cons, Nat.add_comm 1]
  · intro i inside
    have slot : ringSlot c head (1 + i) < c := ringSlot_lt (by omega)
    have fits := slot_le (e := e) slot
    have step : data + ringSlot c head (1 + i) * e + e ≤ data + c * e := by omega
    rw [ringSlot_next, loadBytes_congr (SameOn.store (by
      simp only [RingBufHeader.head]
      omega)), Nat.add_comm 1 i]
    exact ring.elements (i + 1) (by rw [List.length_cons]; omega)

/-- A call that begins with the lock and goes on carefully from every queue. -/
abbrev RingGuarded (c e hdr data : Nat) (op : RingOp) (p : Code RingResult) : Prop :=
  Guarded (ringMutex hdr) (RingStands c e hdr data) (ringNext c e) (ringBytes c e hdr data) op p

theorem guarded_push (map : region.Mapped) (total : region.size = n) (place : RingPlace n c e hdr data)
    (element : Mem) : RingGuarded c e hdr data (.push element) (ringCode region hdr (.push element)) := by
  have user := map.user
  have header := place.header
  have buffer := place.buffer
  have least := Nat.le_mul_of_pos_right c place.positive
  unfold ringCode ringbufPush
  simp only [resolve_ring map total place, ringbufLock, ringbufUnlock, ring_mutex map total place, bind_assoc]
  refine guarded_lock fun q m stands => ?_
  obtain ⟨head, ring⟩ := stands
  have room := ring.room
  have last : ringSlot c head q.length < c := ringSlot_lt (by omega)
  refine careful_field map total place ring (by simp) ring.tailWord ?_
  refine careful_idx map total place ring ?_
  refine careful_field map total place ring (by simp) ring.headWord ?_
  have next : add64 (ringSlot c head q.length) 1 % c = ringSlot c head (q.length + 1) := by
    rw [add64_eq (by omega)]
    exact ringSlot_next
  rw [next]
  by_cases full : q.length = c - 1
  · rw [if_pos (ring.full_iff.mpr full)]
    refine careful_unlock rfl ?_ ⟨head, ring⟩
    simp [ringNext, full]
  · rw [if_neg fun same => full (ring.full_iff.mp same)]
    simp only [bind_assoc]
    refine careful_data map total place ring ?_
    simp only [bind_assoc]
    refine careful_field map total place ring (by simp) ring.tailWord ?_
    refine careful_field map total place ring (by simp) ring.elemSize ?_
    have fits := slot_le (e := e) last
    have length : (loadBytes element 0 e).length = e := loadBytes_length ..
    rw [mul64_eq (by omega), copyIn_field (by omega)]
    -- until the tail moves, the bytes copied so far lie in the reserved slot
    refine careful_writeBytes (fun m' same => ⟨head, ring.scratch place (by rwa [length] at same)⟩) ?_
    have copied : RingAt c e hdr data head q (storeBytes m (data + ringSlot c head q.length * e)
        (loadBytes element 0 e)) := ring.scratch place fun a out => storeBytes_outside (by rwa [length])
    have there := loadBytes_storeBytes m (data + ringSlot c head q.length * e) (loadBytes element 0 e)
    rw [length] at there
    rw [store64_field (by simp only [RingBufHeader.tail]; omega), storeWord_bind]
    refine careful_write ⟨head, copied⟩ ?_
    refine careful_unlock rfl ?_ ⟨head, copied.pushed place (by omega) (by omega) there⟩
    simp [ringNext, full]

theorem guarded_pop (map : region.Mapped) (total : region.size = n) (place : RingPlace n c e hdr data) :
    RingGuarded c e hdr data .pop (ringCode region hdr .pop) := by
  have user := map.user
  have header := place.header
  have buffer := place.buffer
  have least := Nat.le_mul_of_pos_right c place.positive
  unfold ringCode ringbufPop
  simp only [resolve_ring map total place, ringbufLock, ringbufUnlock, ring_mutex map total place, bind_assoc]
  refine guarded_lock fun q m stands => ?_
  obtain ⟨head, ring⟩ := stands
  have bound := ring.bound
  refine careful_field map total place ring (by simp) ring.headWord ?_
  refine careful_field map total place ring (by simp) ring.tailWord ?_
  cases q with
  | nil =>
    rw [if_pos (ring.empty_iff.mpr rfl)]
    exact careful_unlock rfl (by simp [ringNext]) ⟨head, ring⟩
  | cons first rest =>
    rw [if_neg fun same => List.cons_ne_nil _ _ (ring.empty_iff.mp same)]
    simp only [bind_assoc]
    refine careful_data map total place ring ?_
    simp only [bind_assoc]
    refine careful_field map total place ring (by simp) ring.headWord ?_
    refine careful_field map total place ring (by simp) ring.elemSize ?_
    have fits := slot_le (e := e) bound
    have there := ring.elements 0 (by simp)
    rw [ringSlot_zero bound] at there
    rw [mul64_eq (by omega), copyOut_field (by omega)]
    refine careful_readBytes ⟨head, ring⟩ (fun a low high => Or.inr ⟨by omega, by omega⟩) ?_
    refine careful_field map total place ring (by simp) ring.headWord ?_
    refine careful_idx map total place ring ?_
    have next : add64 head 1 % c = ringSlot c head 1 := by rw [add64_eq (by omega)]; rfl
    rw [next, store64_field (by simp only [RingBufHeader.head]; omega), storeWord_bind, there]
    refine careful_write ⟨head, ring⟩ ?_
    exact careful_unlock rfl (by simp [ringNext]) ⟨_, ring.popped place (by omega)⟩

theorem guarded_isEmpty (map : region.Mapped) (total : region.size = n) (place : RingPlace n c e hdr data) :
    RingGuarded c e hdr data .isEmpty (ringCode region hdr .isEmpty) := by
  unfold ringCode ringbufIsEmpty
  simp only [resolve_ring map total place, ringbufLock, ringbufUnlock, ring_mutex map total place, bind_assoc]
  refine guarded_lock fun q m stands => ?_
  obtain ⟨head, ring⟩ := stands
  refine careful_field map total place ring (by simp) ring.headWord ?_
  refine careful_field map total place ring (by simp) ring.tailWord ?_
  exact careful_unlock rfl (by simp [ringNext, ring.empty_iff]) ⟨head, ring⟩

theorem guarded_isFull (map : region.Mapped) (total : region.size = n) (place : RingPlace n c e hdr data) :
    RingGuarded c e hdr data .isFull (ringCode region hdr .isFull) := by
  have user := map.user
  have buffer := place.buffer
  have least := Nat.le_mul_of_pos_right c place.positive
  unfold ringCode ringbufIsFull
  simp only [resolve_ring map total place, ringbufLock, ringbufUnlock, ring_mutex map total place, bind_assoc]
  refine guarded_lock fun q m stands => ?_
  obtain ⟨head, ring⟩ := stands
  have room := ring.room
  have last : ringSlot c head q.length < c := ringSlot_lt (by omega)
  refine careful_field map total place ring (by simp) ring.tailWord ?_
  refine careful_idx map total place ring ?_
  refine careful_field map total place ring (by simp) ring.headWord ?_
  have next : add64 (ringSlot c head q.length) 1 % c = ringSlot c head (q.length + 1) := by
    rw [add64_eq (by omega)]
    exact ringSlot_next
  rw [next]
  exact careful_unlock rfl (by simp [ringNext, ring.full_iff]) ⟨head, ring⟩

/-- The ring buffer keeps the rules of its mutex, in every mapping. -/
theorem ring_sound {regions : Nat → ShmRegion} (mapped : ∀ p, (regions p).Mapped) (sizes : ∀ p, (regions p).size = n)
    (place : RingPlace n c e hdr data) :
    RobustMutex.Sound (ringMutex hdr) (fun p => ringCode (regions p) hdr) (RingStands c e hdr data) (ringNext c e)
      (ringBytes c e hdr data) where
  lock_unlock := by simp [ringMutex]
  lock_consistent := by simp [ringMutex]
  consistent_unlock := by simp [ringMutex]
  near := fun q => ring_near
  guarded := by
    intro p op
    cases op with
    | push element => exact guarded_push (mapped p) (sizes p) place element
    | pop => exact guarded_pop (mapped p) (sizes p) place
    | isEmpty => exact guarded_isEmpty (mapped p) (sizes p) place
    | isFull => exact guarded_isFull (mapped p) (sizes p) place

end Calls

/-- The parameters of ringbuf_create. -/
structure RingParams where
  capacity : Nat
  elemSize : Nat
  deriving DecidableEq, Repr

/-- Ring buffers are created until one exists: none, or its handle and parameters. -/
def ringCreation (fuel n : Nat) : Component RingParams Nat (Option (Nat × RingParams)) where
  code region params := ringbufCreate fuel region params.capacity params.elemSize
  enabled s params := s = none ∧ params.capacity * params.elemSize ≤ n
  next s params h :=
    if s.isSome then none
    else if h = 0 then some none
    else if params.capacity < 2 ∨ params.elemSize = 0 then none
    else some (some (h, params))

/-- A created ring buffer is an empty queue in a header and a buffer of its own. -/
def ringRepr (n : Nat) : Option (Nat × RingParams) → Set Alloc → Mem → Prop
  | none, _, _ => True
  | some (h, params), L, μ => ∃ hdr ∈ L, ∃ data ∈ L, hdr.ptr = h ∧ hdr.size = 96 ∧
      data.size = params.capacity * params.elemSize ∧
      RingPlace n params.capacity params.elemSize hdr.ptr data.ptr ∧
      RingAt params.capacity params.elemSize hdr.ptr data.ptr 0 [] μ

section Create
variable {n fuel : Nat} {region : ShmRegion} {L : Set Alloc} {μ : Mem} {hdr : Alloc}

theorem does_ringAbandon (map : region.Mapped) (total : region.size = n) (enough : n ≤ fuel) (mem : hdr ∈ L)
    (plain : hdr.align = 16) (whole : 16 ≤ hdr.size) (address : Nat) :
    Does n L μ (ringbufAbandon fuel region address hdr.ptr) (fun h _ _ => h = 0) := by
  unfold ringbufAbandon
  rw [perform_bind]
  refine does_call fun _ => ?_
  refine does_bind (does_objectFree map total enough mem plain whole) ?_
  exact fun _ _ _ _ => does_ret rfl

/-- The outcome of ringbuf_create: null, or an empty queue in two allocations of its own. -/
def ringMade (n : Nat) (params : RingParams) (L : Set Alloc) (h : Nat) (L' : Set Alloc) (μ' : Mem) : Prop :=
  h = 0 ∨ (2 ≤ params.capacity ∧ 0 < params.elemSize ∧ ∃ hdr data, h = hdr.ptr ∧ hdr ∉ L ∧ data ∉ insert hdr L ∧
    L' = insert data (insert hdr L) ∧ hdr.size = 96 ∧ hdr.align = 16 ∧
    data.size = params.capacity * params.elemSize ∧ data.align = 16 ∧
    RingPlace n params.capacity params.elemSize hdr.ptr data.ptr ∧
    RingAt params.capacity params.elemSize hdr.ptr data.ptr 0 [] μ')

theorem does_ringMake (map : region.Mapped) (total : region.size = n) (large : 2728 ≤ n) (enough : n ≤ fuel)
    {params : RingParams} (bound : params.capacity * params.elemSize + 112 ≤ 2 ^ 64) :
    Does n L μ (ringbufCreate fuel region params.capacity params.elemSize) (ringMade n params L) := by
  unfold ringbufCreate
  by_cases bad : params.capacity < 2 ∨ params.elemSize = 0
  · rw [if_pos bad]
    exact does_ret (Or.inl rfl)
  rw [if_neg bad]
  have least := Nat.le_mul_of_pos_right params.capacity (show 0 < params.elemSize by omega)
  have least' := Nat.le_mul_of_pos_left params.elemSize (show 0 < params.capacity by omega)
  have width : mul64 params.capacity params.elemSize = params.capacity * params.elemSize := mul64_eq (by omega)
  refine does_header map total large enough (by simp) (fun _ => does_ret (Or.inl rfl)) ?_
  intro hdr μ₁ fresh size align low high resolved
  simp only [RingBufHeader.sizeof] at size
  have header : hdr ∈ insert hdr L := Set.mem_insert _ _
  simp only [ringbufResolveHeader, resolved, RingBufHeader.capacity, RingBufHeader.head, RingBufHeader.tail,
    RingBufHeader.elemSize, RingBufHeader.dataOffset, width]
  refine does_store64 map total header (by omega) (by omega) ?_
  refine does_store64 map total header (by omega) (by omega) ?_
  refine does_store64 map total header (by omega) (by omega) ?_
  refine does_store64 map total header (by omega) (by omega) ?_
  refine does_store64 map total header (by omega) (by omega) ?_
  refine does_containerInitLock ?_
  refine does_storage map total large enough header (by omega) (by omega) ?_ ?_
  · refine does_weaken (does_ringAbandon map total enough header align (by omega) _) ?_
    rintro h L' μ' rfl
    exact Or.inl rfl
  · intro data μ' new sizeData alignData lowData highData apart kept named _
    refine Or.inr ⟨by omega, by omega, hdr, data, rfl, fresh, new, rfl, by omega, align, sizeData, alignData,
      ⟨by omega, by omega, by omega, by omega, by omega⟩, ?_⟩
    refine ⟨(kept 0 (by omega)).trans ?_, (kept 24 (by omega)).trans ?_, named, (kept 8 (by omega)).trans ?_,
      (kept 16 (by omega)).trans ?_, by omega, by simp only [List.length_nil]; omega, by simp⟩
    · rw [load_store_apart (by omega), load_store_apart (by omega), load_store_apart (by omega),
        load_store_apart (by omega)]
      exact load_store_eight (by omega)
    · rw [load_store_apart (by omega)]
      exact load_store_eight (by omega)
    · rw [load_store_apart (by omega), load_store_apart (by omega), load_store_apart (by omega)]
      exact load_store_eight (by omega)
    · rw [load_store_apart (by omega), load_store_apart (by omega), load_store_eight (by omega)]
      exact (ringSlot_zero (by omega)).symm

theorem does_ringCreate (map : region.Mapped) (total : region.size = n) (large : 2728 ≤ n) (enough : n ≤ fuel)
    {params : RingParams} (bound : params.capacity * params.elemSize ≤ n) :
    Does n L μ (ringbufCreate fuel region params.capacity params.elemSize)
      (fun h L' μ' => ∃ s', (ringCreation fuel n).next none params h = some s' ∧ ringRepr n s' L' μ') := by
  have user := map.user
  refine does_weaken (does_ringMake map total large enough (by omega)) ?_
  rintro h L' μ' (rfl | ⟨wide, positive, hdr, data, rfl, _, _, rfl, size, _, width, _, place, ring⟩)
  · exact ⟨none, rfl, trivial⟩
  · have header := place.header
    refine ⟨some (hdr.ptr, params), ?_, hdr, Set.mem_insert_of_mem _ (Set.mem_insert _ _), data, Set.mem_insert _ _,
      rfl, size, width, place, ring⟩
    simp only [ringCreation, Option.isSome_none, Bool.false_eq_true, if_false]
    rw [if_neg (by omega), if_neg (by omega)]

theorem ring_creation_refines (map : region.Mapped) (total : region.size = n) (large : 2728 ≤ n) (enough : n ≤ fuel) :
    Refines n region (ringCreation fuel n) (ringRepr n) := by
  intro s params L μ enabled _
  obtain ⟨rfl, bound⟩ := enabled
  exact does_ringCreate map total large enough bound

theorem ring_local {s : Option (Nat × RingParams)} {m : Mem} (repr : ringRepr n s L μ)
    (same : ∀ a ∈ L, SameOn μ m a.ptr (a.ptr + a.size)) : ringRepr n s L m := by
  cases s with
  | none => trivial
  | some made =>
    obtain ⟨hdr, memHdr, data, memData, handle, size, sizeData, place, ring⟩ := repr
    refine ⟨hdr, memHdr, data, memData, handle, size, sizeData, place, ring.congr (fun f small => ?_) (by simp)⟩
    exact load_congr ((same hdr memHdr).narrow (by omega) (by omega))

end Create

theorem ringNext_bounded {c e : Nat} {q t : List (List UInt8)} {op : RingOp} {r : RingResult}
    (bound : q.length ≤ c - 1) (effect : ringNext c e q op r = some t) : t.length ≤ c - 1 := by
  cases op with
  | push element =>
    cases r with
    | code rc =>
      simp only [ringNext] at effect
      split_ifs at effect with full
      · exact (Option.some.inj effect) ▸ bound
      · rw [← Option.some.inj effect, List.length_append, List.length_singleton]
        omega
    | bytes out => simp [ringNext] at effect
    | flag b => simp [ringNext] at effect
  | pop =>
    cases r with
    | code rc => simp [ringNext] at effect
    | bytes out =>
      cases q with
      | nil =>
        simp only [ringNext] at effect
        split_ifs at effect
        exact (Option.some.inj effect) ▸ bound
      | cons first rest =>
        simp only [ringNext] at effect
        split_ifs at effect
        rw [← Option.some.inj effect]
        rw [List.length_cons] at bound
        omega
    | flag b => simp [ringNext] at effect
  | isEmpty =>
    cases r with
    | code rc => simp [ringNext] at effect
    | bytes out => simp [ringNext] at effect
    | flag b =>
      simp only [ringNext] at effect
      split_ifs at effect
      exact (Option.some.inj effect) ▸ bound
  | isFull =>
    cases r with
    | code rc => simp [ringNext] at effect
    | bytes out => simp [ringNext] at effect
    | flag b =>
      simp only [ringNext] at effect
      split_ifs at effect
      exact (Option.some.inj effect) ▸ bound

/-- A history of the queue never leads beyond its capacity. -/
theorem ring_explains_bounded {c e : Nat} {log : List (RingOp × Option RingResult)} {q : List (List UInt8)}
    (explains : Explains (ringNext c e) [] log q) : q.length ≤ c - 1 := by
  induction explains with
  | start => exact Nat.zero_le _
  | returned _ effect ih => exact ringNext_bounded ih effect
  | lost _ ih => exact ih
  | taken _ effect ih => exact ringNext_bounded ih effect

/-- A created ring buffer used by any number of processes, which load and store one word or
    byte at a time and may die anywhere, while others change any byte outside its fields and
    slots: the calls that returned and those that were interrupted form one history of a
    queue of at most capacity - 1 elements, an interrupted call with its whole effect or
    none; the bytes stand for that queue whenever nobody is in a critical section, and for it
    or for the queue after the call elsewhere; the mutex always passes on. -/
theorem ringbuf_runs_atomic {S : Type} {n fuel : Nat} {regions : Nat → ShmRegion} {before m : Mem}
    {handle : Sys → S → Int × S} {env env' : S} (creator : Nat)
    {st : Pool.State Sys (UserResult Nat) (UserView RingParams Nat) (UserRequest RingParams Nat)}
    {earlier : List (RingParams × Option Nat)} {params : RingParams} {h : Nat}
    {ring : RobustMutex.State Sys RingOp RingResult}
    (mapped : ∀ p, (regions p).Mapped) (sizes : ∀ p, (regions p).size = n) (enough : n ≤ fuel)
    (init : run handle (allocatorInit (regions creator)) before env = some (.ok, m, env'))
    (creation : Pool.Reachable (userRules (ringCreation fuel n) none n regions) (userOrigin m) st)
    (last : st.client.history = earlier ++ [(params, some h)]) (created : h ≠ 0) (idle : st.client.busy = false)
    (runs : RobustMutex.Reachable (ringMutex h) (fun p => ringCode (regions p) h)
      (ringBytes params.capacity params.elemSize h (load st.mem (h + RingBufHeader.dataOffset) 8))
      (RobustMutex.origin st.mem) ring) :
    ∃ q, Explains (ringNext params.capacity params.elemSize) [] ring.log q ∧ q.length ≤ params.capacity - 1 ∧
      ((∀ p b, ring.owner ≠ .held p b) → RingStands params.capacity params.elemSize h
        (load st.mem (h + RingBufHeader.dataOffset) 8) q ring.mem) ∧
      (∀ p b, ring.owner = .held p b → ∃ op prog, ring.active p = some (op, prog) ∧
        Either (RingStands params.capacity params.elemSize h (load st.mem (h + RingBufHeader.dataOffset) 8))
          (ringNext params.capacity params.elemSize) q op ring.mem) ∧
      (∀ p op prog, ring.active p = some (op, prog) → (∀ b, ring.owner ≠ .held p b) →
        ∃ next, prog = call (ringMutex h).lock next) ∧
      ring.owner ≠ .ruined := by
  have fresh := (run_allocatorInit (mapped creator) (sizes creator) init).inv
  have room := fresh.room
  unfold heapBase at room
  obtain ⟨s, follows, rest⟩ := component_runs
    (fun p => ring_creation_refines (mapped p) (sizes p) (by omega) enough) mapped sizes fresh
    (show ringRepr n none ∅ m from trivial) (fun _ _ _ _ repr same => ring_local repr same) creation
  obtain ⟨L, V, repr, _⟩ := rest idle
  rw [last] at follows
  obtain ⟨t, _, step⟩ := Component.follow_last follows
  have made : s = some (h, params) := by
    simp only [ringCreation] at step
    split_ifs at step
    exact (Option.some.inj step).symm
  subst made
  obtain ⟨hdr, memHdr, data, memData, rfl, size, sizeData, place, ring₀⟩ := repr
  rw [ring₀.dataOffset] at runs ⊢
  obtain ⟨q, good⟩ := good_reachable (ring_sound mapped sizes place)
    (show RingStands params.capacity params.elemSize hdr.ptr data.ptr [] st.mem from ⟨0, ring₀⟩) runs
  refine ⟨q, good.explains, ring_explains_bounded good.explains, ?_, ?_, ?_, good.whole⟩
  · intro unheld
    cases kind : ring.owner with
    | free => exact good.idle (Or.inl kind)
    | orphaned => exact good.idle (Or.inr kind)
    | held p b => exact absurd kind (unheld p b)
    | ruined => exact absurd kind good.whole
  · intro p b held
    obtain ⟨op, prog, busy, careful⟩ := good.inside p b held
    exact ⟨op, prog, busy, careful.either⟩
  · intro p op prog busy away
    obtain ⟨next, start, _⟩ := good.waits p op prog busy away
    exact ⟨next, start⟩

/-- A ring buffer of two slots of one byte in the small region: one process pushes an element, a
    second one dies in its pop, a third one recovers the mutex and pops the element. -/
theorem ringbuf_runs_atomic_small :
    ∃ st ring q, Pool.Reachable (userRules (ringCreation 4096 4096) none 4096 fun _ => smallRegion)
        (userOrigin initialised) st ∧
      st.client.history = [(⟨2, 1⟩, some 2784)] ∧
      RobustMutex.Reachable (ringMutex 2784) (fun _ => ringCode smallRegion 2784)
        (ringBytes 2 1 2784 (load st.mem (2784 + RingBufHeader.dataOffset) 8)) (RobustMutex.origin st.mem) ring ∧
      ring.log = [(.push fun _ => 7, some (.code 0)), (.pop, none), (.pop, some (.bytes (some [7])))] ∧
      Explains (ringNext 2 1) [] ring.log q ∧
      RingStands 2 1 2784 (load st.mem (2784 + RingBufHeader.dataOffset) 8) q ring.mem := by
  have init := initialised_run
  obtain ⟨m', ran, capacity, elemSize, data, head, tail⟩ := ringbufCreate_small
  generalize initialised = m at init ran ⊢
  have origin : Pool.Reachable (userRules (ringCreation 4096 4096) none 4096 fun _ => smallRegion) (userOrigin m)
    (userOrigin m) := .refl
  have made := reachable_container origin (p := 0) (⟨2, 1⟩ : RingParams) rfl rfl ⟨rfl, by decide⟩ ran
  have place : RingPlace 4096 2 1 2784 2928 := ⟨by decide, by decide, by decide, by decide, by decide⟩
  have empty : RingStands 2 1 2784 2928 [] m' :=
    ⟨0, capacity, elemSize, data, head, tail, by decide, by decide, fun i inside => absurd inside (by simp)⟩
  have sound : RobustMutex.Sound (ringMutex 2784) (fun _ => ringCode smallRegion 2784) (RingStands 2 1 2784 2928)
    (ringNext 2 1) (ringBytes 2 1 2784 2928) := ring_sound (fun _ => smallRegion_mapped) (fun _ => rfl) place
  have first : RobustMutex.Reachable (ringMutex 2784) (fun _ => ringCode smallRegion 2784) (ringBytes 2 1 2784 2928)
    (RobustMutex.origin m') (RobustMutex.origin m') := .refl
  obtain ⟨r, q₁, m₁, effect, stands, pushed⟩ := sound.returns first 0 (.push fun _ => 7) rfl (Or.inl rfl) empty
  obtain ⟨rfl, rfl⟩ : r = .code 0 ∧ q₁ = [[7]] := by
    cases r <;> simp_all [ringNext, loadBytes]
  have began := pushed.step (.begin 1 .pop rfl)
  obtain ⟨k, shape, _⟩ := sound.guarded 1 .pop
  rw [shape] at began
  have locked := began.step (.lock 1 rfl rfl)
  have died := locked.step (.dieHolding 1 rfl rfl)
  obtain ⟨r, q₂, m₂, effect, _, popped⟩ :=
    sound.returns died 2 .pop (by simp [RobustMutex.origin]) (Or.inr rfl) stands
  obtain ⟨rfl, rfl⟩ : r = .bytes (some [7]) ∧ q₂ = [] := by
    cases r <;> simp_all [ringNext]
  have word : load m' (2784 + RingBufHeader.dataOffset) 8 = 2928 := data
  rw [← word] at popped
  obtain ⟨q, explains, _, idle, _⟩ := ringbuf_runs_atomic 0 (fun _ => smallRegion_mapped) (fun _ => rfl) (Nat.le_refl _)
    init made (List.nil_append _).symm (by decide) rfl popped
  exact ⟨_, _, q, made, rfl, popped, rfl, explains, idle (by simp)⟩

end OffsetStore
