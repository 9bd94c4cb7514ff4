import OffsetStore.StoreRefinement

/- The example programs: a producer that leaves a message under a name, and a consumer that
   prints it. The producer copies the message to the start of the object, where its header is,
   and the consumer reads it from there. -/
namespace OffsetStore
open ByteMemory Program Prog Words CellChain Pool

section Code
variable (fuel : Nat) (region : ShmRegion)

/-- produce_basic_object: the handle it prints, or nothing when it returns -1. -/
def produceBasicObject (rootName message : CString) : Code (Option Nat) := do
  let payloadSize := message.bytes.length + 1
  let allocated ← objectStoreAlloc fuel region 1 payloadSize
  match allocated with
  | .error _ => return none
  | .ok object =>
    match offsetPtrTryResolve region.base region.size object payloadSize with
    | none => do
      let _ ← objectStoreFree fuel region object
      return none
    | some payload => do
      region.copyIn payload 0 (message.bytes ++ [0])
      let status ← shmRegionSetRoot region rootName object
      if status ≠ .ok then
        let _ ← objectStoreFree fuel region object
        return none
      return some object

/-- The characters up to the first zero byte, as printf takes them. -/
def printString (ptr : Nat) : Nat → Nat → Code (List UInt8)
  | 0, _ => spin
  | left + 1, index => do
    let byte ← region.load8 ptr index
    if byte = 0 then return []
    else
      let rest ← printString ptr left (index + 1)
      return UInt8.ofNat byte :: rest

/-- consume_basic_object: the handle and the text it prints, or nothing when it returns -1. -/
def consumeBasicObject (rootName : CString) : Code (Option (Nat × List UInt8)) := do
  let found ← shmRegionGetRoot region rootName
  if found.1 ≠ .ok then return none
  else
    let object := found.2.getD 0
    match offsetPtrTryResolve region.base region.size object 256 with
    | none => return none
    | some payload => do
      let text ← printString region payload fuel 0
      return some (object, text)

end Code

section Steps
variable {n fuel : Nat} {region : ShmRegion} {m m' m'' : Mem} {S S' : Set Alloc} {a : Alloc}

theorem Scribbled.storeBytes (before : Scribbled n S a m m') (mem : a ∈ S) {o : Nat} {bytes : List UInt8} (left : a.ptr ≤ o)
    (right : o + bytes.length ≤ a.ptr + a.size) : Scribbled n S a m (storeBytes m' o bytes) := by
  induction bytes generalizing m' o with
  | nil => exact before
  | cons b bytes ih =>
    rw [List.length_cons] at right
    exact ih (before.store mem left (by omega)) (by omega) (by omega)

/-- Stores into the region header are no matter to the heap. -/
theorem HeapStep.framed (step : HeapStep n S m S' m') (same : SameOn m' m'' 2496 n) : HeapStep n S m S' m'' := by
  have foot := step.heap.footprint
  refine ⟨step.heap.congr same, fun c before after => ?_, fun c before after => ?_⟩
  · have bounds := foot.bounds c after
    obtain ⟨V, inv, _, live⟩ := step.heap
    obtain ⟨s, _, b, _, _, fits, low, _⟩ := inv.live_block ((live c).mpr after)
    have first := shardStart_ge n s
    have ptr := fits.ptr_ge
    have block := fits.block
    rw [load_congr (same.narrow (by omega) (by omega)), step.width c before after]
  · have bounds := foot.bounds c after
    unfold heapBase at bounds
    exact (step.bytes c before after).trans (same.narrow (by omega) (by omega))

theorem HeapLive.span_le (heap : HeapLive n m S) (mem : a ∈ S) : spanOf m a ≤ n := by
  obtain ⟨V, inv, _, live⟩ := heap
  obtain ⟨s, shard, b, mb, _, fits, _⟩ := inv.live_block ((live a).mpr mem)
  have inside := (inv.shards s shard).bounds mb
  have finish := heap_end_le inv.room shard
  unfold spanOf
  rw [fits.block, ((inv.shards s shard).repr b mb).size]
  omega

/-- The text at an address, with fuel for its characters and the zero byte. -/
theorem burst_printString {off index left : Nat} {text : List UInt8} (small : off + index + text.length < 2 ^ 63)
    (here : NameAt m (off + index) text) (plain : 0 ∉ text) (enough : text.length < left) :
    burst m (printString region (add64 region.base off) left index) = ([], ret text) := by
  induction text generalizing index left with
  | nil =>
    obtain ⟨left, rfl⟩ := Nat.exists_eq_add_of_lt enough
    have zero : m (off + index) = 0 := here.2
    simp only [List.length_nil] at small
    rw [List.length_nil, Nat.zero_add, printString, load8_field (by omega)]
    simp [loadWord_bind, load, zero]
  | cons b text ih =>
    rw [List.length_cons] at small enough
    obtain ⟨left, rfl⟩ := Nat.exists_eq_add_of_lt enough
    obtain ⟨first, rest⟩ := nameAt_cons here
    have other : b ≠ 0 := fun same => plain (by simp [same])
    have byte : load m (off + index) 1 = b.toNat := by simp [load, first]
    have nonzero : b.toNat ≠ 0 := fun zero => other (UInt8.toNat_inj.mp zero)
    have step := @ih (index + 1) (text.length + 1 + left) (by omega) rest (fun mem => plain (by simp [mem])) (by omega)
    rw [printString, load8_field (by omega)]
    simp only [loadWord_bind, burst_read, byte, if_neg nonzero]
    rw [burst_bind_of_ret step, UInt8.ofNat_toNat]
    rfl

end Steps

/-- What producing an object leaves, from the answer of object_store_alloc, with the handle when it succeeds. -/
inductive Produced (n : Nat) (m : Mem) (S : Set Alloc) (handles : Handles) (rootName message : CString) :
    Except OffsetStoreStatus Nat → Option Nat → Mem → Prop where
  | noRoom {e : OffsetStoreStatus} {m' : Mem} (names : HeaderHolds n m' handles) (heap : HeapStep n S m S m') :
      Produced n m S handles rootName message (.error e) none m'
  /-- The name was refused. A message of three characters or more keeps its object from being released. -/
  | unnamed {m' : Mem} {S' : Set Alloc} {a : Alloc} (fresh : a ∉ S)
      (refused : (putHandle 16 handles.roots rootName a.ptr).1 ≠ .ok) (names : HeaderHolds n m' handles)
      (heap : HeapStep n S m S' m') (released : S' = S ∨ S' = insert a S)
      (stuck : 3 ≤ message.bytes.length → n ≤ 2 ^ 16 → S' = insert a S) :
      Produced n m S handles rootName message (.ok a.ptr) none m'
  | named {m' : Mem} {a : Alloc} (fresh : a ∉ S) (valid : ValidName rootName)
      (names : HeaderHolds n m' { handles with roots := Function.update handles.roots rootName (some a.ptr) })
      (heap : HeapStep n S m (insert a S) m') (plain : a.align = 16) (width : a.size = 16 + (message.bytes.length + 1))
      (text : NameAt m' a.ptr message.bytes) :
      Produced n m S handles rootName message (.ok a.ptr) (some a.ptr) m'

section Produce
variable {n fuel : Nat} {region : ShmRegion} {m : Mem} {S : Set Alloc} {handles : Handles} {rootName message : CString}

/-- The third character of a message lies in the size word of the header. -/
theorem message_size {a : Alloc} (text : NameAt m a.ptr message.bytes) (long : 3 ≤ message.bytes.length) :
    2 ^ 16 ≤ load m a.ptr 4 := by
  obtain ⟨bytes, _⟩ := text
  have third : m (a.ptr + 2) = message.bytes[2] := by
    have at' := @loadBytes_getElem m a.ptr message.bytes.length 2 (by rw [loadBytes_length]; omega)
    rw [← at']
    simp only [bytes]
  have nonzero : m (a.ptr + 2) ≠ 0 := by
    rw [third]
    exact fun zero => message.no_nul (zero ▸ List.getElem_mem _)
  have positive : 0 < (m (a.ptr + 2)).toNat := Nat.pos_of_ne_zero fun zero => nonzero (UInt8.toNat_inj.mp zero)
  simp only [load, Nat.add_assoc, Nat.reduceAdd]
  omega

theorem not_freeable {a : Alloc} (heap : HeapLive n m S) (mem : a ∈ S) (text : NameAt m a.ptr message.bytes)
    (long : 3 ≤ message.bytes.length) (narrow : n ≤ 2 ^ 16) : ¬Freeable m a := by
  rintro ⟨_, fits⟩
  have size := message_size text long
  have span := heap.span_le mem
  simp only [ObjectHeader.size, ObjectHeader.sizeof, Nat.add_zero] at fits
  omega

theorem nameAt_copied (x : Nat) : NameAt (storeBytes m x (message.bytes ++ [0])) x message.bytes := by
  have length : (message.bytes ++ [0]).length = message.bytes.length + 1 := by simp
  refine ⟨?_, ?_⟩
  · have whole := loadBytes_storeBytes m x (message.bytes ++ [0])
    rw [length] at whole
    have front := @loadBytes_take (storeBytes m x (message.bytes ++ [0])) x (message.bytes.length + 1) message.bytes.length
      (by omega)
    rw [whole] at front
    rw [← front, List.take_left']
    rfl
  · rw [storeBytes_inside (by omega), List.getElem_append_right (Nat.le_refl _)]
    simp

theorem putHandle_ok {capacity object : Nat} {map : HandleMap} (success : (putHandle capacity map rootName object).1 = .ok) :
    ValidName rootName ∧ (putHandle capacity map rootName object).2 = Function.update map rootName (some object) := by
  unfold putHandle at success ⊢
  by_cases bad : ¬ValidName rootName ∨ object = 0
  · rw [if_pos bad] at success
    cases success
  · rw [if_neg bad] at success ⊢
    by_cases full : map rootName = none ∧ (SlotTable.keys map).ncard = capacity
    · rw [if_pos full] at success
      cases success
    · rw [if_neg full]
      exact ⟨not_not.mp fun invalid => bad (Or.inl invalid), rfl⟩

theorem exec_produce (map : region.Mapped) (total : region.size = n) (enough : n ≤ fuel) (names : HeaderHolds n m handles)
    (heap : HeapLive n m S) : ∃ made m₁ r m',
      exec (objectStoreAlloc fuel region 1 (message.bytes.length + 1)) m = some (made, m₁) ∧
      exec (produceBasicObject fuel region rootName message) m = some (r, m') ∧
      Produced n m S handles rootName message made r m' := by
  have user := map.user
  unfold produceBasicObject
  dsimp only
  by_cases large : 2 ^ 32 ≤ message.bytes.length + 1
  · have refused : exec (objectStoreAlloc fuel region 1 (message.bytes.length + 1)) m =
        some (.error .invalidArgument, m) := by
      unfold objectStoreAlloc
      rw [if_pos (by simp only [uint32Max]; omega)]
      rfl
    refine ⟨_, m, none, m, refused, ?_, .noRoom names (HeapStep.refl heap)⟩
    rw [exec_bind_of_some refused]
    rfl
  obtain ⟨a, m₁, fresh, plain, size, run, step, below⟩ | ⟨m', run, step, below⟩ :=
    exec_objectAlloc_built map total enough heap 1 (Nat.not_le.mp large)
  swap
  · exact ⟨_, m', none, m', run, by rw [exec_bind_of_some run]; rfl, .noRoom (names.congr below) step⟩
  have mem : a ∈ insert a S := Set.mem_insert a S
  have bounds := step.heap.footprint.bounds a mem
  unfold heapBase at bounds
  generalize headerStored m₁ a.ptr (message.bytes.length + 1) 1 = m₂ at run step below
  refine ⟨.ok a.ptr, m₂, ?_⟩
  rw [exec_bind_of_some run]
  dsimp only
  rw [resolve_eq_some map (by omega) (by omega) (by omega)]
  dsimp only
  rw [copyIn_field (by omega), exec_bind_of_some (exec_writeBytes _ _ _)]
  have length : (message.bytes ++ [0]).length = message.bytes.length + 1 := by simp
  have copied : HeapStep n S m (insert a S) (storeBytes m₂ (a.ptr + 0) (message.bytes ++ [0])) :=
    step.scribbled fresh (Scribbled.storeBytes (Scribbled.refl step.heap a) mem (by omega) (by omega))
  have text : NameAt (storeBytes m₂ (a.ptr + 0) (message.bytes ++ [0])) a.ptr message.bytes := nameAt_copied a.ptr
  have names' : HeaderHolds n (storeBytes m₂ (a.ptr + 0) (message.bytes ++ [0])) handles :=
    names.congr (below.trans (SameOn.storeBytes (by omega)))
  generalize storeBytes m₂ (a.ptr + 0) (message.bytes ++ [0]) = m₃ at copied text names'
  have word : (UInt64.ofNat a.ptr).toNat = a.ptr := by
    rw [UInt64.toNat_ofNat']
    exact Nat.mod_eq_of_lt (by omega)
  obtain ⟨rootSlots, roots⟩ := names'.roots
  obtain ⟨indexSlots, index⟩ := names'.index
  have rootsIn : 192 ≤ rootTable.offset ∧ rootTable.offset + 48 * rootTable.capacity ≤ 2496 := by simp
  obtain ⟨r, value, result⟩ := exec_put rootsIn map names'.header roots rootName (UInt64.ofNat a.ptr)
  rw [word] at value result
  have called : exec (shmRegionSetRoot region rootName a.ptr) m₃ = some r := value
  rw [exec_bind_of_some called]
  cases result with
  | failed failure same =>
    rw [if_pos failure]
    obtain ⟨free, m₄, freed, released, below'⟩ | ⟨_, kept⟩ :=
      exec_objectFree_built map total enough copied.heap mem plain (by omega)
    · have back : insert a S \ {a} = S := Set.insert_sdiff_self_of_notMem fresh
      rw [back] at released
      refine ⟨none, m₄, run, by rw [exec_bind_of_some freed]; rfl, .unnamed fresh failure (names'.congr below')
        (copied.trans released fun c _ after => Set.mem_insert_of_mem a after) (Or.inl rfl) fun long narrow => ?_⟩
      exact absurd free (not_freeable copied.heap mem text long narrow)
    · exact ⟨none, m₃, run, by rw [exec_bind_of_some kept]; rfl, .unnamed fresh failure names' copied (Or.inr rfl)
        fun _ _ => rfl⟩
  | stored success header frame after =>
    rename_i m₄ slots
    have done : ValidName rootName ∧ (putHandle 16 handles.roots rootName a.ptr).2 =
        Function.update handles.roots rootName (some a.ptr) := putHandle_ok success
    rw [if_neg (by simp)]
    have kept : SameOn m₃ m₄ 2496 n := frame 2496 n (by omega) (Or.inr (by simp))
    refine ⟨some a.ptr, m₄, run, rfl, .named fresh done.1 ⟨header, ⟨slots, ?_⟩, ⟨indexSlots, ?_⟩⟩ (copied.framed kept)
      plain size ?_⟩
    · rw [← done.2]
      exact after
    · exact index.congr (frame _ _ (by simp) (by simp))
    · refine ⟨?_, ?_⟩
      · rw [loadBytes_congr (kept.narrow (by omega) (by omega)), text.1]
      · rw [kept _ (by omega) (by omega), text.2]

/-- The consumer prints the text that the name leads to, unless the object lies in the last 256 bytes. -/
theorem exec_consume (map : region.Mapped) (total : region.size = n) (enough : n ≤ fuel) (names : HeaderHolds n m handles)
    {object : Nat} {text : CString} (valid : ValidName rootName) (named : handles.roots rootName = some object)
    (positive : 0 < object) (room : object + text.bytes.length < n) (here : NameAt m object text.bytes) :
    exec (consumeBasicObject fuel region rootName) m =
      some (if object + 256 ≤ n then some (object, text.bytes) else none, m) := by
  have user := map.user
  obtain ⟨slots, roots⟩ := names.roots
  have answer : getHandle handles.roots rootName = (.ok, some object) := by
    rw [getHandle, if_neg (not_not.mpr valid), if_neg (by rw [named]; simp), named]
  have found : exec (shmRegionGetRoot region rootName) m = some (getHandle handles.roots rootName, m) :=
    exec_get (show rootTable.offset + 48 * rootTable.capacity < 2 ^ 62 by simp) map roots rootName
  rw [answer] at found
  unfold consumeBasicObject
  rw [exec_bind_of_some found]
  simp only [ne_eq, not_true_eq_false, if_false, Option.getD_some]
  by_cases inside : object + 256 ≤ n
  · rw [resolve_eq_some map positive (by omega) (by omega), if_pos inside]
    dsimp only
    rw [exec_bind_of_burst (burst_printString (by omega) here text.no_nul (by omega))]
    rfl
  · rw [resolve_eq_none map (by omega), if_neg inside]
    rfl

end Produce

section Examples
variable {n fuel : Nat} {producer : ShmRegion} {m : Mem} {S : Set Alloc} {handles : Handles}

/-- A producer on any store whose header and heap are intact. When it succeeds, every consumer prints the message,
    unless the object lies in the last 256 bytes of the region; but a message of three characters or more has gone over the
    size in the header, so that in a region of 64 KiB nobody can release the object. -/
theorem produced_message_stuck (map : producer.Mapped) (total : producer.size = n) (enough : n ≤ fuel)
    (names : HeaderHolds n m handles) (heap : HeapLive n m S) (rootName message : CString) :
    ∃ made m₁ r m', exec (objectStoreAlloc fuel producer 1 (message.bytes.length + 1)) m = some (made, m₁) ∧
      exec (produceBasicObject fuel producer rootName message) m = some (r, m') ∧
      Produced n m S handles rootName message made r m' ∧
      ∀ object, r = some object → ∀ region : ShmRegion, region.Mapped → region.size = n →
        exec (consumeBasicObject fuel region rootName) m' =
          some (if object + 256 ≤ n then some (object, message.bytes) else none, m') ∧
        (3 ≤ message.bytes.length → n ≤ 2 ^ 16 →
          exec (objectStoreFree fuel region object) m' = some (.notFound, m')) := by
  obtain ⟨made, m₁, r, m', alloc, run, produced⟩ := exec_produce map total enough names heap
  refine ⟨made, m₁, r, m', alloc, run, produced, fun object same region map' total' => ?_⟩
  cases produced with
  | noRoom => cases same
  | unnamed => cases same
  | named fresh valid names' step plain width text =>
    rename_i a
    cases same
    have mem : a ∈ insert a S := Set.mem_insert a S
    have bounds := step.heap.footprint.bounds a mem
    unfold heapBase at bounds
    refine ⟨exec_consume map' total' enough names' valid (by simp) (by omega) (by omega) text, fun long narrow => ?_⟩
    obtain ⟨free, _⟩ | ⟨_, kept⟩ := exec_objectFree_built map' total' enough step.heap mem plain (by omega)
    · exact absurd free (not_freeable step.heap mem text long narrow)
    · exact kept

end Examples

def hello : CString := ⟨[104, 101, 108, 108, 111], by decide⟩

theorem produced_message_stuck_small : ∃ creator m m', boot 4096 = some ((.ok, creator), m, ()) ∧
    exec (produceBasicObject 4096 smallRegion nameA hello) m = some (some 2784, m') ∧
    exec (consumeBasicObject 4096 smallRegion nameA) m' = some (some (2784, hello.bytes), m') ∧
    exec (objectStoreFree 4096 smallRegion 2784) m' = some (.notFound, m') := by
  obtain ⟨creator, m, m₁, _, booted, store, allocated, _⟩ := boot_small_returns
  obtain ⟨names, S, hold⟩ := store.holds (boot_tables (fun c _ => creates_maps c) booted)
  obtain ⟨made, m₂, r, m', alloc, run, produced, consumed⟩ :=
    produced_message_stuck smallRegion_mapped rfl (Nat.le_refl 4096) names hold.heap nameA hello
  have handle : made = .ok 2784 := (Prod.mk.inj (Option.some.inj (alloc.symm.trans allocated))).1
  have done : r = some 2784 := by
    cases produced with
    | noRoom => cases handle
    | unnamed fresh refused =>
      refine absurd (congrArg Prod.fst (putHandle_empty (by decide) (by decide) ?_)) refused
      rw [Except.ok.inj handle]
      decide
    | named => rw [Except.ok.inj handle]
  subst done
  obtain ⟨printed, stuck⟩ := consumed 2784 rfl smallRegion smallRegion_mapped rfl
  exact ⟨creator, m, m', booted, run, printed, stuck (by decide) (by decide)⟩

end OffsetStore
