import OffsetStore.StoreContents

/- The library on the bytes of a store does what its calls do on the contents of the store. -/
namespace OffsetStore
open ByteMemory Program Prog Words Tiling CellChain Pool

section Frames
variable {n fuel : Nat} {region : ShmRegion} {m m' : Mem} {S : Set Alloc}

/-- A call on the tables stores into the region header only. -/
theorem exec_table_frame {handles : Handles} (mapped : region.Mapped) (holds : HeaderHolds n m handles) (c : TableCall)
    {r : TableReply} (run : exec (c.code region) m = some (r, m')) (hi : Nat) : SameOn m m' 2496 hi := by
  obtain ⟨rootSlots, roots⟩ := holds.roots
  obtain ⟨indexSlots, index⟩ := holds.index
  have rootsIn : 192 ≤ rootTable.offset ∧ rootTable.offset + 48 * rootTable.capacity ≤ 2496 := by simp
  have indexIn : 192 ≤ indexTable.offset ∧ indexTable.offset + 48 * indexTable.capacity ≤ 2496 := by simp
  have changed : ∀ {p : Code OffsetStoreStatus} {table : EntryTable} {map : HandleMap} {result x},
      192 ≤ table.offset ∧ table.offset + 48 * table.capacity ≤ 2496 → exec p m = some x →
      CallResult n table m map result x → exec (do return statusReply (← p)) m = some (r, m') → SameOn m m' 2496 hi := by
    intro p table map result x inTables value result run
    rw [exec_bind_of_some value] at run
    have same : x.2 = m' := (Prod.mk.inj (Option.some.inj run)).2
    cases result with
    | failed => exact same ▸ SameOn.refl m 2496 hi
    | stored _ _ frame => exact same ▸ frame 2496 hi (by omega) (Or.inr (by omega))
  have unchanged : ∀ {α : Type} {p : Code α} {f : α → TableReply} {x : α}, exec p m = some (x, m) →
      exec (do return f (← p)) m = some (r, m') → SameOn m m' 2496 hi := by
    intro α p f x value run
    rw [exec_bind_of_some value] at run
    have same : m = m' := (Prod.mk.inj (Option.some.inj run)).2
    exact same ▸ SameOn.refl m 2496 hi
  cases c with
  | setRoot name object =>
    obtain ⟨x, value, result⟩ := exec_put rootsIn mapped holds.header roots name object
    exact changed rootsIn value result run
  | getRoot name => exact unchanged (exec_get (by simp) mapped roots name) run
  | removeRoot name =>
    obtain ⟨x, value, result⟩ := exec_remove rootsIn mapped holds.header roots name
    exact changed rootsIn value result run
  | indexPut key object =>
    obtain ⟨x, value, result⟩ := exec_put indexIn mapped holds.header index key object
    exact changed indexIn value result run
  | indexGet key => exact unchanged (exec_get (by simp) mapped index key) run
  | indexContains key => exact unchanged (exec_contains mapped index key) run
  | indexRemove key =>
    obtain ⟨x, value, result⟩ := exec_remove indexIn mapped holds.header index key
    exact changed indexIn value result run

/-- The header and the tables of the region belong to nobody on the heap. -/
theorem HeaderHolds.congr {handles : Handles} (holds : HeaderHolds n m handles) (same : SameOn m m' 0 2496) :
    HeaderHolds n m' handles := by
  obtain ⟨header, ⟨rootSlots, roots⟩, ⟨indexSlots, index⟩⟩ := holds
  exact ⟨header.congr same, ⟨rootSlots, roots.congr (same.narrow (by simp) (by simp))⟩,
    ⟨indexSlots, index.congr (same.narrow (by simp) (by simp))⟩⟩

/-- The heap lies behind the region header. -/
theorem HeapLive.congr (heap : HeapLive n m S) (same : SameOn m m' 2496 n) : HeapLive n m' S := by
  obtain ⟨V, inv, intact, live⟩ := heap
  exact ⟨V, inv.congr (same.narrow (by omega) (by have := inv.room; unfold heapBase at this; omega))
    (same.narrow (by omega) (by omega)), intact, live⟩

/-- An allocation touches the heap and its lists only, and fails for lack of room only. -/
theorem exec_alloc_below (map : region.Mapped) (total : region.size = n) (enough : n ≤ fuel) (heap : HeapLive n m S)
    {size : Nat} (positive : 0 < size) (small : size ≤ 2 ^ 62) {r : Except OffsetStoreStatus Nat}
    (run : exec (allocatorAlloc fuel region size 16) m = some (r, m')) :
    SameOn m m' 0 2688 ∧ ∀ e, r = .error e → e = .outOfMemory := by
  obtain ⟨V, inv, _, _⟩ := heap
  obtain ⟨s, pre, x, link, stops, at', runs⟩ | ⟨_, same⟩ := exec_alloc_scan map total enough inv positive (by omega)
    (show 4 < 64 by omega) (show max 16 16 = 2 ^ 4 by rfl)
  · obtain ⟨post, listed⟩ := stops.listed
    obtain ⟨b, mb, rfl, free⟩ := (inv.shards s stops.shard).block_of_free (x := x) (by simp [listed])
    have high : payloadPtr b.start (2 ^ 4) < b.start + 40 + 2 ^ 4 := roundUp_lt (by omega)
    have rounded := roundUp_sixteen size
    obtain ⟨_, V', taken, stopped⟩ := exec_stop_taken inv map total stops.shard positive
      (Nat.le_refl 4) listed at' (by simp only [Nat.reducePow] at high ⊢; omega) stops.stopped
    rw [runs _ _ stopped] at run
    obtain ⟨rfl, rfl⟩ := Prod.mk.inj (Option.some.inj run)
    exact ⟨taken.below, fun e bad => by cases bad⟩
  · rw [same] at run
    obtain ⟨rfl, rfl⟩ := Prod.mk.inj (Option.some.inj run)
    refine ⟨SameOn.store (by omega), fun e bad => ?_⟩
    cases bad
    rfl

end Frames

/-- An object in memory: its header and its payload. -/
structure ObjectHolds (m : Mem) (a : Alloc) (o : StoredObject) : Prop where
  plain : a.align = 16
  width : a.size = 16 + o.payload.length
  small : o.payload.length < 2 ^ 32
  size : load m a.ptr 4 = o.payload.length
  type : load m (a.ptr + 4) 4 = o.type
  flags : load m (a.ptr + 8) 4 = 0
  bytes : loadBytes m (a.ptr + 16) o.payload.length = o.payload

/-- The allocations of the heap are the objects. -/
structure ObjectsHold (n : Nat) (m : Mem) (S : Set Alloc) (objects : Nat → Option StoredObject) : Prop where
  heap : HeapLive n m S
  holds : ∀ a ∈ S, ∃ o, objects a.ptr = some o ∧ ObjectHolds m a o
  named : ∀ object o, objects object = some o → ∃ a ∈ S, a.ptr = object

section Objects
variable {n fuel : Nat} {region : ShmRegion} {m m' : Mem} {S : Set Alloc} {a : Alloc} {o : StoredObject}
  {objects : Nat → Option StoredObject}

theorem ObjectHolds.congr (holds : ObjectHolds m a o) (same : SameOn m m' a.ptr (a.ptr + a.size)) : ObjectHolds m' a o := by
  have width := holds.width
  refine ⟨holds.plain, width, holds.small, ?_, ?_, ?_, ?_⟩
  · rw [load_congr (same.narrow (by omega) (by omega)), holds.size]
  · rw [load_congr (same.narrow (by omega) (by omega)), holds.type]
  · rw [load_congr (same.narrow (by omega) (by omega)), holds.flags]
  · rw [loadBytes_congr (same.narrow (by omega) (by omega)), holds.bytes]

theorem ObjectsHold.find (hold : ObjectsHold n m S objects) {object : Nat} (here : objects object = some o) :
    ∃ a ∈ S, a.ptr = object ∧ ObjectHolds m a o := by
  obtain ⟨a, mem, rfl⟩ := hold.named object o here
  obtain ⟨o', stored, holds⟩ := hold.holds a mem
  rw [here] at stored
  cases stored
  exact ⟨a, mem, rfl, holds⟩

theorem ObjectsHold.absent (hold : ObjectsHold n m S objects) {object : Nat} (gone : objects object = none) (mem : a ∈ S) :
    a.ptr ≠ object := by
  rintro rfl
  obtain ⟨o, stored, _⟩ := hold.holds a mem
  rw [gone] at stored
  cases stored

/-- One object comes, goes or changes, and the others keep their bytes. -/
theorem ObjectsHold.update (hold : ObjectsHold n m S objects) {S' : Set Alloc} (heap : HeapLive n m' S')
    {stored : Option StoredObject} (rest : ∀ c, c ≠ a → (c ∈ S' ↔ c ∈ S))
    (others : ∀ c ∈ S', c ≠ a → SameOn m m' c.ptr (c.ptr + c.size)) (apart : ∀ c ∈ S, c ≠ a → c.ptr ≠ a.ptr)
    (here : a ∈ S' ↔ stored ≠ none) (new : ∀ o, stored = some o → ObjectHolds m' a o) :
    ObjectsHold n m' S' (Function.update objects a.ptr stored) := by
  refine ⟨heap, fun c mem => ?_, fun object o found => ?_⟩
  · by_cases same : c = a
    · subst same
      obtain ⟨o, eq⟩ := Option.ne_none_iff_exists'.mp (here.mp mem)
      exact ⟨o, by rw [Function.update_self, eq], new o eq⟩
    · have old := (rest c same).mp mem
      obtain ⟨o, found, holds⟩ := hold.holds c old
      exact ⟨o, by rw [Function.update_of_ne (apart c old same), found], holds.congr (others c mem same)⟩
  · by_cases same : object = a.ptr
    · subst same
      rw [Function.update_self] at found
      exact ⟨a, here.mpr (by rw [found]; simp), rfl⟩
    · rw [Function.update_of_ne same] at found
      obtain ⟨c, mem, rfl⟩ := hold.named object o found
      have other : c ≠ a := fun eq => same (by rw [eq])
      exact ⟨c, (rest c other).mpr mem, rfl⟩

/-- Different allocations have different handles. -/
theorem HeapLive.handles_apart (heap : HeapLive n m S) (mem : a ∈ S) : ∀ c ∈ S, c ≠ a → c.ptr ≠ a.ptr := by
  intro c mc other same
  have foot := heap.footprint
  have apart := foot.disjoint mc mem other
  have mine := foot.bounds a mem
  have yours := foot.bounds c mc
  omega

variable (map : region.Mapped) (total : region.size = n) (enough : n ≤ fuel) (narrow : n < 2 ^ 32)
include map total enough narrow

/-- A handle resolves when it names an object, which has the room its header asks for. -/
theorem ObjectsHold.resolves (hold : ObjectsHold n m S objects) (object size : Nat)
    (fits : ∀ o, objects object = some o → size ≤ o.payload.length) :
    burst m (objectStoreResolveHeader fuel region object size) =
      ([], ret ((objects object).map fun _ => add64 region.base object)) := by
  obtain ⟨V, inv, intact, live⟩ := hold.heap
  cases here : objects object with
  | none =>
    exact burst_resolve_dead inv intact narrow map total (fun a alive => hold.absent here ((live a).mp alive)) enough size
  | some o =>
    obtain ⟨a, mem, rfl, holds⟩ := hold.find here
    have near := hold.heap.footprint.near a mem
    have plain := holds.plain
    have width := holds.width
    have small := holds.small
    have room := fits o here
    have alive := (live a).mpr mem
    obtain ⟨s, shard, b, mb, kind, block, _⟩ := inv.live_block alive
    have high := block.ptr_le
    have hit := inv.match_live alive (by omega)
    rw [block.block] at hit
    rw [burst_resolve_match inv map total shard mb hit enough (by omega), if_pos ⟨by omega, by rw [holds.flags]; rfl⟩]
    rfl

theorem ObjectsHold.reads_header (hold : ObjectsHold n m S objects) (object : Nat) :
    burst m (readHeader fuel region object) = ([], ret ((objects object).map fun o => (o.type, o.payload.length))) := by
  have user := map.user
  unfold readHeader objectStoreGetHeader
  rw [burst_bind_of_ret (hold.resolves map total enough narrow object 0 (fun _ _ => Nat.zero_le _))]
  cases here : objects object with
  | none => rfl
  | some o =>
    obtain ⟨a, mem, rfl, holds⟩ := hold.find here
    have bounds := hold.heap.footprint.bounds a mem
    simp (disch := omega) only [Option.map_some, ObjectHeader.type, ObjectHeader.size, load32_field]
    simp only [loadWord_bind, burst_read, Nat.add_zero, holds.type, holds.size]
    rfl

theorem ObjectsHold.reads_payload (hold : ObjectsHold n m S objects) (object : Nat) :
    burst m (objectStoreGetPayload fuel region object) =
      ([], ret ((objects object).map fun _ => region.base + object + ObjectHeader.sizeof)) := by
  have user := map.user
  unfold objectStoreGetPayload objectStoreGetPayloadConst objectStoreGetHeader
  rw [burst_bind_of_ret (hold.resolves map total enough narrow object 0 (fun _ _ => Nat.zero_le _))]
  cases here : objects object with
  | none => rfl
  | some o =>
    obtain ⟨a, mem, rfl, holds⟩ := hold.find here
    have bounds := hold.heap.footprint.bounds a mem
    have again := hold.resolves map total enough narrow a.ptr o.payload.length fun o' stored => by
      rw [here] at stored
      cases stored
      exact Nat.le_refl _
    simp (disch := omega) only [Option.map_some, ObjectHeader.size, load32_field]
    simp only [loadWord_bind, burst_read, Nat.add_zero, holds.size]
    rw [burst_bind_of_ret again, here]
    simp (disch := omega) only [Option.map_some, ObjectHeader.sizeof, add64_eq]
    rfl

theorem ObjectsHold.validates {s : Contents} (hold : ObjectsHold n m S s.objects) (object : Nat) :
    burst m (objectStoreValidate fuel region object) = ([], ret (s.standing object)) := by
  have user := map.user
  unfold objectStoreValidate objectStoreGetHeader Contents.standing offsetPtrIsNull
  by_cases null : object = 0
  · simp only [null, decide_true, if_true]
    rfl
  rw [if_neg (by simpa using null), if_neg null,
    burst_bind_of_ret (hold.resolves map total enough narrow object 0 (fun _ _ => Nat.zero_le _))]
  cases here : s.objects object with
  | none => rfl
  | some o =>
    obtain ⟨a, mem, rfl, holds⟩ := hold.find here
    have bounds := hold.heap.footprint.bounds a mem
    have again := hold.resolves map total enough narrow a.ptr o.payload.length fun o' stored => by
      rw [here] at stored
      cases stored
      exact Nat.le_refl _
    simp (disch := omega) only [Option.map_some, ObjectHeader.size, load32_field]
    simp only [loadWord_bind, burst_read, Nat.add_zero, holds.size]
    rw [burst_bind_of_ret again, here]
    rfl

theorem ObjectsHold.finds {s : Contents} (hold : ObjectsHold n m S s.objects) (object last : Nat) :
    burst m (findPayload fuel region object last) =
      ([], ret ((s.reaching object last).map fun _ => region.base + object + ObjectHeader.sizeof)) := by
  unfold findPayload Contents.reaching
  rw [burst_bind_of_ret (hold.reads_header map total enough narrow object)]
  cases here : s.objects object with
  | none => rfl
  | some o =>
    by_cases room : last ≤ o.payload.length
    · simp only [Option.map_some, room, if_true, Option.filter_some, decide_true]
      rw [hold.reads_payload map total enough narrow object, here]
      rfl
    · simp only [Option.map_some, room, if_false, Option.filter_some, decide_false]
      rfl

end Objects

/-- The memory after the header of a new object. -/
def headerStored (m : Mem) (x size type : Nat) : Mem :=
  store (store (store (store m x 4 size) (x + 4) 4 type) (x + 8) 4 0) (x + 12) 4 0

section Payloads
variable {m : Mem} {o k i n : Nat} {bytes : List UInt8}

theorem loadBytes_slice (inside : i + k ≤ n) : loadBytes m (o + i) k = ((loadBytes m o n).drop i).take k := by
  refine List.ext_getElem ?_ fun j left right => ?_
  · rw [List.length_take, List.length_drop, loadBytes_length, loadBytes_length]
    omega
  · rw [List.getElem_take, List.getElem_drop, loadBytes_getElem, loadBytes_getElem, Nat.add_assoc]

theorem overwrite_length {payload : List UInt8} (fits : i + bytes.length ≤ payload.length) :
    (overwrite payload i bytes).length = payload.length := by
  simp only [overwrite, List.length_append, List.length_take, List.length_drop]
  omega

theorem loadBytes_overwrite (fits : i + bytes.length ≤ n) :
    loadBytes (storeBytes m (o + i) bytes) o n = overwrite (loadBytes m o n) i bytes := by
  refine List.ext_getElem ?_ fun j left right => ?_
  · rw [overwrite_length (by rwa [loadBytes_length]), loadBytes_length, loadBytes_length]
  rw [loadBytes_length] at left
  rw [loadBytes_getElem]
  simp only [overwrite, List.getElem_append, List.length_append, List.length_take, loadBytes_length, List.getElem_take,
    List.getElem_drop, loadBytes_getElem, show min i n = i by omega]
  split
  · split
    · exact storeBytes_outside (by omega)
    · rename_i inside before
      obtain ⟨d, rfl⟩ := Nat.exists_eq_add_of_le (Nat.not_lt.mp before)
      rw [← Nat.add_assoc, storeBytes_inside (show d < bytes.length by omega)]
      simp only [Nat.add_sub_cancel_left]
  · rw [storeBytes_outside (by omega)]
    congr 1
    omega

end Payloads

section Changes
variable {n fuel : Nat} {region : ShmRegion} {m : Mem} {S : Set Alloc} {s : Contents}

/-- An object that is not there need not be removed. -/
theorem put_absent {object : Nat} (gone : s.objects object = none) : s.put object none = s := by
  unfold Contents.put
  rw [← gone, Function.update_eq_self]

/-- An object is an allocation that begins with its header. -/
theorem exec_objectAlloc_built (map : region.Mapped) (total : region.size = n) (enough : n ≤ fuel) (heap : HeapLive n m S)
    (type : Nat) {payloadSize : Nat} (small : payloadSize < 2 ^ 32) :
    (∃ a m₁, a ∉ S ∧ a.align = 16 ∧ a.size = 16 + payloadSize ∧
      exec (objectStoreAlloc fuel region type payloadSize) m =
        some (.ok a.ptr, headerStored m₁ a.ptr payloadSize type) ∧
      HeapStep n S m (insert a S) (headerStored m₁ a.ptr payloadSize type) ∧
      SameOn m (headerStored m₁ a.ptr payloadSize type) 0 2496) ∨
    ∃ m', exec (objectStoreAlloc fuel region type payloadSize) m = some (.error .outOfMemory, m') ∧
      HeapStep n S m S m' ∧ SameOn m m' 0 2496 := by
  have user := map.user
  have sum : add64 16 payloadSize = 16 + payloadSize := add64_eq (by omega)
  unfold objectStoreAlloc
  rw [if_neg (by simp only [uint32Max]; omega)]
  simp only [ObjectHeader.sizeof, alignofMax, sum]
  have held := heap
  obtain ⟨V, inv, intact, live⟩ := held
  obtain ⟨a, m₁, served, run⟩ | ⟨_, e, m', run, step⟩ :=
    exec_alloc_first map total enough inv intact live (show 0 < 16 + payloadSize by omega) (by omega)
  · obtain ⟨below, _⟩ := exec_alloc_below map total enough heap (by omega) (by omega) run
    have mem : a ∈ insert a S := Set.mem_insert a S
    have bounds := served.step.heap.footprint.bounds a mem
    have size := served.sized
    unfold heapBase at bounds
    have written : Scribbled n (insert a S) a m₁ (headerStored m₁ a.ptr payloadSize type) :=
      ((((Scribbled.refl served.step.heap a).store mem (o := a.ptr) (k := 4) (v := payloadSize) (by omega)
      (by omega)).store mem (o := a.ptr + 4) (k := 4) (v := type) (by omega) (by omega)).store mem (o := a.ptr + 8)
      (k := 4) (v := 0) (by omega) (by omega)).store mem (o := a.ptr + 12) (k := 4) (v := 0) (by omega) (by omega)
    refine Or.inl ⟨a, m₁, served.fresh, served.aligned, size, ?_, (served.scribbled written).step, ?_⟩
    · rw [exec_bind_of_some run]
      simp (disch := omega) only [ObjectHeader.size, ObjectHeader.type, ObjectHeader.flags, ObjectHeader.reserved,
        store32_field]
      rw [from_raw_eq_some map (by omega) (by omega)]
      rfl
    · intro x low high
      unfold headerStored
      rw [store_outside, store_outside, store_outside, store_outside, below x low (by omega)]
      all_goals omega
  · obtain ⟨below, outOf⟩ := exec_alloc_below map total enough heap (by omega) (by omega) run
    rw [outOf e rfl] at run
    exact Or.inr ⟨m', by rw [exec_bind_of_some run]; rfl, step, below.narrow (by omega) (by omega)⟩

theorem ObjectsHold.allocates (hold : ObjectsHold n m S s.objects) (map : region.Mapped) (total : region.size = n)
    (enough : n ≤ fuel) (type : UInt32) (payloadSize : Nat) : ∃ r m' s' S',
      exec (objectStoreAlloc fuel region type.toNat payloadSize) m = some (r, m') ∧
        s.Allocates type payloadSize (.allocated r) s' ∧ s'.handles = s.handles ∧ ObjectsHold n m' S' s'.objects ∧
        SameOn m m' 0 2496 := by
  by_cases large : payloadSize > uint32Max
  · unfold objectStoreAlloc
    rw [if_pos large]
    exact ⟨_, m, s, S, rfl, .tooLarge (by simp only [uint32Max] at large; omega), rfl, hold, SameOn.refl m _ _⟩
  have small : payloadSize < 2 ^ 32 := by
    simp only [uint32Max] at large
    omega
  obtain ⟨a, m₁, fresh, plain, size, run, step, below⟩ | ⟨m', run, step, below⟩ :=
    exec_objectAlloc_built map total enough hold.heap type.toNat small
  · have mem : a ∈ insert a S := Set.mem_insert a S
    have bounds := step.heap.footprint.bounds a mem
    unfold heapBase at bounds
    have holds : ObjectHolds (headerStored m₁ a.ptr payloadSize type.toNat) a
        ⟨type.toNat, loadBytes m₁ (a.ptr + 16) payloadSize⟩ := by
      have word := type.toNat_lt
      unfold headerStored
      refine ⟨plain, by rw [loadBytes_length, size], by rwa [loadBytes_length], ?_, ?_, ?_, ?_⟩
      · rw [loadBytes_length, load_store_apart (by omega), load_store_apart (by omega), load_store_apart (by omega),
          load_store_four small]
      · rw [load_store_apart (by omega), load_store_apart (by omega), load_store_four word]
      · rw [load_store_apart (by omega), load_store_four (by omega)]
      · rw [loadBytes_length]
        refine loadBytes_congr fun x low high => ?_
        rw [store_outside, store_outside, store_outside, store_outside]
        all_goals omega
    have apart := step.heap.handles_apart mem
    have unused : s.objects a.ptr = none := by
      by_contra here
      obtain ⟨o, found⟩ := Option.ne_none_iff_exists'.mp here
      obtain ⟨c, mc, same, _⟩ := hold.find found
      exact apart c (Set.mem_insert_of_mem a mc) (fun eq => fresh (eq ▸ mc)) same
    refine ⟨_, _, s.put a.ptr (some ⟨type.toNat, loadBytes m₁ (a.ptr + 16) payloadSize⟩), insert a S, run,
      .done small (by omega) unused (loadBytes_length ..), rfl, hold.update step.heap ?_ ?_ ?_ ?_ ?_, below⟩
    · exact fun c other => by simp [other]
    · intro c mc other
      exact step.bytes c ((Set.mem_insert_iff.mp mc).resolve_left other) mc
    · exact fun c mc other => apart c (Set.mem_insert_of_mem a mc) other
    · simp
    · rintro o eq
      cases eq
      exact holds
  · refine ⟨_, m', s, S, run, .noRoom small, rfl, ⟨step.heap, fun c mem => ?_, hold.named⟩, below⟩
    obtain ⟨o, found, holds⟩ := hold.holds c mem
    exact ⟨o, found, holds.congr (step.bytes c mem mem)⟩

theorem ObjectsHold.frees (hold : ObjectsHold n m S s.objects) (map : region.Mapped) (total : region.size = n)
    (enough : n ≤ fuel) (narrow : n < 2 ^ 32) (object : Nat) : ∃ m' S',
      exec (objectStoreFree fuel region object) m = some (s.standing object, m') ∧
        ObjectsHold n m' S' (s.put object none).objects ∧ SameOn m m' 0 2496 := by
  cases here : s.objects object with
  | none =>
    refine ⟨m, S, ?_, by rwa [put_absent here], SameOn.refl m _ _⟩
    unfold objectStoreFree objectStoreGetHeaderMut Contents.standing offsetPtrIsNull
    by_cases null : object = 0
    · simp only [null, decide_true, if_true]
      rfl
    · rw [if_neg (by simpa using null), if_neg null, exec_bind_of_burst
        (hold.resolves map total enough narrow object 0 (fun _ _ => Nat.zero_le _)), here]
      rfl
  | some o =>
    obtain ⟨a, mem, rfl, holds⟩ := hold.find here
    have bounds := hold.heap.footprint.bounds a mem
    have plain := holds.plain
    have width := holds.width
    unfold heapBase at bounds
    obtain ⟨V, inv, intact, live⟩ := hold.heap
    have alive := (live a).mpr mem
    obtain ⟨t, shard, b, mb, kind, block, _⟩ := inv.live_block alive
    have span : a.size ≤ spanOf m a := by
      have low := block.ptr_ge
      have high := block.ptr_le
      unfold spanOf
      rw [block.block, ((inv.shards t shard).repr b mb).size]
      omega
    have freeable : Freeable m a := by
      refine ⟨by rw [ObjectHeader.flags, holds.flags]; rfl, ?_⟩
      simp only [ObjectHeader.size, ObjectHeader.sizeof, Nat.add_zero, holds.size]
      omega
    have standing : s.standing a.ptr = .ok := by
      unfold Contents.standing
      rw [if_neg (by omega), here]
      rfl
    obtain ⟨_, m', run, released, below⟩ | ⟨refused, _⟩ :=
      exec_objectFree_built map total enough hold.heap mem plain (by omega)
    · refine ⟨m', S \ {a}, by rw [run, standing], ?_, below⟩
      refine hold.update released.heap ?_ ?_ (hold.heap.handles_apart mem) (by simp) (by simp)
      · exact fun c other => by simp [other]
      · exact fun c mc _ => released.bytes c mc.1 mc
    · exact absurd freeable refused

/-- Bytes copied into the payload of an object. -/
theorem ObjectsHold.overwrites {objects : Nat → Option StoredObject} (hold : ObjectsHold n m S objects) {object index : Nat}
    {bytes : List UInt8} {o : StoredObject} (here : objects object = some o)
    (fits : index + bytes.length ≤ o.payload.length) :
    ObjectsHold n (storeBytes m (object + 16 + index) bytes) S
      (Function.update objects object (some { o with payload := overwrite o.payload index bytes })) ∧
      2496 ≤ object ∧ object + 16 + o.payload.length ≤ n := by
  obtain ⟨a, mem, rfl, holds⟩ := hold.find here
  have bounds := hold.heap.footprint.bounds a mem
  have width := holds.width
  have foot := hold.heap.footprint
  unfold heapBase at bounds
  refine ⟨hold.update ?_ (fun c _ => Iff.rfl) ?_ (hold.heap.handles_apart mem) (by simp [mem]) ?_, by omega, by omega⟩
  · obtain ⟨V, inv, intact, live⟩ := hold.heap
    refine ⟨V, inv.write_payload ((live a).mpr mem) fun x out => storeBytes_outside (by omega), intact, live⟩
  · intro c mc other
    have apart := foot.disjoint mc mem other
    exact SameOn.storeBytes (by omega)
  · rintro o' eq
    cases eq
    have small := holds.small
    refine ⟨holds.plain, by rw [overwrite_length fits, width], by rwa [overwrite_length fits], ?_, ?_, ?_, ?_⟩
    · rw [load_congr (SameOn.storeBytes (by omega)), holds.size, overwrite_length fits]
    · rw [load_congr (SameOn.storeBytes (by omega)), holds.type]
    · rw [load_congr (SameOn.storeBytes (by omega)), holds.flags]
    · rw [overwrite_length fits, loadBytes_overwrite fits, holds.bytes]

end Changes

/-- A store in memory. -/
structure StoreHolds (n : Nat) (m : Mem) (s : Contents) : Prop where
  names : HeaderHolds n m s.handles
  objects : ∃ S, ObjectsHold n m S s.objects

section Steps
variable {n fuel : Nat} {region : ShmRegion} {m : Mem} {s : Contents}

/-- One call: it answers and leaves what it may in terms of the contents. -/
theorem exec_store_step (map : region.Mapped) (total : region.size = n) (enough : n ≤ fuel) (narrow : n < 2 ^ 32)
    (holds : StoreHolds n m s) (c : StoreCall) : ∃ reply m' s',
      exec (c.code fuel region) m = some (reply, m') ∧ s.Step region.base c reply s' ∧ StoreHolds n m' s' := by
  have user := map.user
  obtain ⟨names, S, hold⟩ := holds
  have reads : ∀ {α : Type} {p : Code α} {f : α → StoreReply} {x : α}, burst m p = ([], ret x) →
      exec (do return f (← p)) m = some (f x, m) := fun value => exec_bind_of_burst value _
  cases c with
  | table c =>
    obtain ⟨m', run, names', _⟩ := exec_call_step map names c
    have frame := exec_table_frame map names c run n
    refine ⟨_, m', _, exec_bind_of_some run _, ⟨rfl, rfl⟩, names', S, hold.heap.congr frame, fun a mem => ?_, hold.named⟩
    obtain ⟨o, found, here⟩ := hold.holds a mem
    have bounds := hold.heap.footprint.bounds a mem
    unfold heapBase at bounds
    exact ⟨o, found, here.congr (frame.narrow (by omega) (by omega))⟩
  | alloc type payloadSize =>
    obtain ⟨r, m', s', S', run, may, same, hold', below⟩ := hold.allocates map total enough type payloadSize
    refine ⟨_, m', s', exec_bind_of_some run _, may, ?_, S', hold'⟩
    rw [same]
    exact names.congr below
  | free object =>
    obtain ⟨m', S', run, hold', below⟩ := hold.frees map total enough narrow object
    exact ⟨_, m', _, exec_bind_of_some run _, ⟨rfl, rfl⟩, names.congr below, S', hold'⟩
  | validate object => exact ⟨_, m, s, reads (hold.validates map total enough narrow object), ⟨rfl, rfl⟩, names, S, hold⟩
  | header object => exact ⟨_, m, s, reads (hold.reads_header map total enough narrow object), ⟨rfl, rfl⟩, names, S, hold⟩
  | payload object => exact ⟨_, m, s, reads (hold.reads_payload map total enough narrow object), ⟨rfl, rfl⟩, names, S, hold⟩
  | write object index bytes =>
    have found := hold.finds map total enough narrow object (index + bytes.length)
    cases reached : s.reaching object (index + bytes.length) with
    | none =>
      rw [reached] at found
      refine ⟨.written false, m, s, ?_, ?_, names, S, hold⟩
      · exact exec_bind_of_some (exec_bind_of_burst found _) _
      · simp only [Contents.Step, reached, and_self]
    | some o =>
      obtain ⟨here, fits⟩ := Option.filter_eq_some_iff.mp reached
      have inside : index + bytes.length ≤ o.payload.length := of_decide_eq_true fits
      obtain ⟨hold', low, high⟩ := hold.overwrites here inside
      rw [reached] at found
      refine ⟨.written true, _, s.put object (some { o with payload := overwrite o.payload index bytes }), ?_, ?_, ?_,
        S, hold'⟩
      · have place : region.base + object + 16 = add64 region.base (object + 16) := by
          rw [add64_eq (by omega)]
          omega
        refine exec_bind_of_some (a := true) ?_ _
        unfold writePayload
        rw [exec_bind_of_burst found]
        simp only [Option.map_some, ObjectHeader.sizeof, place]
        rw [copyIn_field (by omega), exec_bind_of_some (exec_writeBytes _ _ _)]
        rfl
      · simp only [Contents.Step, reached, and_self]
      · refine names.congr (SameOn.storeBytes (by omega))
  | read object index length =>
    have found := hold.finds map total enough narrow object (index + length)
    refine ⟨_, m, s, exec_bind_of_burst (a := (s.reaching object (index + length)).map fun o =>
      (o.payload.drop index).take length) ?_ _, ⟨rfl, rfl⟩, names, S, hold⟩
    unfold readPayload
    rw [burst_bind_of_ret found]
    cases reached : s.reaching object (index + length) with
    | none => rfl
    | some o =>
      obtain ⟨here, fits⟩ := Option.filter_eq_some_iff.mp reached
      obtain ⟨a, mem, rfl, stored⟩ := hold.find here
      have bounds := hold.heap.footprint.bounds a mem
      have width := stored.width
      have inside : index + length ≤ o.payload.length := of_decide_eq_true fits
      have place : region.base + a.ptr + 16 = add64 region.base (a.ptr + 16) := by
        rw [add64_eq (by omega)]
        omega
      simp only [Option.map_some, ObjectHeader.sizeof, place]
      rw [copyOut_field (by omega), burst_bind_of_ret (burst_readBytes _ _ _), loadBytes_slice inside, stored.bytes]
      rfl

theorem exec_store_run {regions : Nat → ShmRegion} (mapped : ∀ p, (regions p).Mapped) (sizes : ∀ p, (regions p).size = n)
    (enough : n ≤ fuel) (narrow : n < 2 ^ 32) (calls : List (Nat × StoreCall)) (holds : StoreHolds n m s) :
    ∃ replies m' s', execStore fuel regions calls m = some (replies, m') ∧ Contents.Run regions s calls replies s' ∧
      StoreHolds n m' s' := by
  induction calls generalizing m s with
  | nil => exact ⟨[], m, s, rfl, .nil, holds⟩
  | cons call calls ih =>
    obtain ⟨p, c⟩ := call
    obtain ⟨reply, m₁, s₁, run, may, holds₁⟩ := exec_store_step (mapped p) (sizes p) enough narrow holds c
    obtain ⟨replies, m₂, s₂, runs, follows, holds₂⟩ := ih holds₁
    refine ⟨reply :: replies, m₂, s₂, ?_, .cons may follows, holds₂⟩
    simp only [execStore, run, Option.bind_some, runs, Option.map_some]

end Steps

/-- What a reader of the region may rely on between two calls. -/
structure StoreSound (n : Nat) (m : Mem) (s : Contents) : Prop where
  tables : TablesSound n m s.handles
  attachable : Attachable n m ↔ n % 4 = 0
  inside : ∀ object o, s.objects object = some o →
    2776 ≤ object ∧ 16 ∣ object ∧ object + ObjectHeader.sizeof + o.payload.length ≤ n
  apart : ∀ object o object' o', s.objects object = some o → s.objects object' = some o' → object ≠ object' →
    object + ObjectHeader.sizeof + o.payload.length ≤ object' ∨ object' + ObjectHeader.sizeof + o'.payload.length ≤ object
  bytes : ∀ object o, s.objects object = some o →
    load m (object + ObjectHeader.type) 4 = o.type ∧ loadBytes m (object + ObjectHeader.sizeof) o.payload.length = o.payload

theorem StoreHolds.sound {n : Nat} {m : Mem} {s : Contents} {region : ShmRegion} (holds : StoreHolds n m s)
    (map : region.Mapped) (total : region.size = n) : StoreSound n m s := by
  obtain ⟨names, S, hold⟩ := holds
  have foot := hold.heap.footprint
  refine ⟨names.sound, ?_, fun object o here => ?_, fun object o object' o' here there other => ?_, fun object o here => ?_⟩
  · obtain ⟨V, inv, _, _⟩ := hold.heap
    exact attachable_iff inv names.header map total
  · obtain ⟨a, mem, rfl, stored⟩ := hold.find here
    have bounds := foot.bounds a mem
    have width := stored.width
    unfold heapBase at bounds
    simp only [ObjectHeader.sizeof]
    exact ⟨by omega, foot.aligned a mem, by omega⟩
  · obtain ⟨a, mem, rfl, stored⟩ := hold.find here
    obtain ⟨c, mc, rfl, stored'⟩ := hold.find there
    have apart := foot.disjoint mem mc fun same => other (by rw [same])
    have width := stored.width
    have width' := stored'.width
    simp only [ObjectHeader.sizeof]
    omega
  · obtain ⟨a, mem, rfl, stored⟩ := hold.find here
    exact ⟨stored.type, stored.bytes⟩

/-- A new store holds nothing. -/
theorem Bootstrapped.holds {n : Nat} {region : ShmRegion} {m : Mem} (store : Bootstrapped n region m)
    (clear : TablesClear m) : StoreHolds n m Contents.empty := by
  refine ⟨header_empty store.attached.header clear, ∅, ⟨freshView n, store.heap, fresh_intact n, fun a => ?_⟩, ?_, ?_⟩
  · simp [fresh_not_live]
  · rintro a mem
    cases mem
  · rintro object o found
    cases found

/-- The allocator leaves the tables of a new region empty. -/
theorem boot_tables {S : Type} {n : Nat} {before m : Mem} {handle : Sys → S → Int × S} {env env' : S} {creator : ShmRegion}
    (maps : ∀ c s, mapAnswers c (handle c s).1)
    (boot : run handle (offsetStoreBootstrap n) before env = some ((.ok, creator), m, env')) : TablesClear m := by
  unfold offsetStoreBootstrap at boot
  rw [run_bind] at boot
  obtain ⟨⟨⟨status, region⟩, m₁, env₁⟩, created, rest⟩ := Option.bind_eq_some_iff.mp boot
  simp only at rest
  by_cases failed : status = .ok
  swap
  · rw [if_pos failed] at rest
    cases rest
    exact absurd rfl failed
  subst failed
  obtain ⟨attached, clear⟩ := ends_run (ends_create n before) maps created rfl
  rw [if_neg (by simp), run_bind] at rest
  obtain ⟨⟨status, m₂, env₂⟩, initialised, rest⟩ := Option.bind_eq_some_iff.mp rest
  simp only at rest
  by_cases failed : status = .ok
  swap
  · rw [if_pos failed, run_bind] at rest
    obtain ⟨_, _, rest⟩ := Option.bind_eq_some_iff.mp rest
    rw [run_bind] at rest
    obtain ⟨_, _, rest⟩ := Option.bind_eq_some_iff.mp rest
    cases rest
    exact absurd rfl failed
  subst failed
  have built := run_allocatorInit attached.mapped attached.total initialised
  cases rest
  exact clear.congr (built.below.narrow (by omega) (by omega))

/-- Whatever calls any processes make on a new store of less than 4 GiB, one after another: the answers are
    those of a store of objects and names, which is what the memory holds afterwards. -/
theorem store_refines_contents {S : Type} {n fuel : Nat} {regions : Nat → ShmRegion} {before m : Mem}
    {handle : Sys → S → Int × S} {env env' : S} {creator : ShmRegion} (maps : ∀ c s, mapAnswers c (handle c s).1)
    (mapped : ∀ p, (regions p).Mapped) (sizes : ∀ p, (regions p).size = n) (narrow : n < 2 ^ 32) (enough : n ≤ fuel)
    (boot : run handle (offsetStoreBootstrap n) before env = some ((.ok, creator), m, env'))
    (calls : List (Nat × StoreCall)) :
    ∃ replies m' s, execStore fuel regions calls m = some (replies, m') ∧
      Contents.Run regions Contents.empty calls replies s ∧ StoreSound n m' s := by
  have store := ends_run (ends_bootstrap n before) maps boot rfl
  have holds := store.holds (boot_tables maps boot)
  obtain ⟨replies, m', s, runs, follows, after⟩ := exec_store_run mapped sizes enough narrow calls holds
  exact ⟨replies, m', s, runs, follows, after.sound (mapped 0) (sizes 0)⟩

/-- Three processes: an object is allocated, written, named, found by its name, read, released, and released again. -/
def smallCalls : List (Nat × StoreCall) :=
  [(0, .alloc 1 6), (0, .write 2784 2 [1, 2, 3]), (1, .table (.setRoot nameA 2784)), (2, .table (.getRoot nameA)),
    (2, .read 2784 3 2), (2, .free 2784), (0, .free 2784)]

theorem store_refines_contents_small : ∃ creator m m' s, boot 4096 = some ((.ok, creator), m, ()) ∧
    execStore 4096 (fun _ => smallRegion) smallCalls m = some ([.allocated (.ok 2784), .written true,
      .table (statusReply .ok), .table (objectReply (.ok, some 2784)), .bytes (some [2, 3]), .status .ok,
      .status .notFound], m') ∧ StoreSound 4096 m' s := by
  obtain ⟨creator, m, m₁, _, booted, _, allocated, _⟩ := boot_small_returns
  obtain ⟨replies, m', s, served, follows, sound⟩ := store_refines_contents (fun c _ => creates_maps c)
    (fun _ => smallRegion_mapped) (fun _ => rfl) (by decide) (Nat.le_refl 4096) booted smallCalls
  have first : exec ((StoreCall.alloc 1 6).code 4096 smallRegion) m = some (.allocated (.ok 2784), m₁) :=
    exec_bind_of_some allocated _
  refine ⟨creator, m, m', s, booted, ?_, sound⟩
  rw [served]
  unfold smallCalls at served follows
  unfold execStore at served
  rw [first, Option.bind_some] at served
  obtain ⟨⟨later, _⟩, _, same⟩ := Option.map_eq_some_iff.mp served
  obtain ⟨rfl, _⟩ := Prod.mk.inj same
  obtain _ | ⟨made, follows⟩ := follows
  obtain _ | _ | ⟨_, _, _, length⟩ := made
  rename_i payload _ _ _
  have reached : (Contents.empty.put 2784 (some ⟨UInt32.toNat 1, payload⟩)).reaching 2784 5 =
      some ⟨UInt32.toNat 1, payload⟩ := by
    simp [Contents.reaching, Contents.put, length]
  obtain _ | ⟨written, follows⟩ := follows
  simp only [Contents.Step, List.length_cons, List.length_nil, Nat.reduceAdd, reached] at written
  obtain ⟨rfl, rfl⟩ := written
  obtain _ | ⟨⟨rfl, rfl⟩, follows⟩ := follows
  obtain _ | ⟨⟨rfl, rfl⟩, follows⟩ := follows
  obtain _ | ⟨⟨rfl, rfl⟩, follows⟩ := follows
  obtain _ | ⟨⟨rfl, rfl⟩, follows⟩ := follows
  obtain _ | ⟨⟨rfl, rfl⟩, ⟨⟩⟩ := follows
  have valid : ValidName nameA := by decide
  have put : putHandle 16 Handles.empty.roots nameA 2784 =
      (.ok, Function.update (fun _ => none) nameA (some 2784)) :=
    putHandle_empty valid (by decide) (by decide)
  have got : getHandle (Function.update (fun _ => none) nameA (some 2784)) nameA = (.ok, some 2784) := by
    simp [getHandle, valid]
  have kept : (overwrite payload 2 [1, 2, 3]).drop 3 = [2, 3] ++ payload.drop 5 := by
    simp [overwrite, List.drop_append, length]
  have whole : (overwrite payload 2 [1, 2, 3]).length = 6 := by simp [overwrite, length]
  simp [Contents.put, Contents.empty, Handles.step, Contents.standing, Contents.reaching, put, got, kept, whole]

end OffsetStore
