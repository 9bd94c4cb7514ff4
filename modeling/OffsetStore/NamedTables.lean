import OffsetStore.Publication
import OffsetStore.StoreLife
import OffsetStore.Lib.SlotTable

/- The roots and the index as two finite maps from names to handles, and the calls on
   them as operations on these maps. -/
namespace OffsetStore
open ByteMemory Program Prog Words SlotTable

theorem CString.ext {a b : CString} (same : a.bytes = b.bytes) : a = b := by
  cases a
  cases b
  cases same
  rfl

instance : DecidableEq CString := fun a b =>
  decidable_of_iff (a.bytes = b.bytes) ⟨CString.ext, fun same => same ▸ rfl⟩

abbrev HandleMap := CString → Option Nat

/-- Names have 1 to 31 bytes. -/
def ValidName (name : CString) : Prop := 0 < name.bytes.length ∧ name.bytes.length < TableEntry.nameLength

instance (name : CString) : Decidable (ValidName name) := inferInstanceAs (Decidable (_ ∧ _))

theorem isNameValid_iff (name : CString) : isNameValid name = true ↔ ValidName name := by
  constructor
  · exact name_length
  · rintro ⟨left, right⟩
    simp only [TableEntry.nameLength] at right
    have some : min name.bytes.length 32 ≠ 0 := by omega
    have short : ¬min name.bytes.length 32 ≥ 32 := by omega
    have unfolded : isNameValid name =
        !(decide (min name.bytes.length 32 = 0) || decide (min name.bytes.length 32 ≥ 32)) := rfl
    rw [unfolded, decide_eq_false some, decide_eq_false short]
    rfl

/-- The operations of a bounded map. -/
noncomputable def putHandle (capacity : Nat) (map : HandleMap) (name : CString) (object : Nat) :
    OffsetStoreStatus × HandleMap :=
  open Classical in
  if ¬ValidName name ∨ object = 0 then (.invalidArgument, map)
  else if map name = none ∧ (keys map).ncard = capacity then (.outOfMemory, map)
  else (.ok, Function.update map name (some object))

theorem putHandle_empty {capacity object : Nat} {name : CString} (valid : ValidName name) (room : 0 < capacity)
    (positive : object ≠ 0) : putHandle capacity (fun _ => none) name object =
      (.ok, Function.update (fun _ => none) name (some object)) := by
  have none : keys (fun _ : CString => (none : Option Nat)) = ∅ := by simp [keys]
  unfold putHandle
  rw [if_neg (by simp [valid, positive]), if_neg]
  rw [none, Set.ncard_empty]
  omega

def removeHandle (map : HandleMap) (name : CString) : OffsetStoreStatus × HandleMap :=
  if ¬ValidName name then (.invalidArgument, map)
  else if map name = none then (.notFound, map)
  else (.ok, Function.update map name none)

def getHandle (map : HandleMap) (name : CString) : OffsetStoreStatus × Option Nat :=
  if ¬ValidName name then (.invalidArgument, none)
  else if map name = none then (.notFound, none)
  else (.ok, map name)

def containsHandle (map : HandleMap) (name : CString) : OffsetStoreStatus × Option Bool :=
  if ¬ValidName name then (.invalidArgument, none)
  else (.ok, some (map name).isSome)

/-- The name stored at an offset: its bytes and a terminating zero. -/
def NameAt (m : Mem) (off : Nat) (bytes : List UInt8) : Prop :=
  loadBytes m off bytes.length = bytes ∧ m (off + bytes.length) = 0

/-- A free entry, or an entry in use with its name and handle. -/
def EntryHolds (m : Mem) (off : Nat) : Option (CString × Nat) → Prop
  | none => m off = 0
  | some (name, object) => m off ≠ 0 ∧ NameAt m (off + TableEntry.name) name.bytes ∧
      load m (off + TableEntry.object) 8 = object ∧ ValidName name ∧ object ≠ 0

/-- The table in memory, entry by entry, and the map it stands for. -/
structure TableHolds (table : EntryTable) (m : Mem) (slots : Slots CString Nat) (map : HandleMap) : Prop where
  entries : ∀ i, i < table.capacity → EntryHolds m (entryOffset table i) (slots i)
  represents : Represents table.capacity slots map

section Entries
variable {m m' : Mem} {off : Nat} {slot : Option (CString × Nat)} {table : EntryTable}
  {slots : Slots CString Nat} {map : HandleMap}

theorem EntryHolds.congr (holds : EntryHolds m off slot) (same : SameOn m m' off (off + 48)) :
    EntryHolds m' off slot := by
  cases slot with
  | none =>
    unfold EntryHolds at holds ⊢
    rw [same off (by omega) (by omega)]
    exact holds
  | some entry =>
    obtain ⟨name, object⟩ := entry
    obtain ⟨used, ⟨bytes, zero⟩, handle, valid, positive⟩ := holds
    have short := valid.2
    simp only [TableEntry.nameLength, TableEntry.name, TableEntry.object] at short bytes zero handle
    refine ⟨?_, ⟨?_, ?_⟩, ?_, valid, positive⟩
    · rw [same off (by omega) (by omega)]
      exact used
    · simp only [TableEntry.name]
      rw [loadBytes_congr (same.narrow (by omega) (by omega)), bytes]
    · simp only [TableEntry.name]
      rw [same _ (by omega) (by omega)]
      exact zero
    · simp only [TableEntry.object]
      rw [load_congr (same.narrow (by omega) (by omega)), handle]

theorem TableHolds.congr (holds : TableHolds table m slots map)
    (same : SameOn m m' table.offset (table.offset + 48 * table.capacity)) :
    TableHolds table m' slots map := by
  refine ⟨fun i inside => (holds.entries i inside).congr ?_, holds.represents⟩
  obtain ⟨above, bound⟩ := entry_inside inside
  exact same.narrow above bound

/-- One entry changes. -/
theorem TableHolds.update (holds : TableHolds table m slots map) {i : Nat}
    (frame : SameOff m m' (entryOffset table i) (entryOffset table i + 48))
    (here : EntryHolds m' (entryOffset table i) slot) {map' : HandleMap}
    (represents : Represents table.capacity (Function.update slots i slot) map') :
    TableHolds table m' (Function.update slots i slot) map' := by
  refine ⟨fun j inside => ?_, represents⟩
  by_cases same : j = i
  · rw [same, Function.update_self]
    exact here
  · rw [Function.update_of_ne same]
    refine (holds.entries j inside).congr (frame.on ?_)
    unfold entryOffset
    omega

theorem nameAt_cons {b : UInt8} {bytes : List UInt8} (name : NameAt m off (b :: bytes)) :
    m off = b ∧ NameAt m (off + 1) bytes := by
  obtain ⟨same, zero⟩ := name
  rw [List.length_cons, loadBytes, List.cons.injEq] at same
  refine ⟨same.1, same.2, ?_⟩
  rw [List.length_cons] at zero
  rwa [show off + 1 + bytes.length = off + (bytes.length + 1) by omega]

/-- strcmp with a stored name decides equality. -/
theorem burst_nameEquals {region : ShmRegion} {index : Nat} {stored searched : List UInt8}
    (small : off + 8 + index + searched.length < 2 ^ 63)
    (name : NameAt m (off + TableEntry.name + index) stored) (left : 0 ∉ stored) (right : 0 ∉ searched) :
    burst m (entryNameEquals region (add64 region.base off) index searched) =
      ([], ret (decide (stored = searched))) := by
  simp only [TableEntry.name] at name
  induction searched generalizing index stored with
  | nil =>
    unfold entryNameEquals
    rw [load8_field (by simp only [TableEntry.name]; simp only [List.length_nil] at small; omega)]
    simp only [loadWord_bind, burst_read, TableEntry.name, ← Nat.add_assoc]
    cases stored with
    | nil =>
      have zero : m (off + 8 + index) = 0 := name.2
      simp [load, zero]
    | cons b bytes =>
      obtain ⟨first, _⟩ := nameAt_cons name
      have other : b ≠ 0 := fun same => left (by simp [same])
      have byte : (m (off + 8 + index)).toNat ≠ 0 := by
        rw [first]
        exact fun zero => other (UInt8.toNat_inj.mp zero)
      simp [load, byte]
  | cons c cs ih =>
    simp only [List.length_cons] at small
    unfold entryNameEquals
    rw [load8_field (by simp only [TableEntry.name]; omega)]
    simp only [loadWord_bind, burst_read, TableEntry.name, ← Nat.add_assoc]
    have byte : load m (off + 8 + index) 1 = (m (off + 8 + index)).toNat := by simp [load]
    rw [byte]
    cases stored with
    | nil =>
      have zero : m (off + 8 + index) = 0 := name.2
      have other : (0 : UInt8).toNat ≠ c.toNat := by
        intro same
        exact right (by simp [UInt8.toNat_inj.mp same])
      rw [zero, if_pos other]
      simp
    | cons b bytes =>
      obtain ⟨first, rest⟩ := nameAt_cons name
      rw [first]
      by_cases same : b = c
      · rw [if_neg (by simp [same])]
        have step : burst m (entryNameEquals region (add64 region.base off) (index + 1) cs) =
            ([], ret (decide (bytes = cs))) :=
          ih (by omega) (by rwa [← Nat.add_assoc]) (fun mem => left (by simp [mem])) fun mem => right (by simp [mem])
        rw [step, same]
        simp
      · have other : b.toNat ≠ c.toNat := fun eq => same (UInt8.toNat_inj.mp eq)
        rw [if_pos other]
        simp [same]

end Entries

section Search
variable {m : Mem} {table : EntryTable} {slots : Slots CString Nat} {map : HandleMap}

/-- The address of an entry. -/
def entryAddress (table : EntryTable) (region : ShmRegion) (i : Nat) : Nat :=
  add64 region.base (entryOffset table i)

/-- A search finds the slot of its name, if one of the entries still to be seen has it. -/
inductive Found (table : EntryTable) (region : ShmRegion) (slots : Slots CString Nat) (name : CString) (first : Nat) :
    Option Nat → Prop where
  | nowhere (absent : ∀ i v, first ≤ i → i < table.capacity → slots i ≠ some (name, v)) :
      Found table region slots name first none
  | here {i v : Nat} (inside : i < table.capacity) (slot : slots i = some (name, v)) :
      Found table region slots name first (some (entryAddress table region i))

theorem burst_findEntry (region : ShmRegion) (small : table.offset + 48 * table.capacity < 2 ^ 62) (holds : TableHolds table m slots map)
    {name : CString} (valid : ValidName name) {left : Nat} (few : left ≤ table.capacity) :
    ∃ found, burst m (findEntry table region region.base name left) = ([], ret found) ∧
      Found table region slots name (table.capacity - left) found := by
  have short := valid.2
  simp only [TableEntry.nameLength] at short
  induction left with
  | zero =>
    exact ⟨none, rfl, .nowhere fun i v low high => by omega⟩
  | succ left ih =>
    obtain ⟨found, value, rest⟩ := ih (by omega)
    have inside : table.capacity - (left + 1) < table.capacity := by omega
    obtain ⟨_, bound⟩ := entry_inside inside
    have entry : tableEntry table region.base (table.capacity - (left + 1)) =
        add64 region.base (entryOffset table (table.capacity - (left + 1))) := rfl
    have held := holds.entries _ inside
    have later : ∀ {i}, table.capacity - (left + 1) ≤ i → i ≠ table.capacity - (left + 1) →
        table.capacity - left ≤ i := by omega
    -- the entries after this one, when it is not the one searched for
    have skip : (∀ v, slots (table.capacity - (left + 1)) ≠ some (name, v)) →
        Found table region slots name (table.capacity - (left + 1)) found := by
      intro other
      cases rest with
      | nowhere absent =>
        refine .nowhere fun i v low high => ?_
        by_cases same : i = table.capacity - (left + 1)
        · rw [same]
          exact other v
        · exact absent i v (later low same) high
      | here inside slot => exact .here inside slot
    unfold findEntry
    simp only [entry]
    rw [load8_field (by simp only [TableEntry.inUse]; omega)]
    simp only [loadWord_bind, burst_read, TableEntry.inUse, Nat.add_zero]
    have byte : load m (entryOffset table (table.capacity - (left + 1))) 1 =
        (m (entryOffset table (table.capacity - (left + 1)))).toNat := by simp [load]
    rw [byte]
    cases slot : slots (table.capacity - (left + 1)) with
    | none =>
      rw [slot] at held
      have free : m (entryOffset table (table.capacity - (left + 1))) = 0 := held
      rw [free, if_neg (by simp)]
      exact ⟨found, value, skip fun v same => by rw [slot] at same; cases same⟩
    | some entry =>
      obtain ⟨stored, object⟩ := entry
      rw [slot] at held
      obtain ⟨used, at', _, _, _⟩ := held
      have nonzero : (m (entryOffset table (table.capacity - (left + 1)))).toNat ≠ 0 :=
        fun zero => used (UInt8.toNat_inj.mp zero)
      have equals : burst m (entryNameEquals region (add64 region.base
          (entryOffset table (table.capacity - (left + 1)))) 0 name.bytes) =
          ([], ret (decide (stored.bytes = name.bytes))) :=
        burst_nameEquals (by omega) at' stored.no_nul name.no_nul
      rw [if_pos nonzero, burst_bind_of_ret equals]
      by_cases same : stored = name
      · rw [same, decide_eq_true rfl, if_pos rfl]
        exact ⟨_, rfl, .here inside (same ▸ slot)⟩
      · have other : stored.bytes ≠ name.bytes := fun eq => same (CString.ext eq)
        rw [decide_eq_false other, if_neg (by simp)]
        refine ⟨found, value, skip fun v eq => ?_⟩
        rw [slot] at eq
        exact same (Prod.mk.inj (Option.some.inj eq)).1

/-- The first free slot, if there is one. -/
inductive FoundFree (table : EntryTable) (region : ShmRegion) (slots : Slots CString Nat) (first : Nat) :
    Option Nat → Prop where
  | full (used : ∀ i, first ≤ i → i < table.capacity → slots i ≠ none) : FoundFree table region slots first none
  | here {i : Nat} (inside : i < table.capacity) (slot : slots i = none) :
      FoundFree table region slots first (some (entryAddress table region i))

theorem burst_findFreeEntry (region : ShmRegion) (small : table.offset + 48 * table.capacity < 2 ^ 62)
    (holds : TableHolds table m slots map) {left : Nat} (few : left ≤ table.capacity) :
    ∃ found, burst m (findFreeEntry table region region.base left) = ([], ret found) ∧
      FoundFree table region slots (table.capacity - left) found := by
  induction left with
  | zero => exact ⟨none, rfl, .full fun i low high => by omega⟩
  | succ left ih =>
    obtain ⟨found, value, rest⟩ := ih (by omega)
    have inside : table.capacity - (left + 1) < table.capacity := by omega
    obtain ⟨_, bound⟩ := entry_inside inside
    have entry : tableEntry table region.base (table.capacity - (left + 1)) =
        add64 region.base (entryOffset table (table.capacity - (left + 1))) := rfl
    have held := holds.entries _ inside
    unfold findFreeEntry
    simp only [entry]
    rw [load8_field (by simp only [TableEntry.inUse]; omega)]
    simp only [loadWord_bind, burst_read, TableEntry.inUse, Nat.add_zero]
    have byte : load m (entryOffset table (table.capacity - (left + 1))) 1 =
        (m (entryOffset table (table.capacity - (left + 1)))).toNat := by simp [load]
    rw [byte]
    cases slot : slots (table.capacity - (left + 1)) with
    | none =>
      rw [slot] at held
      have free : m (entryOffset table (table.capacity - (left + 1))) = 0 := held
      rw [free, if_pos (by simp)]
      exact ⟨_, rfl, .here inside slot⟩
    | some entry =>
      obtain ⟨stored, object⟩ := entry
      rw [slot] at held
      have nonzero : (m (entryOffset table (table.capacity - (left + 1)))).toNat ≠ 0 :=
        fun zero => held.1 (UInt8.toNat_inj.mp zero)
      rw [if_neg nonzero]
      refine ⟨found, value, ?_⟩
      cases rest with
      | full used =>
        refine .full fun i low high => ?_
        by_cases same : i = table.capacity - (left + 1)
        · rw [same, slot]
          simp
        · exact used i (by omega) high
      | here inside slot => exact .here inside slot

end Search

section Updates
variable {m m' : Mem} {region : ShmRegion} {table : EntryTable} {slots : Slots CString Nat} {map : HandleMap}

/-- The memory after the stores of a put into one entry. -/
def putStored (m : Mem) (off : Nat) (name : CString) (object : Nat) : Mem :=
  store (storeBytes (storeBytes (storeBytes (store m off 1 1) (off + 1) (List.replicate 7 0)) (off + 8)
    (List.replicate 32 0)) (off + 8) name.bytes) (off + 40) 8 object

theorem putStored_off (m : Mem) (off : Nat) {name : CString} (short : name.bytes.length < 32) (object : Nat) :
    SameOff m (putStored m off name object) off (off + 48) := by
  intro a out
  unfold putStored
  rw [store_outside (by omega), storeBytes_outside (by omega), storeBytes_outside (by simp; omega),
    storeBytes_outside (by simp; omega), store_outside (by omega)]

theorem putStored_holds (m : Mem) (off : Nat) {name : CString} (valid : ValidName name) {object : Nat}
    (word : object < 2 ^ 64) (positive : object ≠ 0) :
    EntryHolds (putStored m off name object) off (some (name, object)) := by
  have short := valid.2
  simp only [TableEntry.nameLength] at short
  unfold putStored
  refine ⟨?_, ⟨?_, ?_⟩, load_store_eight word, valid, positive⟩
  · rw [store_outside (by omega), storeBytes_outside (by omega), storeBytes_outside (by simp),
      storeBytes_outside (by simp)]
    simp [store]
  · rw [loadBytes_congr (SameOn.store (by simp only [TableEntry.name]; omega))]
    exact loadBytes_storeBytes _ _ _
  · simp only [TableEntry.name]
    have inside : storeBytes (storeBytes (store m off 1 1) (off + 1) (List.replicate 7 0)) (off + 8)
        (List.replicate 32 0) (off + 8 + name.bytes.length) = _ :=
      storeBytes_inside (by rw [List.length_replicate]; exact short)
    rw [store_outside (by omega), storeBytes_outside (by omega), inside, List.getElem_replicate]

/-- The memory after the stores of a removal from one entry. -/
def removeStored (m : Mem) (off : Nat) : Mem :=
  store (storeBytes (storeBytes (store m off 1 0) (off + 1) (List.replicate 7 0)) (off + 8)
    (List.replicate 32 0)) (off + 40) 8 0

theorem removeStored_off (m : Mem) (off : Nat) : SameOff m (removeStored m off) off (off + 48) := by
  intro a out
  unfold removeStored
  rw [store_outside (by omega), storeBytes_outside (by simp; omega), storeBytes_outside (by simp; omega),
    store_outside (by omega)]

theorem removeStored_holds (m : Mem) (off : Nat) : EntryHolds (removeStored m off) off none := by
  unfold EntryHolds removeStored
  rw [store_outside (by omega), storeBytes_outside (by simp), storeBytes_outside (by simp)]
  simp [store]

theorem exec_putStores (region : ShmRegion) (m : Mem) {off : Nat} (small : off + 48 < 2 ^ 63) (name : CString)
    (object : Nat) :
    exec (do
      region.store8 (add64 region.base off) TableEntry.inUse 1
      clearEntryText region (add64 region.base off)
      region.copyIn (add64 region.base off) TableEntry.name name.bytes
      region.store64 (add64 region.base off) TableEntry.object object
      return (.ok () : Except OffsetStoreStatus Unit)) m = some (.ok (), putStored m off name object) := by
  unfold clearEntryText
  simp (disch := simp; omega) only [store8_field, store64_field, copyIn_field]
  simp only [storeWord_bind, exec_write, bind_assoc]
  rw [exec_bind_of_some (exec_writeBytes _ _ _), exec_bind_of_some (exec_writeBytes _ _ _),
    exec_bind_of_some (exec_writeBytes _ _ _)]
  rfl

theorem exec_removeStores (region : ShmRegion) (m : Mem) {off : Nat} (small : off + 48 < 2 ^ 63) :
    exec (do
      region.store8 (add64 region.base off) TableEntry.inUse 0
      clearEntryText region (add64 region.base off)
      region.store64 (add64 region.base off) TableEntry.object offsetPtrNull
      return (.ok () : Except OffsetStoreStatus Unit)) m = some (.ok (), removeStored m off) := by
  unfold clearEntryText
  simp (disch := simp; omega) only [store8_field, store64_field, copyIn_field]
  simp only [storeWord_bind, exec_write, bind_assoc]
  rw [exec_bind_of_some (exec_writeBytes _ _ _), exec_bind_of_some (exec_writeBytes _ _ _)]
  rfl

/-- What an entry update of a table comes to: an error that stores nothing, or the changed table. -/
inductive UpdateResult (table : EntryTable) (m : Mem) (slots : Slots CString Nat) (map map' : HandleMap)
    (status : OffsetStoreStatus) : Except OffsetStoreStatus Unit × Mem → Prop where
  | failed (failure : status ≠ .ok) (same : map' = map) :
      UpdateResult table m slots map map' status (.error status, m)
  | stored {m' : Mem} {slots' : Slots CString Nat} (success : status = .ok)
      (frame : SameOff m m' table.offset (table.offset + 48 * table.capacity))
      (holds : TableHolds table m' slots' map') :
      UpdateResult table m slots map map' status (.ok (), m')

theorem exec_putEntry (small : table.offset + 48 * table.capacity < 2 ^ 62) (holds : TableHolds table m slots map)
    {name : CString} (valid : ValidName name) {object : Nat} (word : object < 2 ^ 64) (positive : object ≠ 0) :
    ∃ r, exec (putEntry table region region.base name object) m = some r ∧
      UpdateResult table m slots map (putHandle table.capacity map name object).2
        (putHandle table.capacity map name object).1 r := by
  have short := valid.2
  simp only [TableEntry.nameLength] at short
  -- the entry i takes the name
  have writes : ∀ i, i < table.capacity → ((∃ w, slots i = some (name, w)) ∨ (slots i = none ∧ map name = none)) →
      putHandle table.capacity map name object = (.ok, Function.update map name (some object)) →
      ∃ r, exec (do
        region.store8 (entryAddress table region i) TableEntry.inUse 1
        clearEntryText region (entryAddress table region i)
        region.copyIn (entryAddress table region i) TableEntry.name name.bytes
        region.store64 (entryAddress table region i) TableEntry.object object
        return (.ok () : Except OffsetStoreStatus Unit)) m = some r ∧
        UpdateResult table m slots map (putHandle table.capacity map name object).2
          (putHandle table.capacity map name object).1 r := by
    intro i inside own result
    obtain ⟨above, bound⟩ := entry_inside inside
    have frame := putStored_off m (entryOffset table i) short object
    refine ⟨_, exec_putStores region m (by omega) name object, ?_⟩
    rw [result]
    refine .stored rfl (fun a out => frame a (by omega)) (holds.update frame ?_ (holds.represents.put inside own))
    exact putStored_holds m _ valid word positive
  obtain ⟨found, value, search⟩ := burst_findEntry region small holds valid (Nat.le_refl _)
  unfold putEntry
  rw [exec_bind_of_burst value]
  cases search with
  | here inside slot =>
    rename_i i v
    have present : map name ≠ none := by
      rw [holds.represents.sound i name v inside slot]
      simp
    refine writes i inside (Or.inl ⟨v, slot⟩) ?_
    simp [putHandle, valid, positive, present]
  | nowhere absent =>
    have missing : map name = none := holds.represents.absent fun i v inside => absent i v (by omega) inside
    obtain ⟨slot, value, search⟩ := burst_findFreeEntry region small holds (Nat.le_refl _)
    simp only
    rw [exec_bind_of_burst value]
    cases search with
    | here inside slot =>
      rename_i i
      have room : (keys map).ncard ≠ table.capacity := fun card =>
        (holds.represents.full_iff.mpr card) i inside slot
      refine writes i inside (Or.inr ⟨slot, missing⟩) ?_
      simp [putHandle, valid, positive, room]
    | full used =>
      have card : (keys map).ncard = table.capacity :=
        holds.represents.full_iff.mp fun i inside => used i (by omega) inside
      refine ⟨_, rfl, ?_⟩
      have result : putHandle table.capacity map name object = (.outOfMemory, map) := by
        simp [putHandle, valid, positive, missing, card]
      rw [result]
      exact .failed (by simp) rfl

theorem exec_removeEntry (small : table.offset + 48 * table.capacity < 2 ^ 62) (holds : TableHolds table m slots map)
    {name : CString} (valid : ValidName name) :
    ∃ r, exec (removeEntry table region region.base name) m = some r ∧
      UpdateResult table m slots map (removeHandle map name).2 (removeHandle map name).1 r := by
  obtain ⟨found, value, search⟩ := burst_findEntry region small holds valid (Nat.le_refl _)
  unfold removeEntry
  rw [exec_bind_of_burst value]
  cases search with
  | here inside slot =>
    rename_i i v
    obtain ⟨above, bound⟩ := entry_inside inside
    have frame := removeStored_off m (entryOffset table i)
    have present : map name ≠ none := by
      rw [holds.represents.sound i name v inside slot]
      simp
    have result : removeHandle map name = (.ok, Function.update map name none) := by
      simp [removeHandle, valid, present]
    refine ⟨_, exec_removeStores region m (by omega), ?_⟩
    rw [result]
    refine .stored rfl (fun a out => frame a (by omega)) (holds.update frame ?_ (holds.represents.remove inside slot))
    exact removeStored_holds m _
  | nowhere absent =>
    have missing : map name = none := holds.represents.absent fun i v inside => absent i v (by omega) inside
    have result : removeHandle map name = (.notFound, map) := by simp [removeHandle, valid, missing]
    refine ⟨_, rfl, ?_⟩
    rw [result]
    exact .failed (by simp) rfl

end Updates

/-- The two maps of a region. -/
structure Handles where
  roots : HandleMap
  index : HandleMap

def Handles.empty : Handles := ⟨fun _ => none, fun _ => none⟩

inductive TableCall where
  | setRoot (name : CString) (object : UInt64)
  | getRoot (name : CString)
  | removeRoot (name : CString)
  | indexPut (key : CString) (object : UInt64)
  | indexGet (key : CString)
  | indexContains (key : CString)
  | indexRemove (key : CString)

/-- Status and out-parameters of a call. -/
structure TableReply where
  status : OffsetStoreStatus
  object : Option Nat
  contains : Option Bool

def statusReply (status : OffsetStoreStatus) : TableReply := ⟨status, none, none⟩
def objectReply (r : OffsetStoreStatus × Option Nat) : TableReply := ⟨r.1, r.2, none⟩
def containsReply (r : OffsetStoreStatus × Option Bool) : TableReply := ⟨r.1, none, r.2⟩

def TableCall.code (region : ShmRegion) : TableCall → Code TableReply
  | .setRoot name object => do return statusReply (← shmRegionSetRoot region name object.toNat)
  | .getRoot name => do return objectReply (← shmRegionGetRoot region name)
  | .removeRoot name => do return statusReply (← shmRegionRemoveRoot region name)
  | .indexPut key object => do return statusReply (← shmRegionIndexPut region key object.toNat)
  | .indexGet key => do return objectReply (← shmRegionIndexGet region key)
  | .indexContains key => do return containsReply (← shmRegionIndexContains region key)
  | .indexRemove key => do return statusReply (← shmRegionIndexRemove region key)

/-- The same calls on the maps. -/
noncomputable def Handles.step (handles : Handles) : TableCall → TableReply × Handles
  | .setRoot name object =>
      (statusReply (putHandle 16 handles.roots name object.toNat).1,
        { handles with roots := (putHandle 16 handles.roots name object.toNat).2 })
  | .getRoot name => (objectReply (getHandle handles.roots name), handles)
  | .removeRoot name =>
      (statusReply (removeHandle handles.roots name).1,
        { handles with roots := (removeHandle handles.roots name).2 })
  | .indexPut key object =>
      (statusReply (putHandle 32 handles.index key object.toNat).1,
        { handles with index := (putHandle 32 handles.index key object.toNat).2 })
  | .indexGet key => (objectReply (getHandle handles.index key), handles)
  | .indexContains key => (containsReply (containsHandle handles.index key), handles)
  | .indexRemove key =>
      (statusReply (removeHandle handles.index key).1,
        { handles with index := (removeHandle handles.index key).2 })

/-- A valid header whose tables hold the maps. -/
structure HeaderHolds (n : Nat) (m : Mem) (handles : Handles) : Prop where
  header : RegionRepr n m
  roots : ∃ slots, TableHolds rootTable m slots handles.roots
  index : ∃ slots, TableHolds indexTable m slots handles.index

section Calls
variable {n : Nat} {m : Mem} {region : ShmRegion} {table : EntryTable} {slots : Slots CString Nat} {map : HandleMap}

/-- The header after an entry update and its checksum. -/
theorem RegionRepr.refreshed {m' : Mem} (repr : RegionRepr n m) (frame : SameOff m m' 192 2496) :
    RegionRepr n (store m' 32 8 (headerChecksum m')) := by
  have sum : headerChecksum (store m' 32 8 (headerChecksum m')) = headerChecksum m' :=
    headerChecksum_store (by omega) (by omega)
  have fields : SameOn m (store m' 32 8 (headerChecksum m')) 0 32 :=
    (frame.on (by omega)).trans (SameOn.store (by omega))
  refine ⟨?_, ?_, ?_, ?_, ?_, ?_⟩
  · rw [load_congr (fields.narrow (by omega) (by omega)), repr.magic]
  · rw [load_congr (fields.narrow (by omega) (by omega)), repr.version]
  · rw [load_congr (fields.narrow (by omega) (by omega)), repr.ready]
  · rw [load_congr (fields.narrow (by omega) (by omega))]
    exact repr.generation
  · rw [load_congr (fields.narrow (by omega) (by omega)), repr.total]
  · rw [load_store_eight (headerChecksum_lt _), sum]

/-- The status of a call and the memory after it, from the result of its entry update. -/
def finished (m : Mem) : Except OffsetStoreStatus Unit → OffsetStoreStatus × Mem
  | .error failure => (failure, m)
  | .ok () => (.ok, store m 32 8 (headerChecksum m))

/-- A published update: the call reports the status of the update, and stores nothing when it fails. -/
theorem exec_publish (map : region.Mapped) {update : Nat → Code (Except OffsetStoreStatus Unit)}
    {r : Except OffsetStoreStatus Unit} {m' : Mem} (updated : exec (update region.base) m = some (r, m')) :
    exec (publish table region update) m = some (finished m' r) := by
  have positive := map.base_pos
  have header : shmRegionHeaderMut region = some region.base := if_neg (by omega)
  unfold publish tableLock tableUnlock withLock shmRegionWrlockOne shmRegionRwunlockOne lockRequest
  simp only [header, request_bind, call_bind, exec_call, ne_eq, not_true_eq_false, if_false, pure_eq, ret_bind]
  rw [exec_bind_of_some updated]
  cases r with
  | error failure => rfl
  | ok =>
    simp only [shmRegionRefreshHeaderChecksum, bind_assoc]
    rw [exec_bind_of_some (exec_compute_eq region m'), exec_bind_of_some (exec_storeChecksum_eq region m' _)]
    rfl

/-- What a call on one table comes to: the answer of the map operation, and either the memory
    as it was or the changed table under a fresh checksum. -/
inductive CallResult (n : Nat) (table : EntryTable) (m : Mem) (map : HandleMap) (result : OffsetStoreStatus × HandleMap) :
    OffsetStoreStatus × Mem → Prop where
  | failed (failure : result.1 ≠ .ok) (same : result.2 = map) : CallResult n table m map result (result.1, m)
  | stored {m' : Mem} {slots : Slots CString Nat} (success : result.1 = .ok) (header : RegionRepr n m')
      (frame : ∀ lo hi, 192 ≤ lo → (hi ≤ table.offset ∨ table.offset + 48 * table.capacity ≤ lo) →
        SameOn m m' lo hi)
      (holds : TableHolds table m' slots result.2) : CallResult n table m map result (.ok, m')

theorem call_result (inTables : 192 ≤ table.offset ∧ table.offset + 48 * table.capacity ≤ 2496)
    (header : RegionRepr n m) {result : OffsetStoreStatus × HandleMap}
    {r : Except OffsetStoreStatus Unit × Mem} (updated : UpdateResult table m slots map result.2 result.1 r) :
    CallResult n table m map result (finished r.2 r.1) := by
  cases updated with
  | failed failure same => exact .failed failure same
  | stored success frame holds =>
    rename_i m' slots'
    have tables : SameOff m m' 192 2496 := fun a out => frame a (by omega)
    refine .stored success (header.refreshed tables) ?_ (holds.congr (SameOn.store (by omega)))
    intro lo hi low out
    exact (frame.on (by omega)).trans (SameOn.store (by omega))

theorem exec_put (inTables : 192 ≤ table.offset ∧ table.offset + 48 * table.capacity ≤ 2496) (mapped : region.Mapped)
    (header : RegionRepr n m) (holds : TableHolds table m slots map) (name : CString) (object : UInt64) :
    ∃ r, exec (if !isNameValid name ∨ offsetPtrIsNull object.toNat then return .invalidArgument
        else publish table region fun header => putEntry table region header name object.toNat) m = some r ∧
      CallResult n table m map (putHandle table.capacity map name object.toNat) r := by
  by_cases bad : !isNameValid name ∨ offsetPtrIsNull object.toNat
  · rw [if_pos bad]
    have result : putHandle table.capacity map name object.toNat = (.invalidArgument, map) := by
      refine if_pos ?_
      simpa [← isNameValid_iff, offsetPtrIsNull] using bad
    refine ⟨_, rfl, ?_⟩
    rw [result]
    exact .failed (by simp) rfl
  · rw [if_neg bad]
    have good : ValidName name ∧ object.toNat ≠ 0 := by
      simpa [← isNameValid_iff, offsetPtrIsNull] using bad
    have put : ∃ r, exec (putEntry table region region.base name object.toNat) m = some r ∧ _ :=
      exec_putEntry (by omega) holds good.1 object.toNat_lt good.2
    obtain ⟨⟨r, m'⟩, value, updated⟩ := put
    exact ⟨_, exec_publish mapped value, call_result inTables header updated⟩

theorem exec_remove (inTables : 192 ≤ table.offset ∧ table.offset + 48 * table.capacity ≤ 2496) (mapped : region.Mapped)
    (header : RegionRepr n m) (holds : TableHolds table m slots map) (name : CString) :
    ∃ r, exec (if !isNameValid name then return .invalidArgument
        else publish table region fun header => removeEntry table region header name) m = some r ∧
      CallResult n table m map (removeHandle map name) r := by
  by_cases valid : ValidName name
  · rw [(isNameValid_iff name).mpr valid, if_neg (by simp)]
    have removed : ∃ r, exec (removeEntry table region region.base name) m = some r ∧ _ :=
      exec_removeEntry (by omega) holds valid
    obtain ⟨⟨r, m'⟩, value, updated⟩ := removed
    exact ⟨_, exec_publish mapped value, call_result inTables header updated⟩
  · have bad : isNameValid name = false := by
      rw [← Bool.not_eq_true, isNameValid_iff]
      exact valid
    rw [bad, if_pos (by simp)]
    have result : removeHandle map name = (.invalidArgument, map) := if_pos valid
    refine ⟨_, rfl, ?_⟩
    rw [result]
    exact .failed (by simp) rfl

/-- The read lock, a search and the unlocking. -/
theorem exec_getEntry (small : table.offset + 48 * table.capacity < 2 ^ 62) (mapped : region.Mapped)
    (holds : TableHolds table m slots map) {name : CString} (valid : ValidName name) :
    exec (getEntry table region name) m = some (getHandle map name, m) := by
  have positive := mapped.base_pos
  have header : shmRegionHeader region = some region.base := if_neg (by omega)
  have headerMut : shmRegionHeaderMut region = some region.base := header
  obtain ⟨found, value, search⟩ := burst_findEntry region small holds valid (Nat.le_refl _)
  unfold getEntry tableReadLock tableUnlock withLock shmRegionRdlockOne shmRegionRwunlockOne lockRequest
  simp only [header, headerMut, request_bind, call_bind, exec_call, ne_eq, not_true_eq_false, if_false, pure_eq,
    ret_bind]
  rw [exec_bind_of_burst value]
  cases search with
  | nowhere absent =>
    have missing : map name = none := holds.represents.absent fun i v inside => absent i v (by omega) inside
    simp [getHandle, valid, missing]
  | here inside slot =>
    rename_i i v
    obtain ⟨_, bound⟩ := entry_inside inside
    have held := holds.entries i inside
    rw [slot] at held
    have handle := held.2.2.1
    have present := holds.represents.sound i name v inside slot
    simp only [entryAddress]
    rw [load64_field (by simp only [TableEntry.object]; omega)]
    simp only [loadWord_bind, exec_read, handle, exec_call]
    simp [getHandle, valid, present]

theorem exec_get (small : table.offset + 48 * table.capacity < 2 ^ 62) (mapped : region.Mapped)
    (holds : TableHolds table m slots map) (name : CString) :
    exec (if !isNameValid name then return (.invalidArgument, none) else getEntry table region name) m =
      some (getHandle map name, m) := by
  by_cases valid : ValidName name
  · rw [(isNameValid_iff name).mpr valid, if_neg (by simp)]
    exact exec_getEntry small mapped holds valid
  · have bad : isNameValid name = false := by
      rw [← Bool.not_eq_true, isNameValid_iff]
      exact valid
    rw [bad, if_pos (by simp), show getHandle map name = (.invalidArgument, none) from if_pos valid]
    rfl

theorem exec_contains (mapped : region.Mapped) (holds : TableHolds indexTable m slots map) (name : CString) :
    exec (shmRegionIndexContains region name) m = some (containsHandle map name, m) := by
  unfold shmRegionIndexContains shmRegionIsIndexKeyValid
  by_cases valid : ValidName name
  · rw [(isNameValid_iff name).mpr valid, if_neg (by simp)]
    have positive := mapped.base_pos
    have header : shmRegionHeader region = some region.base := if_neg (by omega)
    have headerMut : shmRegionHeaderMut region = some region.base := header
    obtain ⟨found, value, search⟩ := burst_findEntry region (by simp) holds valid (Nat.le_refl _)
    unfold tableReadLock tableUnlock withLock shmRegionRdlockOne shmRegionRwunlockOne lockRequest
      shmRegionFindIndexEntry
    simp only [header, headerMut, request_bind, call_bind, exec_call, ne_eq, not_true_eq_false, if_false, pure_eq,
      ret_bind]
    rw [exec_bind_of_burst value]
    cases search with
    | nowhere absent =>
      have missing : map name = none := holds.represents.absent fun i v inside => absent i v (by omega) inside
      simp [containsHandle, valid, missing]
    | here inside slot =>
      have present := holds.represents.sound _ name _ inside slot
      simp [containsHandle, valid, present]
  · have bad : isNameValid name = false := by
      rw [← Bool.not_eq_true, isNameValid_iff]
      exact valid
    rw [bad, if_pos (by simp), show containsHandle map name = (.invalidArgument, none) from if_pos valid]
    rfl

end Calls

section Refinement
variable {n : Nat} {m : Mem} {region : ShmRegion} {handles : Handles}

/-- One call: it returns what the operation on the maps returns, the header is valid for the maps
    that the operation leaves, and a failing call has stored nothing. -/
theorem exec_call_step (mapped : region.Mapped) (holds : HeaderHolds n m handles) (c : TableCall) :
    ∃ m', exec (c.code region) m = some ((handles.step c).1, m') ∧ HeaderHolds n m' (handles.step c).2 ∧
      ((handles.step c).1.status ≠ .ok → m' = m) := by
  obtain ⟨rootSlots, roots⟩ := holds.roots
  obtain ⟨indexSlots, index⟩ := holds.index
  have rootsIn : 192 ≤ rootTable.offset ∧ rootTable.offset + 48 * rootTable.capacity ≤ 2496 := by simp
  have indexIn : 192 ≤ indexTable.offset ∧ indexTable.offset + 48 * indexTable.capacity ≤ 2496 := by simp
  -- a call that changes the roots leaves the index as it is, and the other way round
  have onRoots : ∀ {p : Code OffsetStoreStatus} {result r},
      exec p m = some r → CallResult n rootTable m handles.roots result r →
      ∃ m', exec (do return statusReply (← p)) m = some (statusReply result.1, m') ∧
        HeaderHolds n m' { handles with roots := result.2 } ∧ (result.1 ≠ .ok → m' = m) := by
    intro p result r value call
    refine ⟨r.2, ?_, ?_, ?_⟩
    · rw [exec_bind_of_some value]
      cases call with
      | failed => rfl
      | stored success => rw [success]; rfl
    · cases call with
      | failed failure same =>
        rw [same]
        exact holds
      | stored success header frame after =>
        refine ⟨header, ⟨_, after⟩, ⟨indexSlots, index.congr (frame _ _ (by simp) (by simp))⟩⟩
    · intro failure
      cases call with
      | failed => rfl
      | stored success => exact absurd success failure
  have onIndex : ∀ {p : Code OffsetStoreStatus} {result r},
      exec p m = some r → CallResult n indexTable m handles.index result r →
      ∃ m', exec (do return statusReply (← p)) m = some (statusReply result.1, m') ∧
        HeaderHolds n m' { handles with index := result.2 } ∧ (result.1 ≠ .ok → m' = m) := by
    intro p result r value call
    refine ⟨r.2, ?_, ?_, ?_⟩
    · rw [exec_bind_of_some value]
      cases call with
      | failed => rfl
      | stored success => rw [success]; rfl
    · cases call with
      | failed failure same =>
        rw [same]
        exact holds
      | stored success header frame after =>
        refine ⟨header, ⟨rootSlots, roots.congr (frame _ _ (by simp) (by simp))⟩, ⟨_, after⟩⟩
    · intro failure
      cases call with
      | failed => rfl
      | stored success => exact absurd success failure
  cases c with
  | setRoot name object =>
    obtain ⟨r, value, call⟩ := exec_put rootsIn mapped holds.header roots name object
    exact onRoots value call
  | getRoot name =>
    have value := exec_get (by simp) mapped roots name
    exact ⟨m, exec_bind_of_some value _, holds, fun _ => rfl⟩
  | removeRoot name =>
    obtain ⟨r, value, call⟩ := exec_remove rootsIn mapped holds.header roots name
    exact onRoots value call
  | indexPut key object =>
    obtain ⟨r, value, call⟩ := exec_put indexIn mapped holds.header index key object
    exact onIndex value call
  | indexGet key =>
    have value := exec_get (by simp) mapped index key
    exact ⟨m, exec_bind_of_some value _, holds, fun _ => rfl⟩
  | indexContains key => exact ⟨m, exec_bind_of_some (exec_contains mapped index key) _, holds, fun _ => rfl⟩
  | indexRemove key =>
    obtain ⟨r, value, call⟩ := exec_remove indexIn mapped holds.header index key
    exact onIndex value call

/-- Calls one after the other, each by a process with a mapping of its own. -/
def execCalls (regions : Nat → ShmRegion) : List (Nat × TableCall) → Mem → Option (List TableReply × Mem)
  | [], m => some ([], m)
  | (p, c) :: rest, m =>
      match exec (c.code (regions p)) m with
      | none => none
      | some (reply, m') => (execCalls regions rest m').map fun r => (reply :: r.1, r.2)

noncomputable def Handles.run (handles : Handles) : List TableCall → List TableReply × Handles
  | [] => ([], handles)
  | c :: rest => ((handles.step c).1 :: ((handles.step c).2.run rest).1, ((handles.step c).2.run rest).2)

theorem exec_calls {regions : Nat → ShmRegion} (mapped : ∀ p, (regions p).Mapped) (holds : HeaderHolds n m handles)
    (calls : List (Nat × TableCall)) :
    ∃ m', execCalls regions calls m = some ((handles.run (calls.map Prod.snd)).1, m') ∧
      HeaderHolds n m' (handles.run (calls.map Prod.snd)).2 := by
  induction calls generalizing m handles with
  | nil => exact ⟨m, rfl, holds⟩
  | cons call rest ih =>
    obtain ⟨p, c⟩ := call
    obtain ⟨m₁, value, after, _⟩ := exec_call_step (mapped p) holds c
    obtain ⟨m₂, values, final⟩ := ih after
    refine ⟨m₂, ?_, final⟩
    simp only [execCalls, value, values]
    rfl

/-- A fresh header holds two empty maps. -/
theorem header_empty (header : RegionRepr n m) (clear : TablesClear m) : HeaderHolds n m Handles.empty := by
  have entries : ∀ table : EntryTable, 192 ≤ table.offset → table.offset + 48 * table.capacity ≤ 2496 →
      ∀ i, i < table.capacity → EntryHolds m (entryOffset table i) none := by
    intro table low high i inside
    obtain ⟨above, bound⟩ := entry_inside inside
    exact clear _ (by omega) (by omega)
  exact ⟨header, ⟨_, entries rootTable (by simp) (by simp), represents_empty⟩,
    ⟨_, entries indexTable (by simp) (by simp), represents_empty⟩⟩

/-- What a reader of the header may rely on between calls. -/
structure TablesSound (n : Nat) (m : Mem) (handles : Handles) : Prop where
  accepted : HeaderAccepted n m
  roots : ∃ slots, TableHolds rootTable m slots handles.roots
  index : ∃ slots, TableHolds indexTable m slots handles.index
  roots_bound : (keys handles.roots).ncard ≤ 16
  index_bound : (keys handles.index).ncard ≤ 32
  /-- Every further call answers as the maps do, and changes nothing when it fails. -/
  next : ∀ region : ShmRegion, region.Mapped → ∀ c : TableCall, ∃ m',
    exec (c.code region) m = some ((handles.step c).1, m') ∧ ((handles.step c).1.status ≠ .ok → m' = m)

theorem HeaderHolds.sound (holds : HeaderHolds n m handles) : TablesSound n m handles := by
  obtain ⟨rootSlots, roots⟩ := holds.roots
  obtain ⟨indexSlots, index⟩ := holds.index
  refine ⟨holds.header.header_accepted, ⟨_, roots⟩, ⟨_, index⟩, roots.represents.keys_le, index.represents.keys_le, ?_⟩
  intro region mapped c
  obtain ⟨m', value, _, failed⟩ := exec_call_step mapped holds c
  exact ⟨m', value, failed⟩

end Refinement

/-- From a fresh region every sequence of calls answers as the two maps do, and leaves a header
    that holds these maps. -/
theorem tables_refine_maps {S : Type} {size : Nat} {before m : Mem} {handle : Sys → S → Int × S} {env env' : S}
    {created : ShmRegion} {regions : Nat → ShmRegion} (answers : ∀ c s, mapAnswers c (handle c s).1)
    (creates : run handle (shmRegionCreate size) before env = some ((.ok, created), m, env'))
    (mapped : ∀ p, (regions p).Mapped) (calls : List (Nat × TableCall)) :
    ∃ m', execCalls regions calls m = some ((Handles.empty.run (calls.map Prod.snd)).1, m') ∧
      TablesSound size m' (Handles.empty.run (calls.map Prod.snd)).2 := by
  obtain ⟨attached, clear⟩ := ends_run (ends_create size before) answers creates rfl
  obtain ⟨m', value, holds⟩ := exec_calls mapped (header_empty attached.header clear) calls
  exact ⟨m', value, holds.sound⟩

set_option maxRecDepth 100000 in
/-- A region of 4096 bytes, and a root that is set and read. -/
theorem tables_refine_maps_small :
    ∃ created m m', run (fun c (_ : Unit) => (creates c, ())) (shmRegionCreate 4096) (fun _ => 0) () =
        some ((.ok, created), m, ()) ∧
      execCalls (fun _ => smallRegion) [(0, .setRoot nameA 64), (1, .getRoot nameA)] m =
        some ((Handles.empty.run [.setRoot nameA 64, .getRoot nameA]).1, m') ∧
      TablesSound 4096 m' (Handles.empty.run [.setRoot nameA 64, .getRoot nameA]).2 := by
  have status : (run (fun c (_ : Unit) => (creates c, ())) (shmRegionCreate 4096) (fun _ => 0) ()).map
      (fun r => r.1.1) = some .ok := by decide +kernel
  obtain ⟨⟨⟨result, created⟩, m, env⟩, runs, same⟩ := Option.map_eq_some_iff.mp status
  have ok : result = .ok := same
  subst ok
  obtain ⟨m', value, sound⟩ := tables_refine_maps (fun c _ => creates_maps c) runs (fun _ => smallRegion_mapped)
    [(0, .setRoot nameA 64), (1, .getRoot nameA)]
  exact ⟨created, m, m', runs, value, sound⟩

end OffsetStore
