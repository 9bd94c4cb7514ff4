import OffsetStore.StoreRefinement
import OffsetStore.LockRanks
import OffsetStore.Lib.Linearization

/- The roots and the index used by many processes at once, one load, store or lock at a time.
   Each table is changed under the write lock of its own and read under the shared lock; the
   checksum over both is written under either lock, and no call looks at it. -/
namespace OffsetStore
open ByteMemory Program Prog Words SlotTable LockOrder Linearization

inductive NamedTable where
  | roots
  | index
  deriving DecidableEq, Repr

def NamedTable.table : NamedTable → EntryTable
  | .roots => rootTable
  | .index => indexTable

theorem NamedTable.placed (o : NamedTable) : 192 ≤ o.table.offset ∧ o.table.offset + 48 * o.table.capacity ≤ 2496 := by
  cases o <;> simp [NamedTable.table]

def tableBytes (o : NamedTable) : Set Nat := {b | o.table.offset ≤ b ∧ b < o.table.offset + 48 * o.table.capacity}

/-- The tables in the header, each under its lock. -/
def tableLayout : Layout NamedTable HandleMap Nat where
  lock o := o.table.rwlock
  bytes := tableBytes
  holds o map m := ∃ slots, TableHolds o.table m slots map
  single o o' same := by
    cases o <;> cases o' <;> first | rfl | exact absurd same (by decide)
  apart o o' other := by
    rw [Set.disjoint_left]
    rintro b ⟨low, high⟩ ⟨low', high'⟩
    cases o <;> cases o' <;> simp only [NamedTable.table, rootTable, indexTable, RegionHeader.roots, RegionHeader.index]
      at low high low' high' <;> first | omega | exact absurd rfl other
  near o map m m' same := by
    rintro ⟨slots, holds⟩
    exact ⟨slots, holds.congr fun b low high => same b ⟨low, high⟩⟩

namespace TableCall

def object : TableCall → NamedTable
  | setRoot _ _ | getRoot _ | removeRoot _ => .roots
  | indexPut _ _ | indexGet _ | indexContains _ | indexRemove _ => .index

/-- The call on the map of its table. -/
noncomputable def apply (map : HandleMap) : TableCall → TableReply × HandleMap
  | setRoot name object => (statusReply (putHandle 16 map name object.toNat).1, (putHandle 16 map name object.toNat).2)
  | getRoot name => (objectReply (getHandle map name), map)
  | removeRoot name => (statusReply (removeHandle map name).1, (removeHandle map name).2)
  | indexPut key object => (statusReply (putHandle 32 map key object.toNat).1, (putHandle 32 map key object.toNat).2)
  | indexGet key => (objectReply (getHandle map key), map)
  | indexContains key => (containsReply (containsHandle map key), map)
  | indexRemove key => (statusReply (removeHandle map key).1, (removeHandle map key).2)

/-- The reply where the lock of the table cannot be had. -/
def denied : TableCall → TableReply
  | getRoot _ | indexGet _ => objectReply (.systemError, none)
  | indexContains _ => containsReply (.systemError, none)
  | _ => statusReply .systemError

end TableCall

def tableSpec : Spec NamedTable HandleMap TableCall TableReply where
  object := TableCall.object
  next c map r map' := c.apply map = (r, map')
  denied := TableCall.denied

section Entries
variable {region : ShmRegion} {o : NamedTable} {i : Nat} {name : CString}

/-- The bytes of an entry are bytes of its table. -/
theorem entry_bytes (inside : i < o.table.capacity) {field n b : Nat} (small : field + n ≤ 48)
    (low : entryOffset o.table i + field ≤ b) (high : b < entryOffset o.table i + field + n) : b ∈ tableBytes o := by
  obtain ⟨above, bound⟩ := entry_inside inside
  exact ⟨by omega, by omega⟩

theorem entry_small (inside : i < o.table.capacity) : entryOffset o.table i + 48 < 2 ^ 63 := by
  have placed := o.placed
  obtain ⟨_, bound⟩ := entry_inside inside
  omega

theorem within_byte {α : Type} (inside : i < o.table.capacity) {field : Nat} (small : field < 48) {f : Nat → Code α}
    (all : ∀ byte, Within (tableBytes o) (f byte)) :
    Within (tableBytes o) (region.load8 (add64 region.base (entryOffset o.table i)) field >>= f) := by
  have near := entry_small inside
  rw [load8_field (by omega), loadWord_bind]
  exact within_read (fun b low high => entry_bytes inside small low high) all

theorem within_nameEquals (inside : i < o.table.capacity) {index : Nat} {bytes : List UInt8}
    (short : index + bytes.length < 32) :
    Within (tableBytes o) (entryNameEquals region (add64 region.base (entryOffset o.table i)) index bytes) := by
  induction bytes generalizing index with
  | nil => exact within_byte inside (by simp only [TableEntry.name]; omega) fun _ => within_ret
  | cons c cs ih =>
    rw [List.length_cons] at short
    exact within_byte inside (by simp only [TableEntry.name]; omega) fun byte => within_ite within_ret (ih (by omega))

/-- What a search returns is an entry of the table. -/
def IsEntry (o : NamedTable) (region : ShmRegion) (found : Option Nat) : Prop :=
  ∀ entry, found = some entry → ∃ i, i < o.table.capacity ∧ entry = add64 region.base (entryOffset o.table i)

theorem results_findEntry (left : Nat) (few : left ≤ o.table.capacity) :
    Results (IsEntry o region) (findEntry o.table region region.base name left) := by
  induction left with
  | zero => exact results_ret fun entry same => by cases same
  | succ left ih =>
    have rest := ih (by omega)
    unfold findEntry ShmRegion.load8
    simp only [loadWord_bind]
    refine results_read fun inUse => results_ite ?_ rest
    refine results_bind _ fun found => results_ite (results_ret fun entry same => ?_) rest
    exact ⟨_, by omega, (Option.some.inj same).symm⟩

theorem results_findFree (left : Nat) (few : left ≤ o.table.capacity) :
    Results (IsEntry o region) (findFreeEntry o.table region region.base left) := by
  induction left with
  | zero => exact results_ret fun entry same => by cases same
  | succ left ih =>
    unfold findFreeEntry ShmRegion.load8
    simp only [loadWord_bind]
    refine results_read fun inUse => results_ite (results_ret fun entry same => ?_) (ih (by omega))
    exact ⟨_, by omega, (Option.some.inj same).symm⟩

theorem within_findEntry (short : name.bytes.length < 32) (left : Nat) (few : left ≤ o.table.capacity) :
    Within (tableBytes o) (findEntry o.table region region.base name left) := by
  induction left with
  | zero => exact within_ret
  | succ left ih =>
    have inside : o.table.capacity - (left + 1) < o.table.capacity := by omega
    refine within_byte inside (by simp) fun inUse => within_ite ?_ (ih (by omega))
    exact within_bind (within_nameEquals inside (by omega)) fun found => within_ite within_ret (ih (by omega))

theorem within_findFree (left : Nat) (few : left ≤ o.table.capacity) :
    Within (tableBytes o) (findFreeEntry o.table region region.base left) := by
  induction left with
  | zero => exact within_ret
  | succ left ih =>
    have inside : o.table.capacity - (left + 1) < o.table.capacity := by omega
    exact within_byte inside (by simp) fun inUse => within_ite within_ret (ih (by omega))

/-- The stores of an update lie in the entry. -/
theorem within_store8 {α : Type} (inside : i < o.table.capacity) {field v : Nat} (small : field < 48) {f : Unit → Code α}
    (rest : Within (tableBytes o) (f ())) :
    Within (tableBytes o) (region.store8 (add64 region.base (entryOffset o.table i)) field v >>= f) := by
  have near := entry_small inside
  rw [store8_field (by omega), storeWord_bind]
  exact within_write (fun b low high => entry_bytes inside small low high) rest

theorem within_store64 {α : Type} (inside : i < o.table.capacity) {field v : Nat} (small : field + 8 ≤ 48)
    {f : Unit → Code α} (rest : Within (tableBytes o) (f ())) :
    Within (tableBytes o) (region.store64 (add64 region.base (entryOffset o.table i)) field v >>= f) := by
  have near := entry_small inside
  rw [store64_field (by omega), storeWord_bind]
  exact within_write (fun b low high => entry_bytes inside small low high) rest

theorem within_copyIn (inside : i < o.table.capacity) {field : Nat} {bytes : List UInt8}
    (small : field + bytes.length ≤ 48) :
    Within (tableBytes o) (region.copyIn (add64 region.base (entryOffset o.table i)) field bytes) := by
  have near := entry_small inside
  rw [copyIn_field (by omega)]
  exact within_writeBytes fun b low high => entry_bytes inside small low high

theorem within_clearText (inside : i < o.table.capacity) :
    Within (tableBytes o) (clearEntryText region (add64 region.base (entryOffset o.table i))) :=
  within_bind (within_copyIn inside (by simp)) fun _ => within_copyIn inside (by simp)

theorem within_putEntry (short : name.bytes.length < 32) (object : Nat) :
    Within (tableBytes o) (putEntry o.table region region.base name object) := by
  have fill : ∀ i, i < o.table.capacity → Within (tableBytes o) (do
      region.store8 (add64 region.base (entryOffset o.table i)) TableEntry.inUse 1
      clearEntryText region (add64 region.base (entryOffset o.table i))
      region.copyIn (add64 region.base (entryOffset o.table i)) TableEntry.name name.bytes
      region.store64 (add64 region.base (entryOffset o.table i)) TableEntry.object object
      return .ok () : Code (Except OffsetStoreStatus Unit)) := by
    intro i inside
    refine within_store8 inside (by simp) (within_bind (within_clearText inside) fun _ => ?_)
    refine within_bind (within_copyIn inside (by simp only [TableEntry.name]; omega)) fun _ => ?_
    exact within_store64 inside (by simp) within_ret
  unfold putEntry
  refine within_then (within_findEntry short _ (Nat.le_refl _)) (results_findEntry _ (Nat.le_refl _)) ?_
  intro existing isEntry
  cases existing with
  | some entry =>
    obtain ⟨i, inside, rfl⟩ := isEntry entry rfl
    exact fill i inside
  | none =>
    refine within_then (within_findFree _ (Nat.le_refl _)) (results_findFree _ (Nat.le_refl _)) ?_
    intro slot isEntry
    cases slot with
    | none => exact within_ret
    | some entry =>
      obtain ⟨i, inside, rfl⟩ := isEntry entry rfl
      exact fill i inside

theorem within_removeEntry (short : name.bytes.length < 32) :
    Within (tableBytes o) (removeEntry o.table region region.base name) := by
  unfold removeEntry
  refine within_then (within_findEntry short _ (Nat.le_refl _)) (results_findEntry _ (Nat.le_refl _)) ?_
  intro existing isEntry
  cases existing with
  | none => exact within_ret
  | some entry =>
    obtain ⟨i, inside, rfl⟩ := isEntry entry rfl
    refine within_store8 inside (by simp) (within_bind (within_clearText inside) fun _ => ?_)
    exact within_store64 inside (by simp) within_ret

end Entries

section Calls
variable {region : ShmRegion} {c : TableCall} {name : CString}

/-- A call that works inside the lock of its table. -/
abbrev TableSectioned (c : TableCall) (p : Code TableReply) : Prop := Sectioned tableSpec tableLayout lockAct c p

theorem sectioned_publish (mapped : region.Mapped) (denied : c.denied = statusReply .systemError)
    {update : Nat → Code (Except OffsetStoreStatus Unit)} (within : Within (tableBytes c.object) (update region.base))
    {change : HandleMap → OffsetStoreStatus × HandleMap}
    (apply : ∀ map, c.apply map = (statusReply (change map).1, (change map).2))
    (run : ∀ m slots map, TableHolds c.object.table m slots map → ∃ r, exec (update region.base) m = some r ∧
      UpdateResult c.object.table m slots map (change map).2 (change map).1 r) :
    TableSectioned c (do return statusReply (← publish c.object.table region update)) := by
  have positive := mapped.base_pos
  have placed := c.object.placed
  have header : shmRegionHeaderMut region = some region.base := if_neg (by omega)
  unfold publish tableLock tableUnlock withLock shmRegionWrlockOne shmRegionRwunlockOne lockRequest
  simp only [header, request_bind, call_bind, bind_assoc, pure_eq]
  refine .locked rfl (fun error nonzero => ?_) ?_
  · rw [show tableSpec.denied c = _ from denied]
    simp [nonzero]
  · rintro map m ⟨slots, (holds : TableHolds c.object.table m slots map)⟩
    obtain ⟨⟨r, m'⟩, value, result⟩ := run m slots map holds
    simp only [ne_eq, not_true_eq_false, if_false, ret_bind]
    rw [Prog.bind_assoc]
    refine inside_exec within (tableLayout.apart_others c.object) (Or.inl rfl) value ?_
    cases result with
    | failed failure same =>
      simp only [call_bind]
      refine inside_release (r := statusReply (change map).1) rfl rfl ⟨map, ?_, ⟨slots, holds⟩, fun h => by cases h⟩
      change c.apply map = _
      rw [apply, same]
    | stored success frame after =>
      rename_i slots'
      simp only [shmRegionRefreshHeaderChecksum, bind_assoc]
      refine inside_loads (loads_computeChecksum _) fun sum => ?_
      rw [store64_base (by simp), storeWord_bind]
      -- the checksum lies before both tables
      refine inside_write (fun b low high => ?_) ?_
      · rintro ⟨o, _, above, _⟩
        have behind := o.placed
        simp only [RegionHeader.headerChecksum] at high
        omega
      · simp only [call_bind]
        refine inside_release (r := statusReply .ok) rfl rfl ⟨(change map).2, ?_, ⟨slots', ?_⟩, fun h => by cases h⟩
        · change c.apply map = _
          rw [apply, success]
        · exact after.congr (SameOn.store (by simp only [RegionHeader.headerChecksum]; omega))

theorem sectioned_get (mapped : region.Mapped) (valid : ValidName name)
    (denied : c.denied = objectReply (.systemError, none))
    (apply : ∀ map, c.apply map = (objectReply (getHandle map name), map)) :
    TableSectioned c (do return objectReply (← getEntry c.object.table region name)) := by
  have positive := mapped.base_pos
  have placed := c.object.placed
  have header : shmRegionHeader region = some region.base := if_neg (by omega)
  have headerMut : shmRegionHeaderMut region = some region.base := header
  unfold getEntry tableReadLock tableUnlock withLock shmRegionRdlockOne shmRegionRwunlockOne lockRequest
  simp only [header, headerMut, request_bind, call_bind, bind_assoc, pure_eq]
  refine .locked rfl (fun error nonzero => ?_) ?_
  · rw [show tableSpec.denied c = _ from denied]
    simp [nonzero]
  · rintro map m ⟨slots, (holds : TableHolds c.object.table m slots map)⟩
    have small : c.object.table.offset + 48 * c.object.table.capacity < 2 ^ 62 := by omega
    obtain ⟨found, value, search⟩ := burst_findEntry region small holds valid (Nat.le_refl _)
    have loads : Loads (findEntry c.object.table region region.base name c.object.table.capacity) :=
      loads_findEntry _ _ _ _
    simp only [ne_eq, not_true_eq_false, if_false, ret_bind]
    rw [Prog.bind_assoc]
    refine inside_exec (within_findEntry valid.2 _ (Nat.le_refl _)) (tableLayout.apart_others c.object) (Or.inr loads)
      ((loads_exec loads).mpr ⟨rfl, value⟩) ?_
    cases search with
    | nowhere absent =>
      have missing : map name = none := holds.represents.absent fun i v inside => absent i v (by omega) inside
      simp only [call_bind]
      refine inside_release (r := objectReply (.notFound, none)) rfl rfl ⟨map, ?_, ⟨slots, holds⟩, fun _ => rfl⟩
      change c.apply map = _
      rw [apply, getHandle, if_neg (not_not.mpr valid), if_pos missing]
    | here inside slot =>
      rename_i i v
      have held := holds.entries i inside
      rw [slot] at held
      have near := entry_small inside
      have present := holds.represents.sound i name v inside slot
      simp only [entryAddress]
      rw [load64_field (by simp only [TableEntry.object]; omega)]
      simp only [loadWord_bind, read_bind, call_bind]
      refine inside_read (fun b low high => entry_bytes inside (by simp only [TableEntry.object]; omega) low high) ?_
      rw [held.2.2.1]
      refine inside_release (r := objectReply (.ok, some v)) rfl rfl ⟨map, ?_, ⟨slots, holds⟩, fun _ => rfl⟩
      change c.apply map = _
      rw [apply, getHandle, if_neg (not_not.mpr valid), if_neg (by rw [present]; simp), present]

theorem sectioned_contains (mapped : region.Mapped) (valid : ValidName name) :
    TableSectioned (.indexContains name) ((TableCall.indexContains name).code region) := by
  have positive := mapped.base_pos
  have header : shmRegionHeader region = some region.base := if_neg (by omega)
  have headerMut : shmRegionHeaderMut region = some region.base := header
  have accepted : (!shmRegionIsIndexKeyValid name) = false := by simp [shmRegionIsIndexKeyValid, isNameValid_iff, valid]
  unfold TableCall.code shmRegionIndexContains shmRegionFindIndexEntry tableReadLock tableUnlock withLock
    shmRegionRdlockOne shmRegionRwunlockOne lockRequest
  simp only [accepted, Bool.false_eq_true, if_false, header, headerMut, request_bind, call_bind, bind_assoc, pure_eq]
  refine .locked rfl (fun error nonzero => ?_) ?_
  · simp [nonzero, tableSpec, TableCall.denied]
  · rintro map m ⟨slots, (holds : TableHolds indexTable m slots map)⟩
    obtain ⟨found, value, search⟩ := burst_findEntry region (by simp) holds valid (Nat.le_refl _)
    have loads : Loads (findEntry indexTable region region.base name indexTable.capacity) := loads_findEntry _ _ _ _
    have within : Within (tableBytes .index) (findEntry indexTable region region.base name indexTable.capacity) :=
      within_findEntry (o := .index) valid.2 _ (Nat.le_refl _)
    simp only [ne_eq, not_true_eq_false, if_false, ret_bind]
    rw [Prog.bind_assoc]
    refine inside_exec within (tableLayout.apart_others .index) (Or.inr loads) ((loads_exec loads).mpr ⟨rfl, value⟩) ?_
    simp only [call_bind]
    refine inside_release (r := containsReply (.ok, some found.isSome)) rfl rfl
      ⟨map, ?_, ⟨slots, holds⟩, fun _ => rfl⟩
    change TableCall.apply map (.indexContains name) = _
    rw [TableCall.apply, containsHandle, if_neg (not_not.mpr valid)]
    cases search with
    | nowhere absent =>
      rw [holds.represents.absent fun i v inside => absent i v (by omega) inside]
    | here inside slot =>
      rw [holds.represents.sound _ name _ inside slot]
      rfl

/-- The arguments are checked before the lock is taken. -/
theorem sectioned_checked {α : Type} {bad : Prop} [Decidable bad] {e : α} {p : Code α} {reply : α → TableReply}
    (refused : bad → ∀ map, c.apply map = (reply e, map))
    (work : ¬bad → TableSectioned c (p >>= fun answer => ret (reply answer))) :
    TableSectioned c ((if bad then ret e else p) >>= fun answer => ret (reply answer)) := by
  by_cases wrong : bad
  · rw [if_pos wrong]
    exact .atOnce fun map => refused wrong map
  · rw [if_neg wrong]
    exact work wrong

theorem sectioned_put (mapped : region.Mapped) (denied : c.denied = statusReply .systemError) (object : UInt64)
    (apply : ∀ map, c.apply map = (statusReply (putHandle c.object.table.capacity map name object.toNat).1,
      (putHandle c.object.table.capacity map name object.toNat).2)) :
    TableSectioned c ((if !isNameValid name ∨ offsetPtrIsNull object.toNat then ret .invalidArgument
      else publish c.object.table region fun header => putEntry c.object.table region header name object.toNat) >>=
        fun status => ret (statusReply status)) := by
  have placed := c.object.placed
  refine sectioned_checked (fun bad map => ?_) fun good => ?_
  · rw [apply, putHandle, if_pos]
    simpa [← isNameValid_iff, offsetPtrIsNull] using bad
  · have valid : ValidName name ∧ object.toNat ≠ 0 := by
      simpa [← isNameValid_iff, offsetPtrIsNull] using good
    refine sectioned_publish mapped denied (within_putEntry valid.1.2 _) apply fun m slots map holds => ?_
    exact exec_putEntry (by omega) holds valid.1 object.toNat_lt valid.2

theorem sectioned_remove (mapped : region.Mapped) (denied : c.denied = statusReply .systemError)
    (apply : ∀ map, c.apply map = (statusReply (removeHandle map name).1, (removeHandle map name).2)) :
    TableSectioned c ((if !isNameValid name then ret .invalidArgument
      else publish c.object.table region fun header => removeEntry c.object.table region header name) >>=
        fun status => ret (statusReply status)) := by
  have placed := c.object.placed
  refine sectioned_checked (fun bad map => ?_) fun good => ?_
  · rw [apply, removeHandle, if_pos]
    simpa [← isNameValid_iff] using bad
  · have valid : ValidName name := by simpa [← isNameValid_iff] using good
    refine sectioned_publish mapped denied (within_removeEntry valid.2) apply fun m slots map holds => ?_
    exact exec_removeEntry (by omega) holds valid

theorem sectioned_lookup (mapped : region.Mapped) (denied : c.denied = objectReply (.systemError, none))
    (apply : ∀ map, c.apply map = (objectReply (getHandle map name), map)) :
    TableSectioned c ((if !isNameValid name then ret (.invalidArgument, none) else getEntry c.object.table region name) >>=
      fun answer => ret (objectReply answer)) := by
  refine sectioned_checked (fun bad map => ?_) fun good => ?_
  · rw [apply, getHandle, if_pos]
    simpa [← isNameValid_iff] using bad
  · exact sectioned_get mapped (by simpa [← isNameValid_iff] using good) denied apply

theorem sectioned_call (mapped : region.Mapped) (c : TableCall) : TableSectioned c (c.code region) := by
  cases c with
  | setRoot name object => exact sectioned_put (c := .setRoot name object) mapped rfl object fun _ => rfl
  | getRoot name => exact sectioned_lookup (c := .getRoot name) mapped rfl fun _ => rfl
  | removeRoot name => exact sectioned_remove (c := .removeRoot name) mapped rfl fun _ => rfl
  | indexPut key object => exact sectioned_put (c := .indexPut key object) mapped rfl object fun _ => rfl
  | indexGet key => exact sectioned_lookup (c := .indexGet key) mapped rfl fun _ => rfl
  | indexContains key =>
    by_cases valid : ValidName key
    · exact sectioned_contains mapped valid
    · refine sectioned_checked (c := .indexContains key) (fun _ map => ?_) fun good => ?_
      · rw [TableCall.apply, containsHandle, if_pos valid]
      · exact absurd (by simpa [shmRegionIsIndexKeyValid, ← isNameValid_iff] using good) valid
  | indexRemove key => exact sectioned_remove (c := .indexRemove key) mapped rfl fun _ => rfl

end Calls

/-- Any number of processes that use the roots and the index, one load, store or lock at a time, while anything outside
    the two tables may change: what they see is what two maps would show them whose operations take effect at one moment
    between call and reply, no update is lost or applied twice, and a table that nobody is changing holds its map. A
    process that stops for good keeps its lock, and then the others see no more than its call has done. -/
theorem tables_linearizable {ι : Type} [DecidableEq ι] {regions : ι → ShmRegion} {start : NamedTable → HandleMap} {m : Mem}
    {s : State Sys Nat ι TableCall TableReply} (mapped : ∀ i, (regions i).Mapped)
    (stands : ∀ o : NamedTable, ∃ slots, TableHolds o.table m slots (start o))
    (runs : Runs lockAct (fun i c => c.code (regions i)) tableLayout.all (origin m) s) :
    ∃ t, tableSpec.Run start s.history t ∧ (∀ i, s.active i = none → s.held i = []) ∧
      ∀ o : NamedTable, (∀ i, (o.table.rwlock, false) ∉ s.held i) → ∃ slots, TableHolds o.table s.mem slots (t.value o) := by
  have sectioned : ∀ i c, TableSectioned c (c.code (regions i)) := fun i c => sectioned_call (mapped i) c
  obtain ⟨t, run, agrees⟩ := linearizable sectioned stands runs
  exact ⟨t, run, fun i idle => (agrees.idle i idle).1, agrees.holds⟩

/-- In a new store a reader is denied the lock that a writer has, and reads what was written when it asks again. -/
theorem tables_linearizable_small : ∃ region m, boot 4096 = some ((.ok, region), m, ()) ∧
    ∃ (s : State Sys Nat Bool TableCall TableReply) (t : Atomic NamedTable HandleMap Bool TableCall TableReply),
      Runs lockAct (fun _ c => c.code smallRegion) tableLayout.all (origin m) s ∧
      s.history = [.call false (.setRoot nameA 64), .call true (.getRoot nameA), .denied true,
        .reply true (objectReply (.systemError, none)), .call true (.getRoot nameA), .reply false (statusReply .ok),
        .reply true (objectReply (.ok, some 64))] ∧
      tableSpec.Run (fun _ _ => none) s.history t ∧ ∃ slots, TableHolds rootTable s.mem slots (t.value .roots) := by
  obtain ⟨region, m, _, _, booted, store, _⟩ := boot_small_returns
  have names := (store.holds (boot_tables (fun c _ => creates_maps c) booted)).names
  have stands : ∀ o : NamedTable, ∃ slots, TableHolds o.table m slots fun _ => none
    | .roots => names.roots
    | .index => names.index
  obtain ⟨m₁, writes, after, _⟩ := exec_call_step smallRegion_mapped names (.setRoot nameA 64)
  obtain ⟨m₂, reads, _⟩ := exec_call_step smallRegion_mapped after (.getRoot nameA)
  have put : putHandle 16 (fun _ => none) nameA (64 : UInt64).toNat = (.ok, Function.update (fun _ => none) nameA (some 64)) :=
    putHandle_empty (by decide) (by decide) (by decide)
  have found : getHandle (Function.update (fun _ => none) nameA (some 64)) nameA = (.ok, some 64) := by
    rw [getHandle, if_neg (not_not.mpr (by decide)), Function.update_self, if_neg (by simp)]
  simp only [Contents.empty, Handles.empty, Handles.step, put, found] at writes after reads
  obtain ⟨set, setCode⟩ : ∃ next, (TableCall.setRoot nameA 64).code smallRegion =
      .call (.rwlockWrlock RegionHeader.rootsRwlock) next := ⟨_, rfl⟩
  obtain ⟨get, getCode, fails⟩ : ∃ next, (TableCall.getRoot nameA).code smallRegion =
      .call (.rwlockRdlock RegionHeader.rootsRwlock) next ∧ next 11 = ret (objectReply (.systemError, none)) := ⟨_, rfl, rfl⟩
  have writer : lockAct (.rwlockWrlock RegionHeader.rootsRwlock) = .acquire RegionHeader.rootsRwlock false := rfl
  have reader : lockAct (.rwlockRdlock RegionHeader.rootsRwlock) = .acquire RegionHeader.rootsRwlock true := rfl
  have readyW := sectioned_call smallRegion_mapped (.setRoot nameA 64)
  have readyR := sectioned_call smallRegion_mapped (.getRoot nameA)
  rw [setCode] at writes readyW
  rw [getCode] at reads readyR
  have began : Runs lockAct (fun (_ : Bool) c => TableCall.code smallRegion c) tableLayout.all
    (Linearization.origin m) (Linearization.origin m) := .refl
  have asked := began.tail (.call false (.setRoot nameA 64) rfl)
  have locked := asked.tail (.acquire false (congrArg (fun p => some (TableCall.setRoot nameA 64, p)) setCode) writer
    fun i x mem => by cases mem)
  have second := locked.tail (.call true (.getRoot nameA) rfl)
  have denied := second.tail (.denied true (r := 11) (congrArg (fun p => some (TableCall.getRoot nameA, p)) getCode)
    reader (by decide))
  have refused := denied.tail (.reply true (congrArg (fun p => some (TableCall.getRoot nameA, p)) fails))
  have again := refused.tail (.call true (.getRoot nameA) rfl)
  cases readyW with
  | @locked _ _ shared kind _ work =>
    have written := again.trans (runs_section (i := false) (c := .setRoot nameA 64) (work _ m names.roots) rfl writes)
    have called : (TableCall.getRoot nameA, (TableCall.getRoot nameA).code smallRegion) = (_, _) := congrArg _ getCode
    have served := written.trans (runs_call (i := true) readyR after.roots (congrArg some called) rfl
      (fun _ i x mem => by cases i <;> cases mem) reads)
    obtain ⟨t, run, _, holds⟩ := tables_linearizable (fun _ => smallRegion_mapped) stands served
    exact ⟨region, m, booted, _, t, served, rfl, run, holds .roots fun i mem => by cases i <;> cases mem⟩

end OffsetStore
