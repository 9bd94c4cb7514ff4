import OffsetStore.RegionState

/- Publication of named handles: the roots and the index of one header, written under
   two different locks, with one checksum over both. -/
namespace OffsetStore
open ByteMemory Program Prog Words

inductive PublishCall where
  | setRoot (name : CString) (object : Nat)
  | removeRoot (name : CString)
  | indexPut (key : CString) (object : Nat)
  | indexRemove (key : CString)

namespace PublishCall

def code (region : ShmRegion) : PublishCall → Code OffsetStoreStatus
  | setRoot name object => shmRegionSetRoot region name object
  | removeRoot name => shmRegionRemoveRoot region name
  | indexPut key object => shmRegionIndexPut region key object
  | indexRemove key => shmRegionIndexRemove region key

def table : PublishCall → EntryTable
  | setRoot _ _ => rootTable
  | removeRoot _ => rootTable
  | indexPut _ _ => indexTable
  | indexRemove _ => indexTable

/-- The arguments pass the checks made before the lock. -/
def accepted : PublishCall → Bool
  | setRoot name object => isNameValid name && !offsetPtrIsNull object
  | removeRoot name => isNameValid name
  | indexPut key object => isNameValid key && !offsetPtrIsNull object
  | indexRemove key => isNameValid key

/-- The entry update between the lock and the checksum. -/
def update (region : ShmRegion) : PublishCall → Nat → Code (Except OffsetStoreStatus Unit)
  | setRoot name object => fun header => putEntry rootTable region header name object
  | removeRoot name => fun header => removeEntry rootTable region header name
  | indexPut key object => fun header => putEntry indexTable region header key object
  | indexRemove key => fun header => removeEntry indexTable region header key

theorem code_eq (region : ShmRegion) (c : PublishCall) :
    c.code region =
      if c.accepted then publish c.table region (c.update region) else return .invalidArgument := by
  cases c with
  | setRoot name object =>
    by_cases valid : isNameValid name = true <;> by_cases null : offsetPtrIsNull object = true <;>
      simp [code, shmRegionSetRoot, shmRegionIsRootNameValid, accepted, table, update, valid, null]
  | removeRoot name =>
    by_cases valid : isNameValid name = true <;>
      simp [code, shmRegionRemoveRoot, shmRegionIsRootNameValid, accepted, table, update, valid]
  | indexPut key object =>
    by_cases valid : isNameValid key = true <;> by_cases null : offsetPtrIsNull object = true <;>
      simp [code, shmRegionIndexPut, shmRegionIsIndexKeyValid, accepted, table, update, valid, null]
  | indexRemove key =>
    by_cases valid : isNameValid key = true <;>
      simp [code, shmRegionIndexRemove, shmRegionIsIndexKeyValid, accepted, table, update, valid]

end PublishCall

theorem name_length {name : CString} (valid : isNameValid name = true) :
    0 < name.bytes.length ∧ name.bytes.length < 32 := by
  have refused : ∀ {p q : Prop} [Decidable p] [Decidable q], p ∨ q → (!(decide p || decide q)) ≠ true := by
    rintro p q _ _ (left | right)
    · simp [left]
    · simp [right]
  by_contra outside
  exact refused (by simp only [TableEntry.nameLength]; omega) valid

/- The entry updates: found entries lie in the table, and a failed update stores nothing. -/
section Update
variable {region : ShmRegion} {m : Mem} {answers : Sys → Int → Prop} {table : EntryTable}

/-- The offset of an entry in the region. -/
def entryOffset (table : EntryTable) (index : Nat) : Nat := table.offset + 48 * index

/-- The result of a search: nothing, or an entry of the table. -/
def InTable (table : EntryTable) (region : ShmRegion) (m : Mem) (result : Option Nat) (m' : Mem) : Prop :=
  m' = m ∧ ∀ entry, result = some entry →
    ∃ index, index < table.capacity ∧ entry = add64 region.base (entryOffset table index)

theorem silent_nameEquals (entry index : Nat) (name : List UInt8) :
    Silent (entryNameEquals region entry index name) := by
  induction name generalizing index with
  | nil => exact confined_read fun _ => confined_ret
  | cons c cs ih =>
    unfold entryNameEquals ShmRegion.load8
    simp only [loadWord_bind]
    refine confined_read fun byte => ?_
    split
    · exact confined_ret
    · exact ih _

theorem ends_findEntry (name : CString) {left : Nat} (few : left ≤ table.capacity) :
    Ends answers (InTable table region m) (findEntry table region region.base name left) m := by
  induction left with
  | zero => exact ends_ret ⟨rfl, by simp⟩
  | succ left ih =>
    have rest := ih (by omega)
    unfold findEntry ShmRegion.load8
    simp only [loadWord_bind]
    refine ends_read ?_
    split
    · refine ends_bind (ends_silent (silent_nameEquals _ _ _) m) ?_
      rintro found _ rfl
      split
      · refine ends_ret ⟨rfl, fun entry same => ?_⟩
        rw [← Option.some.inj same]
        exact ⟨_, by omega, rfl⟩
      · exact rest
    · exact rest

theorem ends_findFreeEntry {left : Nat} (few : left ≤ table.capacity) :
    Ends answers (InTable table region m) (findFreeEntry table region region.base left) m := by
  induction left with
  | zero => exact ends_ret ⟨rfl, by simp⟩
  | succ left ih =>
    have rest := ih (by omega)
    unfold findFreeEntry ShmRegion.load8
    simp only [loadWord_bind]
    refine ends_read ?_
    split
    · refine ends_ret ⟨rfl, fun entry same => ?_⟩
      rw [← Option.some.inj same]
      exact ⟨_, by omega, rfl⟩
    · exact rest

/-- What an entry update does: it stores inside one table, or fails and stores nothing. -/
structure Updated (table : EntryTable) (m : Mem) (result : Except OffsetStoreStatus Unit) (m' : Mem) : Prop where
  inside : SameOff m m' table.offset (table.offset + 48 * table.capacity)
  failed : ∀ status, result = .error status → m' = m

theorem updated_error (status : OffsetStoreStatus) : Updated table m (.error status) m :=
  ⟨fun _ _ => rfl, fun _ _ => rfl⟩

theorem entry_inside {index : Nat} (inside : index < table.capacity) :
    table.offset ≤ entryOffset table index ∧
      entryOffset table index + 48 ≤ table.offset + 48 * table.capacity := by
  unfold entryOffset
  omega

/-- The stores of an update, and its success. -/
theorem ends_stored {p : Code Unit} (stores : Confined table.offset (table.offset + 48 * table.capacity) p) :
    Ends answers (Updated table m) (p >>= fun _ => return .ok ()) m :=
  ends_bind (ends_confined stores m) fun _ _ same => ends_ret ⟨same, fun _ failed => by simp at failed⟩

/-- The stores of a put, all inside its entry. -/
theorem confined_put (region : ShmRegion) {off : Nat} (small : off + 48 < 2 ^ 63) {name : CString} (short : name.bytes.length < 32)
    (object : Nat) : Confined off (off + 48) (do
      region.store8 (add64 region.base off) TableEntry.inUse 1
      clearEntryText region (add64 region.base off)
      region.copyIn (add64 region.base off) TableEntry.name name.bytes
      region.store64 (add64 region.base off) TableEntry.object object) := by
  rw [store8_field (by simp; omega), store64_field (by simp; omega), copyIn_field (by simp; omega)]
  simp only [storeWord_bind]
  refine confined_write (by simp) (by simp) ?_
  refine confined_bind (confined_clearEntryText (by omega)) fun _ => ?_
  refine confined_bind (confined_writeBytes (by simp) (by simp; omega)) fun _ => ?_
  exact confined_write (by simp) (by simp) confined_ret

theorem ends_putEntry (small : table.offset + 48 * table.capacity < 2 ^ 63) {name : CString}
    (short : name.bytes.length < 32) (object : Nat) :
    Ends answers (Updated table m) (putEntry table region region.base name object) m := by
  have writes : ∀ entry, (∃ index, index < table.capacity ∧ entry = add64 region.base (entryOffset table index)) →
      Ends answers (Updated table m) (do
        region.store8 entry TableEntry.inUse 1
        clearEntryText region entry
        region.copyIn entry TableEntry.name name.bytes
        region.store64 entry TableEntry.object object
        return .ok ()) m := by
    rintro _ ⟨index, inside, rfl⟩
    obtain ⟨above, bound⟩ := entry_inside inside
    have stores := confined_widen (confined_put region (by omega) short object) above bound
    have ends : Ends answers (Updated table m) _ m := ends_stored stores
    simpa only [bind_assoc] using ends
  unfold putEntry
  refine ends_bind (ends_findEntry name (Nat.le_refl _)) ?_
  rintro existing m' ⟨rfl, located⟩
  cases existing with
  | some entry => exact writes entry (located entry rfl)
  | none =>
    refine ends_bind (ends_findFreeEntry (Nat.le_refl _)) ?_
    rintro slot m' ⟨rfl, located⟩
    cases slot with
    | none => exact ends_ret (updated_error _)
    | some entry => exact writes entry (located entry rfl)

/-- Overwriting a key changes its own entry only. -/
theorem putEntry_frame {m' : Mem} {result : Except OffsetStoreStatus Unit} {off : Nat} (small : off + 48 < 2 ^ 63)
    {name : CString} (short : name.bytes.length < 32) {object : Nat}
    (found : exec (findEntry table region region.base name table.capacity) m =
      some (some (add64 region.base off), m))
    (returns : exec (putEntry table region region.base name object) m = some (result, m')) :
    SameOff m m' off (off + 48) := by
  unfold putEntry at returns
  rw [exec_bind_of_some found] at returns
  have stores : Ends (fun _ _ => True) (fun _ m' => SameOff m m' off (off + 48)) _ m :=
    ends_confined (confined_bind (confined_put region small short object)
      fun _ => confined_ret (a := (.ok () : Except OffsetStoreStatus Unit))) m
  simp only [bind_assoc] at stores
  exact ends_exec stores (fun _ => trivial) returns

theorem ends_removeEntry (small : table.offset + 48 * table.capacity < 2 ^ 63) (name : CString) :
    Ends answers (Updated table m) (removeEntry table region region.base name) m := by
  unfold removeEntry
  refine ends_bind (ends_findEntry name (Nat.le_refl _)) ?_
  rintro existing m' ⟨rfl, located⟩
  cases existing with
  | none => exact ends_ret (updated_error _)
  | some entry =>
    obtain ⟨index, inside, rfl⟩ := located entry rfl
    obtain ⟨above, bound⟩ := entry_inside inside
    have stores : Confined table.offset (table.offset + 48 * table.capacity) (do
        region.store8 (add64 region.base (entryOffset table index)) TableEntry.inUse 0
        clearEntryText region (add64 region.base (entryOffset table index))
        region.store64 (add64 region.base (entryOffset table index)) TableEntry.object offsetPtrNull) := by
      rw [store8_field (by simp; omega), store64_field (by simp; omega)]
      simp only [storeWord_bind]
      refine confined_write (by simp; omega) (by simp; omega) ?_
      refine confined_bind (confined_widen (confined_clearEntryText (by omega)) above bound) fun _ => ?_
      exact confined_write (by simp; omega) (by simp; omega) confined_ret
    have ends : Ends answers (Updated table m') _ m' := ends_stored stores
    simpa only [bind_assoc] using ends

/-- An accepted update changes the two tables only, and a failed one nothing. -/
theorem ends_update {c : PublishCall} (accepted : c.accepted = true) :
    Ends answers (fun result m' => SameOff m m' 192 2496 ∧ ∀ status, result = .error status → m' = m)
      (c.update region region.base) m := by
  have roots : ∀ {result m'}, Updated rootTable m result m' → SameOff m m' 192 2496 :=
    fun updated a out => updated.inside a (by simp; omega)
  have index : ∀ {result m'}, Updated indexTable m result m' → SameOff m m' 192 2496 :=
    fun updated a out => updated.inside a (by simp; omega)
  cases c with
  | setRoot name object =>
    have valid : isNameValid name = true := by simp [PublishCall.accepted] at accepted; exact accepted.1
    exact ends_weaken (ends_putEntry (by simp) (name_length valid).2 object)
      fun _ _ updated => ⟨roots updated, updated.failed⟩
  | removeRoot name =>
    exact ends_weaken (ends_removeEntry (by simp) name) fun _ _ updated => ⟨roots updated, updated.failed⟩
  | indexPut key object =>
    have valid : isNameValid key = true := by simp [PublishCall.accepted] at accepted; exact accepted.1
    exact ends_weaken (ends_putEntry (by simp) (name_length valid).2 object)
      fun _ _ updated => ⟨index updated, updated.failed⟩
  | indexRemove key =>
    exact ends_weaken (ends_removeEntry (by simp) key) fun _ _ updated => ⟨index updated, updated.failed⟩

end Update

/-- Where a process is in a call: holding the lock, after its entry update, with a computed
    checksum, after storing it. -/
inductive Phase where
  | idle
  | locked (c : PublishCall)
  | wrote (c : PublishCall)
  | computed (c : PublishCall) (checksum : Nat)
  | stored (c : PublishCall)

def Phase.call : Phase → Option PublishCall
  | .idle => none
  | .locked c => some c
  | .wrote c => some c
  | .computed c _ => some c
  | .stored c => some c

structure PublishState where
  mem : Mem
  phase : Nat → Phase

def PublishState.set (st : PublishState) (p : Nat) (phase : Phase) : PublishState :=
  ⟨st.mem, Function.update st.phase p phase⟩

/-- One step of process p. The write lock of a table admits one call at a time; calls on
    different tables run side by side. -/
inductive PublishStep (regions : Nat → ShmRegion) (p : Nat) : PublishState → PublishState → Prop where
  | lock {st} (c : PublishCall) (idle : st.phase p = .idle) (accepted : c.accepted = true)
      (free : ∀ q c', (st.phase q).call = some c' → c'.table ≠ c.table) :
      PublishStep regions p st (st.set p (.locked c))
  | update {st m'} {c : PublishCall} (locked : st.phase p = .locked c)
      (updated : exec (c.update (regions p) (regions p).base) st.mem = some (.ok (), m')) :
      PublishStep regions p st ⟨m', Function.update st.phase p (.wrote c)⟩
  | refuse {st m'} {c : PublishCall} {status : OffsetStoreStatus} (locked : st.phase p = .locked c)
      (failed : exec (c.update (regions p) (regions p).base) st.mem = some (.error status, m')) :
      PublishStep regions p st ⟨m', Function.update st.phase p .idle⟩
  | compute {st m'} {c : PublishCall} {checksum : Nat} (wrote : st.phase p = .wrote c)
      (computed : exec (shmRegionComputeHeaderChecksum (regions p) (regions p).base) st.mem =
        some (checksum, m')) :
      PublishStep regions p st ⟨m', Function.update st.phase p (.computed c checksum)⟩
  | store {st m'} {c : PublishCall} {checksum : Nat} (computed : st.phase p = .computed c checksum)
      (stored : exec ((regions p).store64 (regions p).base RegionHeader.headerChecksum checksum) st.mem =
        some ((), m')) :
      PublishStep regions p st ⟨m', Function.update st.phase p (.stored c)⟩
  | unlock {st} {c : PublishCall} (stored : st.phase p = .stored c) :
      PublishStep regions p st (st.set p .idle)

/-- Process q changed an entry and has yet to store a checksum that is up to date. -/
def PublishState.Pending (st : PublishState) (q : Nat) : Prop :=
  (∃ c, st.phase q = .wrote c) ∨ ∃ c, st.phase q = .computed c (headerChecksum st.mem)

/-- A checksum about to be stored is up to date, or another process stores one later. -/
def PublishState.Timely (st : PublishState) (p : Nat) : Prop :=
  ∀ c checksum, st.phase p = .computed c checksum →
    checksum = headerChecksum st.mem ∨ ∃ q, q ≠ p ∧ st.Pending q

/-- All interleavings, and those in which every checksum is stored in time. -/
def Interleaving (regions : Nat → ShmRegion) : PublishState → PublishState → Prop :=
  Relation.ReflTransGen fun st st' => ∃ p, PublishStep regions p st st'

def TimelyInterleaving (regions : Nat → ShmRegion) : PublishState → PublishState → Prop :=
  Relation.ReflTransGen fun st st' => ∃ p, st.Timely p ∧ PublishStep regions p st st'

section Runs
variable {n : Nat} {regions : Nat → ShmRegion} {m : Mem} {st st' : PublishState} {p q : Nat}

theorem exec_compute {region : ShmRegion} {m m' : Mem} {checksum : Nat}
    (computed : exec (shmRegionComputeHeaderChecksum region region.base) m = some (checksum, m')) :
    m' = m ∧ checksum = headerChecksum m := by
  rw [exec_of_burst (burst_checksum region m)] at computed
  simp only [applyStores_nil, exec_ret, Option.some.injEq, Prod.mk.injEq] at computed
  exact ⟨computed.2.symm, computed.1.symm⟩

theorem exec_storeChecksum {region : ShmRegion} {m m' : Mem} {checksum : Nat}
    (stored : exec (region.store64 region.base RegionHeader.headerChecksum checksum) m = some ((), m')) :
    m' = store m 32 8 checksum := by
  rw [store64_base (by simp)] at stored
  simp only [storeWord, RegionHeader.headerChecksum, exec_write, exec_ret, Option.some.injEq, Prod.mk.injEq,
    true_and] at stored
  exact stored.symm

theorem exec_update {c : PublishCall} {region : ShmRegion} {m m' : Mem} {result : Except OffsetStoreStatus Unit}
    (accepted : c.accepted = true) (updated : exec (c.update region region.base) m = some (result, m')) :
    SameOff m m' 192 2496 ∧ ∀ status, result = .error status → m' = m := by
  have ends : Ends (fun _ _ => True) (fun result m' => SameOff m m' 192 2496 ∧
      ∀ status, result = .error status → m' = m) (c.update region region.base) m := ends_update accepted
  exact ends_exec ends (fun _ => trivial) updated

theorem PublishState.Pending.move (pending : st.Pending q) (phase : st'.phase q = st.phase q)
    (same : headerChecksum st'.mem = headerChecksum st.mem) : st'.Pending q := by
  unfold Pending
  rw [phase, same]
  exact pending

/-- The invariant of a timely run from a header m: the scalar fields stay, calls in progress
    have been accepted, and the checksum is current or will be. -/
structure PublishInv (m : Mem) (st : PublishState) : Prop where
  fields : SameOn m st.mem 0 32
  accepted : ∀ q c, (st.phase q).call = some c → c.accepted = true
  current : load st.mem 32 8 = headerChecksum st.mem ∨ ∃ q, st.Pending q

theorem call_update {phase : Nat → Phase} {P : PublishCall → Prop} {next : Phase}
    (before : ∀ q c, (phase q).call = some c → P c) (here : ∀ c, next.call = some c → P c) :
    ∀ q c, (Function.update phase p next q).call = some c → P c := by
  intro q c call
  by_cases same : q = p
  · rw [same, Function.update_self] at call
    exact here c call
  · rw [Function.update_of_ne same] at call
    exact before q c call

/-- A process that is not pending moves on, and no table changes. -/
theorem PublishInv.quiet (inv : PublishInv m st) {next : Phase} (idle : ¬st.Pending p)
    (here : ∀ c, next.call = some c → c.accepted = true) :
    PublishInv m ⟨st.mem, Function.update st.phase p next⟩ := by
  refine ⟨inv.fields, call_update inv.accepted here, ?_⟩
  rcases inv.current with current | ⟨q, pending⟩
  · exact Or.inl current
  · have other : q ≠ p := fun same => idle (same ▸ pending)
    exact Or.inr ⟨q, pending.move (Function.update_of_ne other _ _) rfl⟩

theorem publish_step (inv : PublishInv m st) (timely : st.Timely p) (step : PublishStep regions p st st') :
    PublishInv m st' := by
  cases step with
  | lock c idle accepted free =>
    refine inv.quiet ?_ fun c' same => ?_
    · simp [PublishState.Pending, idle]
    · rw [← Option.some.inj same]
      exact accepted
  | update locked updated =>
    rename_i m' c
    have accepted := inv.accepted p c (by rw [locked]; rfl)
    have frame := (exec_update accepted updated).1
    refine ⟨inv.fields.trans (frame.on (by omega)), call_update inv.accepted ?_, Or.inr ⟨p, Or.inl ⟨c, ?_⟩⟩⟩
    · intro c' same
      rw [← Option.some.inj same]
      exact accepted
    · exact Function.update_self ..
  | refuse locked failed =>
    rename_i m' c status
    have accepted := inv.accepted p c (by rw [locked]; rfl)
    have same : m' = st.mem := (exec_update accepted failed).2 status rfl
    rw [same]
    exact inv.quiet (by simp [PublishState.Pending, locked]) (by simp [Phase.call])
  | compute wrote computed =>
    rename_i m' c checksum
    obtain ⟨memory, sum⟩ := exec_compute computed
    have accepted := inv.accepted p c (by rw [wrote]; rfl)
    have fields := inv.fields
    rw [← memory] at fields sum
    refine ⟨fields, call_update inv.accepted ?_, Or.inr ⟨p, Or.inr ⟨c, ?_⟩⟩⟩
    · intro c' same
      rw [← Option.some.inj same]
      exact accepted
    · rw [← sum]
      exact Function.update_self ..
  | store computed stored =>
    rename_i m' c checksum
    have memory := exec_storeChecksum stored
    have accepted := inv.accepted p c (by rw [computed]; rfl)
    have sum : headerChecksum m' = headerChecksum st.mem := by
      rw [memory]
      exact headerChecksum_store (by omega) (by omega)
    refine ⟨?_, call_update inv.accepted ?_, ?_⟩
    · rw [memory]
      exact inv.fields.trans (SameOn.store (by omega))
    · intro c' same
      rw [← Option.some.inj same]
      exact accepted
    · rcases timely c checksum computed with fresh | ⟨q, other, pending⟩
      · refine Or.inl ?_
        show load m' 32 8 = headerChecksum m'
        rw [sum, memory, fresh, load_store_eight (headerChecksum_lt _)]
      · exact Or.inr ⟨q, pending.move (Function.update_of_ne other _ _) sum⟩
  | unlock stored =>
    exact inv.quiet (by simp [PublishState.Pending, stored]) (by simp [Phase.call])

/-- A store outside this condition leaves a stale checksum that no call in progress replaces. -/
theorem store_current_iff {c : PublishCall} {checksum : Nat} (computed : st.phase p = .computed c checksum)
    (bound : checksum < 2 ^ 64) :
    (load (store st.mem 32 8 checksum) 32 8 = headerChecksum (store st.mem 32 8 checksum) ∨
      ∃ q, q ≠ p ∧ st.Pending q) ↔ st.Timely p := by
  rw [load_store_eight bound, headerChecksum_store (by omega) (by omega)]
  constructor
  · intro current c' checksum' again
    rw [computed] at again
    cases again
    exact current
  · intro timely
    exact timely c checksum computed

theorem publish_runs (inv : PublishInv m st) (runs : TimelyInterleaving regions st st') : PublishInv m st' := by
  induction runs with
  | refl => exact inv
  | tail _ step ih =>
    obtain ⟨p, timely, step⟩ := step
    exact publish_step ih timely step

theorem PublishInv.valid (inv : PublishInv m st) (start : RegionRepr n m) (quiet : ∀ p, st.phase p = .idle) :
    RegionRepr n st.mem := by
  have fields := inv.fields
  have current : load st.mem 32 8 = headerChecksum st.mem := by
    rcases inv.current with current | ⟨q, ⟨c, wrote⟩ | ⟨c, computed⟩⟩
    · exact current
    · rw [quiet q] at wrote
      cases wrote
    · rw [quiet q] at computed
      cases computed
  refine ⟨?_, ?_, ?_, ?_, ?_, current⟩
  · rw [load_congr (fields.narrow (by omega) (by omega)), start.magic]
  · rw [load_congr (fields.narrow (by omega) (by omega)), start.version]
  · rw [load_congr (fields.narrow (by omega) (by omega)), start.ready]
  · rw [load_congr (fields.narrow (by omega) (by omega))]
    exact start.generation
  · rw [load_congr (fields.narrow (by omega) (by omega)), start.total]

/-- A state with one process. -/
def lone (m : Mem) (phase : Phase) : PublishState := ⟨m, fun q => if q = 0 then phase else .idle⟩

theorem lone_next (m m' : Mem) (before after : Phase) :
    (⟨m', Function.update (lone m before).phase 0 after⟩ : PublishState) = lone m' after := by
  unfold lone
  congr 1
  funext q
  by_cases zero : q = 0
  · rw [zero, Function.update_self]
    rfl
  · rw [Function.update_of_ne zero]
    exact (if_neg zero).trans (if_neg zero).symm

theorem exec_compute_eq (region : ShmRegion) (m : Mem) :
    exec (shmRegionComputeHeaderChecksum region region.base) m = some (headerChecksum m, m) := by
  rw [exec_of_burst (burst_checksum region m)]
  rfl

theorem exec_storeChecksum_eq (region : ShmRegion) (m : Mem) (checksum : Nat) :
    exec (region.store64 region.base RegionHeader.headerChecksum checksum) m = some ((), store m 32 8 checksum) := by
  rw [store64_base (by simp)]
  rfl

/-- Each step is a part of the code: an uninterrupted call is a run of the machine. -/
theorem publish_alone {region : ShmRegion} (map : region.Mapped) {c : PublishCall} (accepted : c.accepted = true)
    {m m' : Mem} {status : OffsetStoreStatus} (returns : exec (c.code region) m = some (status, m')) :
    Interleaving (fun _ => region) (lone m .idle) (lone m' .idle) := by
  have positive := map.base_pos
  have header : shmRegionHeaderMut region = some region.base := if_neg (by omega)
  rw [c.code_eq, if_pos accepted] at returns
  unfold publish tableLock tableUnlock withLock shmRegionWrlockOne shmRegionRwunlockOne lockRequest at returns
  simp only [header, request_bind, call_bind, exec_call, ne_eq, not_true_eq_false, if_false, pure_eq,
    ret_bind] at returns
  have free : ∀ q c', ((lone m .idle).phase q).call = some c' → c'.table ≠ c.table := by
    intro q c' call
    have idle : (lone m .idle).phase q = .idle := ite_self _
    rw [idle] at call
    cases call
  have lock : PublishStep (fun _ => region) 0 (lone m .idle) ((lone m .idle).set 0 (.locked c)) :=
    .lock c rfl accepted free
  rw [PublishState.set, lone_next] at lock
  rw [exec_bind] at returns
  obtain ⟨⟨updated, m₁⟩, update, rest⟩ := Option.bind_eq_some_iff.mp returns
  cases updated with
  | error failure =>
    have same : m₁ = m' := by simpa using congrArg Prod.snd (Option.some.inj rest)
    have refuse : PublishStep (fun _ => region) 0 (lone m (.locked c)) ⟨m₁, _⟩ := .refuse rfl update
    rw [lone_next, same] at refuse
    exact (Relation.ReflTransGen.single ⟨0, lock⟩).tail ⟨0, refuse⟩
  | ok =>
    have written : PublishStep (fun _ => region) 0 (lone m (.locked c)) ⟨m₁, _⟩ := .update rfl update
    have computed : PublishStep (fun _ => region) 0 (lone m₁ (.wrote c)) ⟨m₁, _⟩ :=
      .compute rfl (exec_compute_eq region m₁)
    have stored : PublishStep (fun _ => region) 0 (lone m₁ (.computed c (headerChecksum m₁)))
        ⟨store m₁ 32 8 (headerChecksum m₁), _⟩ := .store rfl (exec_storeChecksum_eq region m₁ _)
    have unlocked : PublishStep (fun _ => region) 0 (lone (store m₁ 32 8 (headerChecksum m₁)) (.stored c)) _ :=
      .unlock rfl
    rw [lone_next] at written computed stored
    rw [PublishState.set, lone_next] at unlocked
    have same : store m₁ 32 8 (headerChecksum m₁) = m' := by
      simp only [shmRegionRefreshHeaderChecksum, bind_assoc] at rest
      rw [exec_bind_of_some (exec_compute_eq region m₁), exec_bind_of_some (exec_storeChecksum_eq region m₁ _)] at rest
      simpa using congrArg Prod.snd (Option.some.inj rest)
    rw [← same]
    exact ((((Relation.ReflTransGen.single ⟨0, lock⟩).tail ⟨0, written⟩).tail ⟨0, computed⟩).tail
      ⟨0, stored⟩).tail ⟨0, unlocked⟩

/-- The stored checksum is the one the code computes, and the header check passes. -/
structure HeaderAccepted (n : Nat) (m : Mem) : Prop where
  current : ∀ region : ShmRegion, exec (shmRegionComputeHeaderChecksum region region.base) m =
    some (load m RegionHeader.headerChecksum 8, m)
  accepted : ∀ region : ShmRegion, region.Mapped → region.size = n →
    exec (shmRegionValidateHeader region) m = some (true, m)

theorem RegionRepr.header_accepted {n : Nat} {m : Mem} (repr : RegionRepr n m) : HeaderAccepted n m := by
  refine ⟨fun region => ?_, fun region map total => ?_⟩
  · rw [exec_compute_eq, RegionHeader.headerChecksum, repr.checksum]
  · obtain ⟨ok, value, valid⟩ := burst_validate_header (m := m) map.base_pos total
    rw [exec_of_burst value, valid.mpr repr]
    rfl

end Runs

/-- As long as every checksum is stored in time, the header is accepted whenever no call is in
    progress. -/
theorem timely_publication_accepted {n : Nat} {regions : Nat → ShmRegion} {m : Mem} {st : PublishState}
    (start : RegionRepr n m) (runs : TimelyInterleaving regions ⟨m, fun _ => .idle⟩ st)
    (quiet : ∀ p, st.phase p = .idle) : HeaderAccepted n st.mem := by
  have inv : PublishInv m ⟨m, fun _ => .idle⟩ :=
    ⟨SameOn.refl _ _ _, by simp [Phase.call], Or.inl start.checksum⟩
  exact ((publish_runs inv runs).valid start quiet).header_accepted

def nameA : CString := ⟨[97], by decide⟩
def keyK : CString := ⟨[107], by decide⟩

/-- Process 0 publishes a root, process 1 overwrites the index entry. -/
def rootCall : PublishCall := .setRoot nameA 64
def indexCall : PublishCall := .indexPut keyK 32

/-- The memory after an entry update. -/
def afterUpdate (c : PublishCall) (m : Mem) : Mem :=
  match exec (c.update smallRegion smallRegion.base) m with
  | some (_, m') => m'
  | none => m

def afterRoot : Mem := afterUpdate rootCall published
def afterIndex : Mem := afterUpdate indexCall afterRoot

theorem exec_afterUpdate {c : PublishCall} {m : Mem}
    (ok : (exec (c.update smallRegion smallRegion.base) m).map Prod.fst = some (.ok ())) :
    exec (c.update smallRegion smallRegion.base) m = some (.ok (), afterUpdate c m) := by
  obtain ⟨⟨result, m'⟩, value, same⟩ := Option.map_eq_some_iff.mp ok
  have success : result = .ok () := same
  subst success
  unfold afterUpdate
  rw [value]

theorem root_updated : exec (rootCall.update smallRegion smallRegion.base) published = some (.ok (), afterRoot) :=
  exec_afterUpdate (by decide +kernel)

theorem index_updated : exec (indexCall.update smallRegion smallRegion.base) afterRoot = some (.ok (), afterIndex) :=
  exec_afterUpdate (by decide +kernel)

/-- The two memories differ in the low byte of the handle only. -/
theorem index_changed : SameOff afterRoot afterIndex 1000 1001 ∧ afterIndex 1000 ≠ afterRoot 1000 := by
  refine ⟨?_, by decide +kernel⟩
  have found : (exec (findEntry indexTable smallRegion smallRegion.base keyK indexTable.capacity) afterRoot).map
      Prod.fst = some (some (add64 smallRegion.base 960)) := by decide +kernel
  obtain ⟨⟨entry, m⟩, value, same⟩ := Option.map_eq_some_iff.mp found
  have located : entry = some (add64 smallRegion.base 960) := same
  have silent : Ends (fun _ _ => True) (InTable indexTable smallRegion afterRoot) _ afterRoot :=
    ends_findEntry keyK (Nat.le_refl _)
  have memory : m = afterRoot := (ends_exec silent (fun _ => trivial) value).1
  rw [located, memory] at value
  have frame : SameOff afterRoot afterIndex 960 1008 :=
    putEntry_frame (by omega) (by decide) value index_updated
  have entry : ∀ i, i < 48 → i ≠ 40 → afterIndex (960 + i) = afterRoot (960 + i) := by decide +kernel
  intro a out
  by_cases inside : 960 ≤ a ∧ a < 1008
  · have here := entry (a - 960) (by omega) (by omega)
    rwa [show 960 + (a - 960) = a by omega] at here
  · exact frame a (by omega)

/-- The phases of two processes. -/
def pair (m : Mem) (first second : Phase) : PublishState :=
  ⟨m, fun q => if q = 0 then first else if q = 1 then second else .idle⟩

theorem pair_first (m m' : Mem) (x y z : Phase) :
    (⟨m', Function.update (pair m x y).phase 0 z⟩ : PublishState) = pair m' z y := by
  unfold pair
  congr 1
  funext q
  by_cases zero : q = 0
  · rw [zero, Function.update_self]
    rfl
  · rw [Function.update_of_ne zero]
    simp only [zero, if_false]

theorem pair_second (m m' : Mem) (x y z : Phase) :
    (⟨m', Function.update (pair m x y).phase 1 z⟩ : PublishState) = pair m' x z := by
  unfold pair
  congr 1
  funext q
  by_cases one : q = 1
  · rw [one, Function.update_self]
    rfl
  · rw [Function.update_of_ne one]
    simp only [one, if_false]

theorem pair_idle (m : Mem) : pair m .idle .idle = ⟨m, fun _ => .idle⟩ := by
  unfold pair
  congr 1
  funext q
  simp

/-- The second process changes its entry after the first has computed its checksum. -/
theorem entries_written : TimelyInterleaving (fun _ => smallRegion) ⟨published, fun _ => .idle⟩
    (pair afterIndex (.computed rootCall (headerChecksum afterRoot)) (.wrote indexCall)) := by
  let R := fun _ : Nat => smallRegion
  let v := headerChecksum afterRoot
  have free : ∀ q c', ((pair published .idle .idle).phase q).call = some c' → c'.table ≠ rootCall.table := by
    rw [pair_idle]
    intro q c' call
    cases call
  have lock0 : PublishStep R 0 (pair published .idle .idle) ⟨published, _⟩ :=
    .lock rootCall rfl (by decide) free
  have update0 : PublishStep R 0 (pair published (.locked rootCall) .idle) ⟨afterRoot, _⟩ := .update rfl root_updated
  have compute0 : PublishStep R 0 (pair afterRoot (.wrote rootCall) .idle) ⟨afterRoot, _⟩ :=
    .compute rfl (exec_compute_eq _ _)
  have other : ∀ q c', ((pair afterRoot (.computed rootCall v) .idle).phase q).call = some c' →
      c'.table ≠ indexCall.table := by
    intro q c' call
    simp only [pair] at call
    split at call
    · rw [← Option.some.inj call]
      decide
    · split at call <;> cases call
  have lock1 : PublishStep R 1 (pair afterRoot (.computed rootCall v) .idle) ⟨afterRoot, _⟩ :=
    .lock indexCall rfl (by decide) other
  have update1 : PublishStep R 1 (pair afterRoot (.computed rootCall v) (.locked indexCall)) ⟨afterIndex, _⟩ :=
    .update rfl index_updated
  rw [pair_first] at lock0 update0 compute0
  rw [pair_second] at lock1 update1
  have run : TimelyInterleaving R (pair published .idle .idle) (pair afterIndex (.computed rootCall v) (.wrote indexCall)) :=
    ((((Relation.ReflTransGen.single ⟨0, nofun, lock0⟩).tail ⟨0, nofun, update0⟩).tail ⟨0, nofun, compute0⟩).tail
      ⟨1, nofun, lock1⟩).tail ⟨1, nofun, update1⟩
  rwa [pair_idle] at run

/-- The first process stores its checksum while the second has yet to compute one, which then
    replaces it. -/
theorem timely_publication_accepted_small :
    ∃ m, TimelyInterleaving (fun _ => smallRegion) ⟨published, fun _ => .idle⟩ ⟨m, fun _ => .idle⟩ ∧
      RegionRepr 4096 published ∧ HeaderAccepted 4096 m := by
  let R := fun _ : Nat => smallRegion
  let v := headerChecksum afterRoot
  let w := headerChecksum (store afterIndex 32 8 v)
  have store0 : PublishStep R 0 (pair afterIndex (.computed rootCall v) (.wrote indexCall))
      ⟨store afterIndex 32 8 v, _⟩ := .store rfl (exec_storeChecksum_eq _ _ _)
  have unlock0 : PublishStep R 0 (pair (store afterIndex 32 8 v) (.stored rootCall) (.wrote indexCall))
      ⟨store afterIndex 32 8 v, _⟩ := .unlock rfl
  have compute1 : PublishStep R 1 (pair (store afterIndex 32 8 v) .idle (.wrote indexCall))
      ⟨store afterIndex 32 8 v, _⟩ := .compute rfl (exec_compute_eq _ _)
  have store1 : PublishStep R 1 (pair (store afterIndex 32 8 v) .idle (.computed indexCall w))
      ⟨store (store afterIndex 32 8 v) 32 8 w, _⟩ := .store rfl (exec_storeChecksum_eq _ _ _)
  have unlock1 : PublishStep R 1 (pair (store (store afterIndex 32 8 v) 32 8 w) .idle (.stored indexCall))
      ⟨store (store afterIndex 32 8 v) 32 8 w, _⟩ := .unlock rfl
  rw [pair_first] at store0 unlock0
  rw [pair_second] at compute1 store1 unlock1
  have replaced : (pair afterIndex (.computed rootCall v) (.wrote indexCall)).Timely 0 :=
    fun _ _ _ => Or.inr ⟨1, by decide, Or.inl ⟨indexCall, rfl⟩⟩
  have timely : (pair (store afterIndex 32 8 v) .idle (.computed indexCall w)).Timely 1 := by
    intro c checksum computed
    cases computed
    exact Or.inl rfl
  have run := ((((entries_written.tail ⟨0, replaced, store0⟩).tail ⟨0, nofun, unlock0⟩).tail
    ⟨1, nofun, compute1⟩).tail ⟨1, timely, store1⟩).tail ⟨1, nofun, unlock1⟩
  rw [pair_idle] at run
  exact ⟨_, run, published_valid, timely_publication_accepted published_valid run fun _ => rfl⟩

/-- Here the second process computes and stores before the first stores. -/
theorem late_checksum_refused :
    ∃ m, Interleaving (fun _ => smallRegion) ⟨published, fun _ => .idle⟩ ⟨m, fun _ => .idle⟩ ∧
      RegionRepr 4096 published ∧ load m RegionHeader.headerChecksum 8 ≠ headerChecksum m ∧
      exec (shmRegionValidateHeader smallRegion) m = some (false, m) := by
  let R := fun _ : Nat => smallRegion
  let v := headerChecksum afterRoot
  let w := headerChecksum afterIndex
  have compute1 : PublishStep R 1 (pair afterIndex (.computed rootCall v) (.wrote indexCall)) ⟨afterIndex, _⟩ :=
    .compute rfl (exec_compute_eq _ _)
  have store1 : PublishStep R 1 (pair afterIndex (.computed rootCall v) (.computed indexCall w))
      ⟨store afterIndex 32 8 w, _⟩ := .store rfl (exec_storeChecksum_eq _ _ _)
  have unlock1 : PublishStep R 1 (pair (store afterIndex 32 8 w) (.computed rootCall v) (.stored indexCall))
      ⟨store afterIndex 32 8 w, _⟩ := .unlock rfl
  have store0 : PublishStep R 0 (pair (store afterIndex 32 8 w) (.computed rootCall v) .idle)
      ⟨store (store afterIndex 32 8 w) 32 8 v, _⟩ := .store rfl (exec_storeChecksum_eq _ _ _)
  have unlock0 : PublishStep R 0 (pair (store (store afterIndex 32 8 w) 32 8 v) (.stored rootCall) .idle)
      ⟨store (store afterIndex 32 8 w) 32 8 v, _⟩ := .unlock rfl
  rw [pair_first] at store0 unlock0
  rw [pair_second] at compute1 store1 unlock1
  have begun : Interleaving R ⟨published, fun _ => .idle⟩ _ :=
    Relation.ReflTransGen.mono (fun _ _ ⟨p, _, step⟩ => ⟨p, step⟩) _ _ entries_written
  have run := ((((begun.tail ⟨1, compute1⟩).tail ⟨1, store1⟩).tail ⟨1, unlock1⟩).tail ⟨0, store0⟩).tail ⟨0, unlock0⟩
  rw [pair_idle] at run
  obtain ⟨only, changed⟩ := index_changed
  have differ : w ≠ v := headerChecksum_ne only changed (by omega)
  have sum : headerChecksum (store (store afterIndex 32 8 w) 32 8 v) = w := by
    rw [headerChecksum_store (by omega) (by omega), headerChecksum_store (by omega) (by omega)]
  have stale : load (store (store afterIndex 32 8 w) 32 8 v) 32 8 ≠ headerChecksum (store (store afterIndex 32 8 w) 32 8 v) := by
    rw [sum, load_store_eight (headerChecksum_lt _)]
    exact Ne.symm differ
  refine ⟨_, run, published_valid, stale, ?_⟩
  obtain ⟨ok, value, valid⟩ := burst_validate_header (m := store (store afterIndex 32 8 w) 32 8 v) smallRegion_mapped.base_pos rfl
  have refused : ok = false := by
    cases ok with
    | false => rfl
    | true => exact absurd (valid.mp rfl).checksum stale
  rw [exec_of_burst value, refused]
  rfl

end OffsetStore
