import OffsetStore.HashTableRuns
import OffsetStore.HeapUsers
import OffsetStore.Lib.KeyedHistory

/- A hash table from its creation on: calls that run alone, one after another, and the
   other users of the heap between them. Keys that were cut on their way in, or whose
   length does not fit its field, are never found again; without such keys the items agree
   with the history of the calls. -/
namespace OffsetStore
open ByteMemory Program Prog Words Pool KeyedHistory

/-- A call on a table, with its arguments and what it returned. -/
inductive TableEvent where
  | put (key : CString) (value : Mem) (rc : Int)
  | get (key : CString) (value : Option (List UInt8))
  | delete (key : CString) (rc : Int)
  | length (count : Nat)

namespace TableEvent

/-- The call runs alone from m to m'. -/
def Happens (fuel : Nat) (region : ShmRegion) (h : Nat) (m m' : Mem) : TableEvent → Prop
  | put key value rc => exec (hashtablePut fuel region h key value) m = some (rc, m')
  | get key value => exec (hashtableGet fuel region h key) m = some (value, m')
  | delete key rc => exec (hashtableDelete fuel region h key) m = some (rc, m')
  | length count => exec (hashtableLength fuel region h) m = some (count, m')

/-- What a successful call changes in a map from keys to values of v bytes. -/
def change (v : Nat) : TableEvent → Option (Change (List UInt8) (List UInt8))
  | put key value rc => if rc = 0 then some (.put key.bytes (loadBytes value 0 v)) else none
  | delete key rc => if rc = 0 then some (.erase key.bytes) else none
  | _ => none

end TableEvent

/-- The changes that the successful calls of a history make. -/
def changes (v : Nat) (history : List TableEvent) : List (Change (List UInt8) (List UInt8)) :=
  history.filterMap (TableEvent.change v)

/-- A run from memory m₀ and the allocations S₀ of the others: the calls on the table at h, the latest first, and the
    steps of the others between them. -/
inductive TableRun (n fuel h : Nat) (S₀ : Set Alloc) (m₀ : Mem) : List TableEvent → Set Alloc → Mem → Prop where
  | start : TableRun n fuel h S₀ m₀ [] S₀ m₀
  | call {history : List TableEvent} {S : Set Alloc} {m m' : Mem} {region : ShmRegion} {event : TableEvent}
      (run : TableRun n fuel h S₀ m₀ history S m) (map : region.Mapped) (total : region.size = n)
      (happens : event.Happens fuel region h m m') : TableRun n fuel h S₀ m₀ (event :: history) S m'
  | others {history : List TableEvent} {S S' : Set Alloc} {m m' : Mem} (run : TableRun n fuel h S₀ m₀ history S m)
      (step : OthersStep n fuel S m S' m') : TableRun n fuel h S₀ m₀ history S' m'

def Item.entry (it : Item) : List UInt8 × List UInt8 := (it.stored, it.value)

/-- The items stand for the map that the history describes. -/
structure Faithful (p : TableParams) (items : List Item) (history : List TableEvent) : Prop where
  agrees : Agrees (items.map Item.entry) (changes p.valSize history)
  hashed : ∀ it ∈ items, ∀ key : CString, key.bytes = it.stored → it.bucket = hashtableHash key p.numBuckets
  short : ∀ it ∈ items, it.stored.length < 2 ^ 32

section Faithful
variable {p : TableParams} {items pre post : List Item} {it : Item} {history : List TableEvent} {key : CString}

theorem Faithful.answers_iff (faithful : Faithful p items history) (mem : it ∈ items) :
    it.Answers p key ↔ it.stored = key.bytes := by
  have short := faithful.short it mem
  unfold Item.Answers Item.Matches
  rw [Nat.mod_eq_of_lt short]
  constructor
  · rintro ⟨_, length, chars⟩
    rwa [← length, List.take_length] at chars
  · intro same
    rw [same, List.take_length]
    exact ⟨faithful.hashed it mem key same.symm, rfl, rfl⟩

theorem Faithful.latest_of_mem (faithful : Faithful p items history) (mem : it ∈ items) :
    latest it.stored (changes p.valSize history) = some it.value :=
  (faithful.agrees.value _ _).mp (List.mem_map.mpr ⟨it, mem, rfl⟩)

theorem Faithful.latest_none (faithful : Faithful p items history) (misses : ∀ x ∈ items, ¬x.Answers p key) :
    latest key.bytes (changes p.valSize history) = none := by
  cases value : latest key.bytes (changes p.valSize history) with
  | none => rfl
  | some v =>
    obtain ⟨x, mem, same⟩ := List.mem_map.mp ((faithful.agrees.value _ _).mpr value)
    exact absurd ((faithful.answers_iff mem).mpr (Prod.mk.inj same).1) (misses x mem)

theorem Faithful.latest_found (faithful : Faithful p items history) (mem : it ∈ items) (hit : it.Answers p key) :
    latest key.bytes (changes p.valSize history) = some it.value := by
  rw [← (faithful.answers_iff mem).mp hit]
  exact faithful.latest_of_mem mem

/-- The search returns the latest value. -/
theorem Faithful.lookup (faithful : Faithful p items history) :
    (lookupItem p key items).map Item.value = latest key.bytes (changes p.valSize history) := by
  cases found : lookupItem p key items with
  | none =>
    have misses := List.find?_eq_none.mp found
    exact (faithful.latest_none fun x mem answers => misses x mem (by simpa using answers)).symm
  | some it =>
    have hit := List.find?_some found
    exact (faithful.latest_found (List.mem_of_find?_eq_some found) (by simpa using hit)).symm

theorem Faithful.count (faithful : Faithful p items history) :
    (present (changes p.valSize history)).ncard = items.length := by
  rw [faithful.agrees.card, List.length_map]

theorem Faithful.same (faithful : Faithful p items history) {event : TableEvent} (none : event.change p.valSize = none) :
    Faithful p items (event :: history) := by
  have same : changes p.valSize (event :: history) = changes p.valSize history := by simp [changes, none]
  exact ⟨same ▸ faithful.agrees, faithful.hashed, faithful.short⟩

theorem Faithful.inserted (faithful : Faithful p items history) (misses : ∀ x ∈ items, ¬x.Answers p key) {value : Mem}
    (bucket : it.bucket = hashtableHash key p.numBuckets) (stored : it.stored = key.bytes)
    (bytes : it.value = loadBytes value 0 p.valSize) (short : key.bytes.length < 2 ^ 32) :
    Faithful p (it :: items) (.put key value 0 :: history) := by
  refine ⟨?_, fun x mem k same => ?_, fun x mem => ?_⟩
  · have entry : it.entry = (key.bytes, loadBytes value 0 p.valSize) := by rw [Item.entry, stored, bytes]
    rw [List.map_cons, entry]
    exact faithful.agrees.insert (faithful.latest_none misses) _
  · rcases List.mem_cons.mp mem with rfl | later
    · rw [bucket, CString.eq_of_bytes (same.trans stored)]
    · exact faithful.hashed x later k same
  · rcases List.mem_cons.mp mem with rfl | later
    · rwa [stored]
    · exact faithful.short x later

theorem Faithful.revalued (faithful : Faithful p (pre ++ it :: post) history) (hit : it.Answers p key) (a : Alloc)
    (value : Mem) :
    Faithful p (pre ++ it.revalued a (loadBytes value 0 p.valSize) :: post) (.put key value 0 :: history) := by
  have stored := (faithful.answers_iff (List.mem_append_right _ List.mem_cons_self)).mp hit
  have agrees := faithful.agrees
  rw [List.map_append, List.map_cons, Item.entry, stored] at agrees
  refine ⟨?_, fun x mem => ?_, fun x mem => ?_⟩
  · rw [List.map_append, List.map_cons, Item.entry, Item.revalued, stored]
    exact agrees.replace _
  · rcases mem_middle.mp mem with rfl | other
    · exact faithful.hashed it (List.mem_append_right _ List.mem_cons_self)
    · exact faithful.hashed x (mem_middle.mpr (Or.inr other))
  · rcases mem_middle.mp mem with rfl | other
    · exact faithful.short it (List.mem_append_right _ List.mem_cons_self)
    · exact faithful.short x (mem_middle.mpr (Or.inr other))

theorem Faithful.removed (faithful : Faithful p (pre ++ it :: post) history) (hit : it.Answers p key) :
    Faithful p (pre ++ post) (.delete key 0 :: history) := by
  have stored := (faithful.answers_iff (List.mem_append_right _ List.mem_cons_self)).mp hit
  have agrees := faithful.agrees
  rw [List.map_append, List.map_cons, Item.entry, stored] at agrees
  refine ⟨?_, fun x mem => faithful.hashed x (mem_middle.mpr (Or.inr mem)),
    fun x mem => faithful.short x (mem_middle.mpr (Or.inr mem))⟩
  rw [List.map_append]
  exact agrees.erase

end Faithful

/-- The table stands in allocations of its own, beside those of the others. -/
structure TableHeld (n : Nat) (S : Set Alloc) (p : TableParams) (hdr array : Alloc) (items : List Item) (m : Mem) : Prop where
  beside : Beside n S (tableFoot hdr array items) m
  stands : TableStands p hdr array items m

section Calls
variable {n fuel : Nat} {S S' : Set Alloc} {p : TableParams} {hdr array : Alloc} {items pre post : List Item} {it : Item}
  {region : ShmRegion} {m m' : Mem} {key : CString}

theorem TableHeld.others (held : TableHeld n S p hdr array items m) (step : OthersStep n fuel S m S' m') (enough : n ≤ fuel) :
    TableHeld n S' p hdr array items m' := by
  obtain ⟨beside, same⟩ := step.beside enough held.beside
  exact ⟨beside, held.stands.congr same⟩

theorem exec_freeValue (map : region.Mapped) (total : region.size = n)
    (held : TableHeld n S p hdr array (pre ++ it :: post) m) :
    exec (hashtableFreeValue region (add64 region.base hdr.ptr) (add64 region.base it.node.ptr)) m =
      exec (allocatorFree region (add64 region.base it.val.ptr) >>= fun _ => ret ()) m := by
  have user := map.user
  have here : it ∈ pre ++ it :: post := by simp
  have item := held.stands.each it here
  have foot := held.beside.heap.footprint
  have bounds := foot.bounds it.val (Or.inl (tableFoot_item here val_mem))
  have node := foot.bounds it.node (Or.inl (tableFoot_item here node_mem))
  have header := foot.bounds hdr (Or.inl tableFoot_header)
  have width := item.valSize
  have size := held.stands.size.1
  have nodeSize := item.nodeSize
  unfold heapBase at bounds node header
  have resolved : offsetPtrTryResolve region.base region.size it.val.ptr p.valSize = some (add64 region.base it.val.ptr) :=
    resolve_eq_some map (by omega) (by omega) (by omega)
  have present : ¬offsetPtrIsNull it.val.ptr = true := by
    rw [offsetPtrIsNull_iff]
    omega
  unfold hashtableFreeValue
  simp (disch := omega) only [HashTableEntry.valueOffset, HashTableHeader.valSize, load64_field]
  simp only [loadWord_bind, exec_read, item.valueOffset]
  rw [if_neg present, exec_read, held.stands.valSize]
  simp only [resolved]
  rfl

/-- The buffer that is given back serves the new value. -/
theorem update_succeeds (map : region.Mapped) (total : region.size = n) (enough : n ≤ fuel)
    (held : TableHeld n S p hdr array (pre ++ it :: post) m) {value : Mem} {rc : Int}
    (run : exec (hashtableUpdate fuel region (add64 region.base hdr.ptr) (add64 region.base it.node.ptr) value) m =
      some (rc, m')) : rc = 0 := by
  have user := map.user
  have here : it ∈ pre ++ it :: post := by simp
  have item := held.stands.each it here
  have foot := held.beside.heap.footprint
  have headerIn : hdr ∈ tableFoot hdr array (pre ++ it :: post) ∪ S := Or.inl tableFoot_header
  have valIn : it.val ∈ tableFoot hdr array (pre ++ it :: post) ∪ S := Or.inl (tableFoot_item here val_mem)
  have header := foot.bounds hdr headerIn
  have size := held.stands.size.1
  obtain ⟨V, inv, intact, live⟩ := held.beside.heap
  obtain ⟨V', m₁, x, m₂, released, freed, positive, inside, alloc⟩ :=
    exec_alloc_again inv map total enough ((live _).mpr valIn) (item.plain _ val_mem)
  have other : hdr ≠ it.val := header_ne_part held.stands.distinct here val_mem
  have word : load m₁ (hdr.ptr + 16) 8 = p.valSize := by
    rw [← held.stands.valSize]
    exact load_congr ((released.payload hdr ((live _).mpr headerIn) other).narrow (by omega) (by omega))
  unfold heapBase at header
  unfold hashtableUpdate at run
  rw [exec_bind, exec_freeValue map total held, exec_bind_of_some freed] at run
  simp (disch := omega) only [HashTableHeader.valSize, load64_field] at run
  simp only [exec_ret, Option.bind_some, loadWord_bind, exec_read, word] at run
  rw [item.valSize] at alloc
  rw [exec_bind_of_some alloc] at run
  simp only [exec_read] at run
  obtain ⟨_, m₃, _, run⟩ := exec_bind_some run
  simp only [from_raw_eq_some map positive (total ▸ inside)] at run
  have results : Results (fun rc => rc = 0) (region.store64 (add64 region.base it.node.ptr) HashTableEntry.valueOffset x >>=
      fun _ => hashtableUnlock region (add64 region.base hdr.ptr) >>= fun _ => (ret 0 : Code Int)) :=
    results_bind _ fun _ => results_bind _ fun _ => results_ret rfl
  exact results_exec results run

theorem exec_containerLock (mutex : Nat) (m : Mem) : exec (containerLock mutex) m = some ((), m) := rfl

/-- What a put does to the items. -/
inductive PutOutcome (p : TableParams) (key : CString) (bytes : List UInt8) : List Item → Int → List Item → Prop where
  | updated {pre post : List Item} {it : Item} (hit : it.Answers p key) (a : Alloc) :
      PutOutcome p key bytes (pre ++ it :: post) 0 (pre ++ it.revalued a bytes :: post)
  | inserted {items : List Item} {it : Item} (misses : ∀ x ∈ items, ¬x.Answers p key)
      (bucket : it.bucket = hashtableHash key p.numBuckets) (stored : it.stored = key.bytes.take p.keySize)
      (value : it.value = bytes) : PutOutcome p key bytes items 0 (it :: items)
  | full {items : List Item} (misses : ∀ x ∈ items, ¬x.Answers p key) : PutOutcome p key bytes items (-1) items

theorem TableHeld.lookup (held : TableHeld n S p hdr array items m) (map : region.Mapped) (total : region.size = n)
    (enough : n ≤ fuel) (key : CString) :
    ∃ looked m' L' μ', exec (hashtableLookup fuel region (add64 region.base hdr.ptr) key) m = some (looked, m') ∧
      (L' = tableFoot hdr array items ∧ μ' = m ∧ Looked region p array key items looked) ∧ Beside n S L' m' ∧
      ∀ a ∈ L', SameOn μ' m' a.ptr (a.ptr + a.size) :=
  does_beside (does_lookup map total enough held.stands subset_rfl) held.beside

theorem TableHeld.put (held : TableHeld n S p hdr array items m) (map : region.Mapped) (total : region.size = n)
    (enough : n ≤ fuel) (bound : (key.bytes.take p.keySize).length + 128 ≤ 2 ^ 64) (wide : p.valSize + 112 ≤ 2 ^ 64)
    (value : Mem) : ∃ rc m' items', exec (hashtablePut fuel region hdr.ptr key value) m = some (rc, m') ∧
      PutOutcome p key (loadBytes value 0 p.valSize) items rc items' ∧ TableHeld n S p hdr array items' m' := by
  have room : 2728 ≤ n := by
    obtain ⟨_, inv, _⟩ := held.beside.heap
    exact Nat.le_trans (by decide) inv.room
  obtain ⟨looked, m₁, L₁, μ₁, ran, ⟨rfl, rfl, found⟩, beside, mine⟩ := held.lookup map total enough key
  have stands := held.stands.congr mine
  have resolved := resolve_table map total (held.beside.heap.footprint.mono Set.subset_union_left) held.stands tableFoot_header
  unfold hashtablePut hashtableLock
  simp only [resolved]
  rw [exec_bind_of_some (exec_containerLock _ _), exec_bind_of_some ran]
  cases looked with
  | none => exact False.elim found
  | some looked =>
    obtain ⟨cell, result⟩ := looked
    cases result with
    | none =>
      obtain ⟨rfl, misses⟩ := found
      obtain ⟨rc, m', L', μ', inserted, outcome, after, same⟩ :=
        does_beside (does_insert map total room enough stands value bound wide) beside
      obtain ⟨rfl, it, bucket, stored, bytes, rfl, grown⟩ | ⟨rfl, rfl, kept⟩ := outcome
      · exact ⟨0, m', it :: items, inserted, .inserted misses bucket stored bytes, after, grown.congr same⟩
      · exact ⟨-1, m', items, inserted, .full misses, after, kept.congr same⟩
    | some result =>
      obtain ⟨before, entry⟩ := result
      obtain ⟨rfl, pre, it, post, rfl, hit, _, rfl, _⟩ := found
      obtain ⟨rc, m', L', μ', updated, outcome, after, same⟩ :=
        does_beside (does_update map total room enough stands value) beside
      have zero := update_succeeds map total enough ⟨beside, stands⟩ updated
      obtain ⟨rfl, a, rfl, grown⟩ | ⟨rfl, _⟩ := outcome
      · exact ⟨0, m', _, updated, .updated hit a, after, grown.congr same⟩
      · simp at zero

theorem TableHeld.get (held : TableHeld n S p hdr array items m) (map : region.Mapped) (total : region.size = n)
    (enough : n ≤ fuel) (key : CString) :
    ∃ m', exec (hashtableGet fuel region hdr.ptr key) m = some ((lookupItem p key items).map Item.value, m') ∧
      TableHeld n S p hdr array items m' := by
  have does : Does n (tableFoot hdr array items) m (hashtableGet fuel region hdr.ptr key) _ :=
    does_tableGet map total enough held.stands
  obtain ⟨out, m', L', μ', ran, ⟨rfl, rfl, rfl⟩, beside, mine⟩ := does_beside does held.beside
  exact ⟨m', ran, beside, held.stands.congr mine⟩

theorem TableHeld.length (held : TableHeld n S p hdr array items m) (map : region.Mapped) (total : region.size = n)
    (enough : n ≤ fuel) :
    ∃ m', exec (hashtableLength fuel region hdr.ptr) m = some (items.length, m') ∧ TableHeld n S p hdr array items m' := by
  obtain ⟨out, m', L', μ', ran, ⟨rfl, rfl, rfl⟩, beside, mine⟩ :=
    does_beside (does_tableLength map total enough held.stands) held.beside
  exact ⟨m', ran, beside, held.stands.congr mine⟩

/-- What a deletion does to the items. -/
inductive DeleteOutcome (p : TableParams) (key : CString) : List Item → Int → List Item → Prop where
  | removed {pre post : List Item} {it : Item} (hit : it.Answers p key) :
      DeleteOutcome p key (pre ++ it :: post) 0 (pre ++ post)
  | absent {items : List Item} (misses : ∀ x ∈ items, ¬x.Answers p key) : DeleteOutcome p key items (-1) items

theorem TableHeld.delete (held : TableHeld n S p hdr array items m) (map : region.Mapped) (total : region.size = n)
    (enough : n ≤ fuel) (key : CString) :
    ∃ rc m' items', exec (hashtableDelete fuel region hdr.ptr key) m = some (rc, m') ∧ DeleteOutcome p key items rc items' ∧
      TableHeld n S p hdr array items' m' := by
  have does : Does n (tableFoot hdr array items) m (hashtableDelete fuel region hdr.ptr key) _ :=
    does_tableDelete map total enough held.stands
  obtain ⟨rc, m', L', μ', ran, outcome, beside, mine⟩ := does_beside does held.beside
  obtain ⟨rfl, misses, rfl, rfl⟩ | ⟨rfl, pre, it, post, rfl, hit, _, rfl, stands⟩ := outcome
  · exact ⟨-1, m', items, ran, .absent misses, beside, held.stands.congr mine⟩
  · exact ⟨0, m', pre ++ post, ran, .removed hit, beside, stands.congr mine⟩

end Calls

/-- What the map that the history describes returns. -/
def Right (p : TableParams) (history : List TableEvent) : TableEvent → Prop
  | .put key _ rc => rc ≠ 0 → latest key.bytes (changes p.valSize history) = none
  | .get key value => value = latest key.bytes (changes p.valSize history)
  | .delete key rc => rc = if latest key.bytes (changes p.valSize history) = none then -1 else 0
  | .length count => count = (present (changes p.valSize history)).ncard

/-- The key of a put is neither cut nor too long for its length field. -/
def KeysFit (p : TableParams) (history : List TableEvent) : Prop :=
  ∀ key value rc, .put key value rc ∈ history → key.bytes.length ≤ p.keySize ∧ key.bytes.length < 2 ^ 32

section Runs
variable {n fuel : Nat} {S S' : Set Alloc} {p : TableParams} {hdr array : Alloc} {items items' : List Item}
  {region : ShmRegion} {m m' : Mem} {key : CString} {history : List TableEvent}

theorem PutOutcome.faithful {value : Mem} {rc : Int} (outcome : PutOutcome p key (loadBytes value 0 p.valSize) items rc items')
    (faithful : Faithful p items history) (fits : key.bytes.length ≤ p.keySize ∧ key.bytes.length < 2 ^ 32) :
    Faithful p items' (.put key value rc :: history) ∧ Right p history (.put key value rc) := by
  cases outcome with
  | updated hit a => exact ⟨faithful.revalued hit a value, fun failed => absurd rfl failed⟩
  | inserted misses bucket stored bytes =>
    rw [List.take_of_length_le fits.1] at stored
    exact ⟨faithful.inserted misses bucket stored bytes fits.2, fun failed => absurd rfl failed⟩
  | full misses => exact ⟨faithful.same rfl, fun _ => faithful.latest_none misses⟩

theorem DeleteOutcome.faithful {rc : Int} (outcome : DeleteOutcome p key items rc items') (faithful : Faithful p items history) :
    Faithful p items' (.delete key rc :: history) ∧ Right p history (.delete key rc) := by
  cases outcome with
  | removed hit =>
    have found := faithful.latest_found (List.mem_append_right _ List.mem_cons_self) hit
    exact ⟨faithful.removed hit, by simp [Right, found]⟩
  | absent misses => exact ⟨faithful.same rfl, by simp [Right, faithful.latest_none misses]⟩

/-- Each call returns what the map returns, and the items agree with the longer history. -/
theorem TableHeld.call (held : TableHeld n S p hdr array items m) (faithful : Faithful p items history)
    (map : region.Mapped) (total : region.size = n) (enough : n ≤ fuel) (wide : p.valSize + 112 ≤ 2 ^ 64) {event : TableEvent}
    (happens : event.Happens fuel region hdr.ptr m m') (fits : KeysFit p [event]) :
    ∃ items', TableHeld n S p hdr array items' m' ∧ Faithful p items' (event :: history) ∧ Right p history event := by
  cases event with
  | put key value rc =>
    have fit := fits key value rc List.mem_cons_self
    have bound : (key.bytes.take p.keySize).length + 128 ≤ 2 ^ 64 := by
      rw [List.length_take]
      omega
    obtain ⟨rc', m'', items', ran, outcome, after⟩ := held.put map total enough bound wide value
    obtain ⟨rfl, rfl⟩ := Prod.mk.inj (Option.some.inj (happens.symm.trans ran))
    exact ⟨items', after, outcome.faithful faithful fit⟩
  | get key value =>
    obtain ⟨m'', ran, after⟩ := held.get map total enough key
    obtain ⟨rfl, rfl⟩ := Prod.mk.inj (Option.some.inj (happens.symm.trans ran))
    exact ⟨items, after, faithful.same rfl, faithful.lookup⟩
  | delete key rc =>
    obtain ⟨rc', m'', items', ran, outcome, after⟩ := held.delete map total enough key
    obtain ⟨rfl, rfl⟩ := Prod.mk.inj (Option.some.inj (happens.symm.trans ran))
    exact ⟨items', after, outcome.faithful faithful⟩
  | length count =>
    obtain ⟨m'', ran, after⟩ := held.length map total enough
    obtain ⟨rfl, rfl⟩ := Prod.mk.inj (Option.some.inj (happens.symm.trans ran))
    exact ⟨items, after, faithful.same rfl, faithful.count.symm⟩

theorem run_held {m₀ : Mem} {S₀ : Set Alloc} (run : TableRun n fuel hdr.ptr S₀ m₀ history S m) (enough : n ≤ fuel)
    (wide : p.valSize + 112 ≤ 2 ^ 64) (created : TableHeld n S₀ p hdr array [] m₀) (fits : KeysFit p history) :
    ∃ items, TableHeld n S p hdr array items m ∧ Faithful p items history := by
  induction run with
  | start => exact ⟨[], created, agrees_nil, by simp, by simp⟩
  | call run map total happens ih =>
    obtain ⟨items, held, faithful⟩ := ih fun key value rc mem => fits key value rc (List.mem_cons_of_mem _ mem)
    obtain ⟨items', after, longer, _⟩ := held.call faithful map total enough wide happens fun key value rc mem => by
      rw [List.mem_singleton] at mem
      exact fits key value rc (mem ▸ List.mem_cons_self)
    exact ⟨items', after, longer⟩
  | others run step ih =>
    obtain ⟨items, held, faithful⟩ := ih fits
    exact ⟨items, held.others step enough, faithful⟩

/-- hashtable_create brings a table without items. -/
theorem table_created (map : region.Mapped) (total : region.size = n) (enough : n ≤ fuel) (heap : HeapLive n m S)
    (bound : p.numBuckets * 8 + 112 ≤ 2 ^ 64) (wordK : p.keySize < 2 ^ 64) (wordV : p.valSize < 2 ^ 64) {h : Nat}
    (run : exec (hashtableCreate fuel region p.numBuckets p.keySize p.valSize) m = some (h, m')) (made : h ≠ 0) :
    ∃ hdr array, h = hdr.ptr ∧ TableHeld n S p hdr array [] m' := by
  have room : 2728 ≤ n := by
    obtain ⟨_, inv, _⟩ := heap
    exact Nat.le_trans (by decide) inv.room
  obtain ⟨h', m₁, L', μ', ran, outcome, beside, mine⟩ :=
    does_beside (does_tableCreate map total room enough bound wordK wordV) (beside_nothing heap)
  obtain ⟨rfl, rfl⟩ := Prod.mk.inj (Option.some.inj (run.symm.trans ran))
  obtain rfl | ⟨_, hdr, array, rfl, rfl, stands⟩ := outcome
  · exact absurd rfl made
  · exact ⟨hdr, array, rfl, beside, stands.congr mine⟩

end Runs

end OffsetStore
