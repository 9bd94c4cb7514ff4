import OffsetStore.Reuse
import OffsetStore.TableRoom

/- The hash table as a map: which keys it brings back, and how it fails for the others. -/
namespace OffsetStore
open ByteMemory Program Prog Words Pool KeyedHistory

def ReadsAs (n fuel h : Nat) (p : TableParams) (history : List TableEvent) (m : Mem) : Prop :=
  ∀ region : ShmRegion, region.Mapped → region.size = n → ∀ key, ∃ m',
    exec (hashtableGet fuel region h key) m = some (latest key.bytes (changes p.valSize history), m')

/-- What the next call on the table returns, after a history of calls. -/
structure ActsAsMap (n fuel h : Nat) (p : TableParams) (history : List TableEvent) (m : Mem) : Prop where
  get : ReadsAs n fuel h p history m
  delete : ∀ region : ShmRegion, region.Mapped → region.size = n → ∀ key, ∃ rc m',
    exec (hashtableDelete fuel region h key) m = some (rc, m') ∧
      (rc = 0 ↔ latest key.bytes (changes p.valSize history) ≠ none)
  length : ∀ region : ShmRegion, region.Mapped → region.size = n → ∃ m',
    exec (hashtableLength fuel region h) m = some ((present (changes p.valSize history)).ncard, m')
  put : ∀ region : ShmRegion, region.Mapped → region.size = n → ∀ key value, key.bytes.length ≤ p.keySize → ∃ rc m',
    exec (hashtablePut fuel region h key value) m = some (rc, m') ∧
      (latest key.bytes (changes p.valSize history) ≠ none → rc = 0) ∧ (rc ≠ 0 → ReadsAs n fuel h p history m')

section Histories
variable {n fuel h : Nat} {S S' : Set Alloc} {p : TableParams} {hdr array : Alloc} {items : List Item} {region : ShmRegion}
  {m m₀ m' : Mem} {history : List TableEvent}

theorem TableHeld.reads (held : TableHeld n S p hdr array items m) (faithful : Faithful p items history) (enough : n ≤ fuel) :
    ReadsAs n fuel hdr.ptr p history m := by
  intro region map total key
  obtain ⟨m', ran, _⟩ := held.get map total enough key
  exact ⟨m', faithful.lookup ▸ ran⟩

theorem TableHeld.acts (held : TableHeld n S p hdr array items m) (faithful : Faithful p items history) (enough : n ≤ fuel)
    (wide : p.valSize + 112 ≤ 2 ^ 64) (cut : p.keySize + 128 ≤ 2 ^ 64) : ActsAsMap n fuel hdr.ptr p history m := by
  refine ⟨held.reads faithful enough, ?_, ?_, ?_⟩
  · intro region map total key
    obtain ⟨rc, m', items', ran, outcome, _⟩ := held.delete map total enough key
    have right := (outcome.faithful faithful).2
    refine ⟨rc, m', ran, ?_⟩
    rw [right]
    split
    · rename_i none
      exact iff_of_false (by decide) (fun present => present none)
    · rename_i some
      exact iff_of_true rfl some
  · intro region map total
    obtain ⟨m', ran, _⟩ := held.length map total enough
    exact ⟨m', faithful.count ▸ ran⟩
  · intro region map total key value fits
    have bound : (key.bytes.take p.keySize).length + 128 ≤ 2 ^ 64 := by
      rw [List.length_take]
      omega
    obtain ⟨rc, m', items', ran, outcome, after⟩ := held.put map total enough bound wide value
    refine ⟨rc, m', ran, ?_⟩
    cases outcome with
    | updated => exact ⟨fun _ => rfl, fun failed => absurd rfl failed⟩
    | inserted => exact ⟨fun _ => rfl, fun failed => absurd rfl failed⟩
    | full misses =>
      exact ⟨fun found => absurd (faithful.latest_none misses) found, fun _ => after.reads faithful enough⟩

/-- A table whose parameters are no larger than the region acts as a map as long as no key of 2^32 characters or more
    is put into it. -/
theorem table_is_map (map : region.Mapped) (total : region.size = n) (enough : n ≤ fuel) (heap : HeapLive n m S)
    (buckets : p.numBuckets ≤ n) (keys : p.keySize ≤ n) (values : p.valSize ≤ n)
    (created : exec (hashtableCreate fuel region p.numBuckets p.keySize p.valSize) m = some (h, m₀)) (made : h ≠ 0)
    (run : TableRun n fuel h S m₀ history S' m')
    (cut : ∀ key value rc, .put key value rc ∈ history → key.bytes.length ≤ p.keySize)
    (short : ∀ key value rc, .put key value rc ∈ history → key.bytes.length < 2 ^ 32) :
    ActsAsMap n fuel h p history m' := by
  have user := map.user
  obtain ⟨hdr, array, rfl, start⟩ := table_created map total enough heap (by omega) (by omega) (by omega) created made
  obtain ⟨items, held, faithful⟩ := run_held run enough (by omega) start
    fun key value rc mem => ⟨cut key value rc mem, short key value rc mem⟩
  exact held.acts faithful enough (by omega) (by omega)

def shortKey : CString := ⟨[97, 98], by decide⟩

def otherKey : CString := ⟨[99], by decide⟩

/-- Two keys are put, one of them is changed and read, and the other one is deleted. -/
def smallHistory : List TableEvent :=
  [.delete otherKey 0, .get shortKey (some [9]), .put shortKey (fun _ => 9) 0, .put otherKey (fun _ => 8) 0,
    .put shortKey (fun _ => 7) 0]

theorem smallHistory_fits : KeysFit ⟨2, 4, 1⟩ smallHistory := by
  intro key value rc mem
  simp only [smallHistory, List.mem_cons, reduceCtorEq, TableEvent.put.injEq, List.not_mem_nil, or_false, false_or] at mem
  obtain ⟨rfl, _⟩ | ⟨rfl, _⟩ | ⟨rfl, _⟩ := mem <;> exact ⟨by decide, by decide⟩

/-- A table of two buckets for keys of up to four characters, while somebody else allocates. -/
theorem smallHistory_run : ∃ m₀ S m, exec (hashtableCreate 4096 smallRegion 2 4 1) initialised = some (2784, m₀) ∧
    TableRun 4096 4096 2784 ∅ m₀ smallHistory S m := by
  have served : ((exec (hashtableCreate 4096 smallRegion 2 4 1) initialised).bind fun made =>
      (exec (hashtablePut 4096 smallRegion 2784 shortKey fun _ => 7) made.2).bind fun one =>
        (exec (hashtablePut 4096 smallRegion 2784 otherKey fun _ => 8) one.2).bind fun two =>
          (exec (allocatorAlloc 4096 smallRegion 100 16) two.2).bind fun other =>
            (exec (hashtablePut 4096 smallRegion 2784 shortKey fun _ => 9) other.2).bind fun three =>
              (exec (hashtableGet 4096 smallRegion 2784 shortKey) three.2).bind fun four =>
                (exec (hashtableDelete 4096 smallRegion 2784 otherKey) four.2).map fun five =>
                  ((made.1, other.1), [one.1, two.1, three.1, five.1], four.1)) =
      some ((2784, .ok (smallRegion.base + 3456)), [0, 0, 0, 0], some [9]) := by decide +kernel
  obtain ⟨⟨h, m₀⟩, created, served⟩ := Option.bind_eq_some_iff.mp served
  obtain ⟨⟨one, m₁⟩, run₁, served⟩ := Option.bind_eq_some_iff.mp served
  obtain ⟨⟨two, m₂⟩, run₂, served⟩ := Option.bind_eq_some_iff.mp served
  obtain ⟨⟨other, m₃⟩, run₃, served⟩ := Option.bind_eq_some_iff.mp served
  obtain ⟨⟨three, m₄⟩, run₄, served⟩ := Option.bind_eq_some_iff.mp served
  obtain ⟨⟨four, m₅⟩, run₅, served⟩ := Option.bind_eq_some_iff.mp served
  obtain ⟨⟨five, m₆⟩, run₆, same⟩ := Option.map_eq_some_iff.mp served
  simp only [Prod.mk.injEq, List.cons.injEq, and_true] at same
  obtain ⟨⟨rfl, rfl⟩, ⟨rfl, rfl, rfl, rfl⟩, rfl⟩ := same
  have call : ∀ {history S m m'} (event : TableEvent), TableRun 4096 4096 2784 ∅ m₀ history S m →
      event.Happens 4096 smallRegion 2784 m m' → TableRun 4096 4096 2784 ∅ m₀ (event :: history) S m' :=
    fun _ run happens => run.call smallRegion_mapped rfl happens
  have puts := call (.put otherKey (fun _ => 8) 0) (call (.put shortKey (fun _ => 7) 0) .start run₁) run₂
  have shared := puts.others (.alloc smallRegion_mapped rfl (by decide) (by decide) run₃)
  exact ⟨m₀, _, m₆, created, call (.delete otherKey 0) (call (.get shortKey (some [9]))
    (call (.put shortKey (fun _ => 9) 0) shared run₄) run₅) run₆⟩

theorem table_is_map_small : ∃ m₀ S m, exec (hashtableCreate 4096 smallRegion 2 4 1) initialised = some (2784, m₀) ∧
    TableRun 4096 4096 2784 ∅ m₀ smallHistory S m ∧ ActsAsMap 4096 4096 2784 ⟨2, 4, 1⟩ smallHistory m := by
  obtain ⟨m₀, S, m, created, run⟩ := smallHistory_run
  exact ⟨m₀, S, m, created, run, table_is_map (p := ⟨2, 4, 1⟩) smallRegion_mapped rfl (Nat.le_refl _)
    heapLive_initialised (by decide) (by decide) (by decide) created (by decide) run
    (fun key value rc mem => (smallHistory_fits key value rc mem).1)
    (fun key value rc mem => (smallHistory_fits key value rc mem).2)⟩

section Long

def longKey : CString := ⟨List.replicate (2 ^ 32) 97, fun mem => absurd (List.eq_of_mem_replicate mem) (by decide)⟩

theorem longKey_length : longKey.bytes.length = 2 ^ 32 := List.length_replicate

/-- It is put into a fresh table of a region of 2^35 bytes, and not found there. -/
theorem long_key_lost : ∃ m m₀ m₁ m₂,
    run (fun (_ : Sys) (s : Unit) => (0, s)) (allocatorInit wideRegion) (fun _ => 0) () = some (.ok, m, ()) ∧
    exec (hashtableCreate (2 ^ 35) wideRegion 1 (2 ^ 32) 1) m = some (2784, m₀) ∧
    exec (hashtablePut (2 ^ 35) wideRegion 2784 longKey fun _ => 7) m₀ = some (0, m₁) ∧
    exec (hashtableGet (2 ^ 35) wideRegion 2784 longKey) m₁ = some (none, m₂) := by
  have map : wideRegion.Mapped := ⟨by decide, by decide⟩
  have calls : (run (fun (_ : Sys) (s : Unit) => (0, s)) (allocatorInit wideRegion) (fun _ => 0) ()).bind (fun out =>
      (exec (hashtableCreate (2 ^ 35) wideRegion 1 (2 ^ 32) 1) out.2.1).map fun made => (out.1,
        [made.1, load made.2 (headCell 3) 8, load made.2 25769804460 8])) =
          some (.ok, [2784, 25769804460, 8589933908]) := by decide +kernel
  obtain ⟨⟨status, m, _⟩, init, second⟩ := Option.bind_eq_some_iff.mp calls
  obtain ⟨⟨h, m₀⟩, created, same⟩ := Option.map_eq_some_iff.mp second
  simp only [Prod.mk.injEq, List.cons.injEq, and_true] at same
  obtain ⟨rfl, rfl, head, width⟩ := same
  have fresh := (run_allocatorInit map rfl init).inv
  have live : ∀ a, (freshView (2 ^ 35)).Live a ↔ a ∈ (∅ : Set Alloc) := fun a => by simp [fresh_not_live]
  obtain ⟨hdr, array, handle, held⟩ := table_created (p := ⟨1, 2 ^ 32, 1⟩) map rfl (Nat.le_refl _)
    ⟨freshView (2 ^ 35), fresh, fresh_intact _, live⟩ (by decide) (by decide) (by decide) created (by decide)
  have whole : longKey.bytes.take (2 ^ 32) = longKey.bytes := List.take_of_length_le (Nat.le_of_eq longKey_length)
  obtain ⟨V, inv, _, liveV⟩ := held.beside.heap
  obtain ⟨post, listed⟩ := inv.head_listed (show 3 < 4 by decide) head (by decide)
  obtain ⟨b, mem, start, free⟩ := (inv.shards 3 (by decide)).block_of_free (x := 25769804460) (by simp [listed])
  have size : b.size = 8589933908 := by rw [← ((inv.shards 3 (by decide)).repr b mem).size, start, width]
  have roomy : Roomy (2 ^ 35) m₀ hdr m₀ (roomFor (longKey.bytes.take (2 ^ 32)).length 1) := by
    refine ⟨V, inv, (liveV hdr).mpr (Or.inl tableFoot_header), ⟨3, by decide, b, mem, free, ?_⟩, SameOn.refl _ _ _⟩
    rw [whole, longKey_length, size]
    decide
  have small : roomFor (longKey.bytes.take (2 ^ 32)).length 1 ≤ 2 ^ 35 := by
    rw [whole, longKey_length]
    decide
  obtain ⟨m₁, it, put, stored, after⟩ := put_succeeds (p := ⟨1, 2 ^ 32, 1⟩) held map rfl (Nat.le_refl _)
    (fun x none => absurd none List.not_mem_nil) roomy small fun _ => 7
  obtain ⟨m₂, got, _⟩ := after.get map rfl (Nat.le_refl _) longKey
  have misses : lookupItem ⟨1, 2 ^ 32, 1⟩ longKey [it] = none := by
    refine lookup_none fun x mem answers => ?_
    have length := answers.2.1
    have chars : x.stored = longKey.bytes := (List.mem_singleton.mp mem).symm ▸ stored.trans whole
    rw [chars, longKey_length, Nat.mod_self] at length
    omega
  rw [misses] at got
  rw [← handle] at put got
  exact ⟨m, m₀, m₁, m₂, init, created, put, got⟩

end Long

/-- A put that succeeded is read back until its key is changed again, each key counts once, and what was never put is
    not found. -/
structure ReadsBack (n fuel h : Nat) (p : TableParams) (history : List TableEvent) (m : Mem) : Prop where
  found : ∀ key value later earlier, history = later ++ .put key value 0 :: earlier →
    (∀ event ∈ later, ∀ c ∈ event.change p.valSize, c.key ≠ key.bytes) →
    ∀ region : ShmRegion, region.Mapped → region.size = n →
      (∃ m', exec (hashtableGet fuel region h key) m = some (some (loadBytes value 0 p.valSize), m')) ∧
      ∃ m', exec (hashtableDelete fuel region h key) m = some (0, m')
  once : ∀ region : ShmRegion, region.Mapped → region.size = n → ∃ m',
    exec (hashtableLength fuel region h) m = some ((present (changes p.valSize history)).ncard, m')
  only : ∀ region : ShmRegion, region.Mapped → region.size = n → ∀ key, (∀ value, .put key value 0 ∉ history) →
    ∃ m', exec (hashtableGet fuel region h key) m = some (none, m')

/-- What was put is read back when no key is longer than the table's key size or its length field, and the sizes that the
    table is created with do not wrap. -/
theorem put_reads_back (map : region.Mapped) (total : region.size = n) (enough : n ≤ fuel) (heap : HeapLive n m S)
    (buckets : p.numBuckets * 8 + 112 ≤ 2 ^ 64) (wordK : p.keySize < 2 ^ 64) (values : p.valSize + 112 ≤ 2 ^ 64)
    (created : exec (hashtableCreate fuel region p.numBuckets p.keySize p.valSize) m = some (h, m₀)) (made : h ≠ 0)
    (run : TableRun n fuel h S m₀ history S' m') (fits : KeysFit p history) : ReadsBack n fuel h p history m' := by
  obtain ⟨hdr, array, rfl, start⟩ := table_created map total enough heap buckets wordK (by omega) created made
  obtain ⟨items, held, faithful⟩ := run_held run enough values start fits
  refine ⟨?_, ?_, ?_⟩
  · rintro key value later earlier rfl others region map total
    have value : latest key.bytes (changes p.valSize (later ++ .put key value 0 :: earlier)) =
        some (loadBytes value 0 p.valSize) := by
      have step : changes p.valSize (later ++ .put key value 0 :: earlier) =
          changes p.valSize later ++ .put key.bytes (loadBytes value 0 p.valSize) :: changes p.valSize earlier := by
        simp [changes, TableEvent.change]
      rw [step]
      refine latest_of_put fun c mem => ?_
      obtain ⟨event, me, same⟩ := List.mem_filterMap.mp mem
      exact others event me c same
    refine ⟨?_, ?_⟩
    · obtain ⟨m', ran⟩ := held.reads faithful enough region map total key
      exact ⟨m', value ▸ ran⟩
    · obtain ⟨rc, m', items', ran, outcome, _⟩ := held.delete map total enough key
      have right := (outcome.faithful faithful).2
      rw [Right, value, if_neg (by simp)] at right
      exact ⟨m', right ▸ ran⟩
  · intro region map total
    obtain ⟨m', ran, _⟩ := held.length map total enough
    exact ⟨m', faithful.count ▸ ran⟩
  · intro region map total key never
    obtain ⟨m', ran⟩ := held.reads faithful enough region map total key
    refine ⟨m', ?_⟩
    cases value : latest key.bytes (changes p.valSize history) with
    | none => rwa [value] at ran
    | some v =>
      obtain ⟨event, mem, same⟩ := List.mem_filterMap.mp (put_of_latest value)
      cases event with
      | put other bytes rc =>
        simp only [TableEvent.change, Option.ite_none_right_eq_some, Option.some.injEq, Change.put.injEq] at same
        obtain ⟨rfl, chars, _⟩ := same
        exact absurd (CString.eq_of_bytes chars ▸ mem) (never bytes)
      | get => simp [TableEvent.change] at same
      | delete => simp [TableEvent.change] at same
      | length => simp [TableEvent.change] at same

theorem put_reads_back_small : ∃ m₀ S m, exec (hashtableCreate 4096 smallRegion 2 4 1) initialised = some (2784, m₀) ∧
    TableRun 4096 4096 2784 ∅ m₀ smallHistory S m ∧ ReadsBack 4096 4096 2784 ⟨2, 4, 1⟩ smallHistory m := by
  obtain ⟨m₀, S, m, created, run⟩ := smallHistory_run
  exact ⟨m₀, S, m, created, run, put_reads_back (p := ⟨2, 4, 1⟩) smallRegion_mapped rfl (Nat.le_refl _)
    heapLive_initialised (by decide) (by decide) (by decide) created (by decide) run smallHistory_fits⟩

/-- A key of two characters is put into a table for keys of one, and not found there. -/
theorem cut_key_lost : ∃ m₀ m₁ m₂, exec (hashtableCreate 4096 smallRegion 1 1 1) initialised = some (2784, m₀) ∧
    exec (hashtablePut 4096 smallRegion 2784 shortKey fun _ => 7) m₀ = some (0, m₁) ∧
    exec (hashtableGet 4096 smallRegion 2784 shortKey) m₁ = some (none, m₂) := by
  have calls : (exec (hashtableCreate 4096 smallRegion 1 1 1 >>= fun h =>
      hashtablePut 4096 smallRegion 2784 shortKey (fun _ => 7) >>= fun rc =>
      hashtableGet 4096 smallRegion 2784 shortKey >>= fun value => ret (h, rc, value)) initialised).map Prod.fst =
        some (2784, 0, none) := by decide +kernel
  obtain ⟨⟨out, m₃⟩, result, same⟩ := Option.map_eq_some_iff.mp calls
  obtain ⟨h, m₀, created, rest⟩ := exec_bind_some result
  obtain ⟨rc, m₁, put, rest⟩ := exec_bind_some rest
  obtain ⟨value, m₂, got, ends⟩ := exec_bind_some rest
  simp only [exec_ret, Option.some.injEq, Prod.mk.injEq] at ends same
  obtain ⟨rfl, rfl⟩ := ends
  simp only [Prod.mk.injEq] at same
  obtain ⟨rfl, rfl, rfl⟩ := same
  exact ⟨m₀, m₁, m₂, created, put, got⟩

end Histories

end OffsetStore
