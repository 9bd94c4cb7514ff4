import OffsetStore.AllocatorPool
import OffsetStore.HeapInit
import OffsetStore.HeapShape

/- Runs of allocator_alloc and allocator_free by any number of processes. Every
   process maps the region at an address of its own; a lock request may be answered
   by any number, in particular by an error or by the death of an owner. -/
namespace OffsetStore
open ByteMemory Program Prog Words Tiling CellChain Pool

inductive HeapRequest where
  | alloc (fuel size alignment : Nat)
  | free (ptr size : Nat)

inductive HeapResult where
  | allocated (result : Except OffsetStoreStatus Nat)
  | freed (status : OffsetStoreStatus)

def heapCode (region : ShmRegion) : HeapRequest → Code HeapResult
  | .alloc fuel size alignment => do
    let result ← allocatorAlloc fuel region size alignment
    return .allocated result
  | .free ptr _ => do
    let status ← allocatorFree region (add64 region.base ptr)
    return .freed status

/-- The clients know the live payloads: offset and requested size. -/
abbrev LivePayloads := Set (Nat × Nat)

inductive HeapStart (n : Nat) : LivePayloads → HeapRequest → LivePayloads → Prop where
  | alloc {live} (fuel : Nat) {size alignment : Nat} (bounded : size ≤ n) (word : alignment < 2 ^ 64) :
      HeapStart n live (.alloc fuel size alignment) live
  | free {live} {ptr size : Nat} (mem : (ptr, size) ∈ live) :
      HeapStart n live (.free ptr size) (live \ {(ptr, size)})

inductive HeapFinish (region : ShmRegion) :
    LivePayloads → HeapRequest → HeapResult → LivePayloads → Prop where
  | allocated {live} (fuel size alignment ptr : Nat) :
      HeapFinish region live (.alloc fuel size alignment) (.allocated (.ok ptr))
        (insert (region.offsetOf ptr, size) live)
  | refused {live} (fuel size alignment : Nat) (status : OffsetStoreStatus) :
      HeapFinish region live (.alloc fuel size alignment) (.allocated (.error status)) live
  | freed {live} (ptr size : Nat) : HeapFinish region live (.free ptr size) (.freed .ok) live
  | kept {live} (ptr size : Nat) {status : OffsetStoreStatus} (failed : status ≠ .ok) :
      HeapFinish region live (.free ptr size) (.freed status) (insert (ptr, size) live)

def heapRules (n : Nat) (regions : Nat → ShmRegion) : Rules Sys HeapResult LivePayloads HeapRequest where
  code p req := heapCode (regions p) req
  start := HeapStart n
  finish live p := HeapFinish (regions p) live
  writable live o w := ∃ x ∈ live, x.1 ≤ o ∧ o + w ≤ x.1 + x.2

/-- Notes that say nothing but what holds below the heap. -/
def plainNotes (base : Mem → Prop)
    (local_base : ∀ m m', SameOn m m' 0 2688 → base m → base m') : Notes Unit where
  holds _ _ _ := True
  base := base
  local_payload _ _ _ _ _ _ := trivial
  local_base := local_base

def heapOwns (live : LivePayloads) (held : Set (Alloc × Unit)) : Prop :=
  ∀ x, x ∈ live ↔ ∃ t ∈ held, (t.1.ptr, t.1.size) = x

def heapPost (region : ShmRegion) : HeapRequest → HeapResult → Set (Alloc × Unit) → Prop
  | .alloc _ size alignment, .allocated result, own => allocPost () region size alignment result own
  | .free ptr size, .freed status, own =>
      ∃ a : Alloc, a.ptr = ptr ∧ a.size = size ∧ freePost (a, ()) status own
  | _, _, _ => False

/-- The tokens of users whose payloads carry the note k and no other. -/
def usersOwn {K : Type} (k : K) (live : LivePayloads) (users : Set (Alloc × K)) : Prop :=
  (∀ t ∈ users, t.2 = k) ∧ ∀ x, x ∈ live ↔ ∃ t ∈ users, (t.1.ptr, t.1.size) = x

def usersPost {K : Type} (k : K) (region : ShmRegion) : HeapRequest → HeapResult → Set (Alloc × K) → Prop
  | .alloc _ size alignment, .allocated result, own => allocPost k region size alignment result own
  | .free ptr size, .freed status, own =>
      ∃ a : Alloc, a.ptr = ptr ∧ a.size = size ∧ freePost (a, k) status own
  | _, _, _ => False

section Users
variable {K : Type} {n : Nat} {regions : Nat → ShmRegion} {notes : Notes K} {k : K} {B : Set (Alloc × K)}

/-- Two live allocations with the same payload are one. -/
theorem Behind.ptr_injective {held : Set (Alloc × K)} {m : Mem} (tokens : Behind notes n B held m)
    {t u : Alloc × K} (ht : t ∈ held) (hu : u ∈ held) (same : t.1.ptr = u.1.ptr) : t = u := by
  obtain ⟨_, m₀, V, carries, _⟩ := tokens
  have liveT := (carries.live t.1).mpr ⟨t.2, Or.inl ht⟩
  have liveU := (carries.live u.1).mpr ⟨u.2, Or.inl hu⟩
  have boundsT := carries.inv.live_bounds liveT
  have boundsU := carries.inv.live_bounds liveU
  rcases carries.inv.live_apart liveT liveU with eq | left | right
  · refine Prod.ext eq (carries.single t.1 t.2 u.2 (Or.inl ht) (Or.inl ?_))
    rw [eq]
    exact hu
  · omega
  · omega

theorem users_start_behind (mapped : ∀ p, (regions p).Mapped) (sizes : ∀ p, (regions p).size = n)
    (large : 2728 ≤ n) (trivially : ∀ a m, notes.holds a k m) {live live' : LivePayloads}
    {req : HeapRequest} {users rest : Set (Alloc × K)} {m : Mem} (start : HeapStart n live req live')
    (owns : usersOwn k live users) (inv : Behind notes n B (users ∪ rest) m) :
    ∃ own users', own ∪ users' = users ∧ Disjoint own users' ∧ usersOwn k live' users' ∧
      ∀ p, Ready (Behind notes n B) (usersPost k (regions p) req) own (heapCode (regions p) req) := by
  have user := (mapped 0).user
  have total := sizes 0
  cases start with
  | alloc fuel bounded word =>
    refine ⟨∅, users, Set.empty_union _, Set.empty_disjoint _, owns, fun p => ?_⟩
    refine ready_bind (ready_of_attempt (ready_alloc_behind (mapped p) (sizes p) large trivially (by omega) word)
      fun _ _ holds => holds) ?_
    intro result own holds
    exact ready_ret holds
  | free mem =>
    rename_i ptr size
    obtain ⟨t, ht, same⟩ := (owns.2 _).mp mem
    obtain ⟨ptrEq, sizeEq⟩ := Prod.mk.inj same
    refine ⟨{t}, users \ {t}, ?_, Set.disjoint_sdiff_right, ⟨fun u hu => owns.1 u hu.1, ?_⟩, fun p => ?_⟩
    · exact Set.union_sdiff_cancel (Set.singleton_subset_iff.mpr ht)
    · intro x
      rw [Set.mem_sdiff, Set.mem_singleton_iff, owns.2 x]
      constructor
      · rintro ⟨⟨u, hu, eq⟩, other⟩
        refine ⟨u, ⟨hu, ?_⟩, eq⟩
        intro twin
        rw [Set.mem_singleton_iff] at twin
        exact other (by rw [← eq, twin, same])
      · rintro ⟨u, ⟨hu, other⟩, eq⟩
        refine ⟨⟨u, hu, eq⟩, ?_⟩
        intro twin
        rw [twin] at eq
        exact other (inv.ptr_injective (Or.inl hu) (Or.inl ht) ((Prod.mk.inj eq).1.trans ptrEq.symm))
    · have ready := @ready_free_behind K notes n (regions p) B (mapped p) (sizes p) t
      rw [ptrEq] at ready
      refine ready_bind ready ?_
      intro status own holds
      refine ready_ret ⟨t.1, ptrEq, sizeEq, ?_⟩
      have note : t = (t.1, k) := Prod.ext rfl (owns.1 t ht)
      rw [← note]
      exact holds

theorem users_finish_behind (mapped : ∀ p, (regions p).Mapped) (sizes : ∀ p, (regions p).size = n)
    {live live' : LivePayloads} {p : Nat} {req : HeapRequest} {result : HeapResult}
    {own users rest : Set (Alloc × K)} {m : Mem} (post : usersPost k (regions p) req result own)
    (finish : HeapFinish (regions p) live req result live') (owns : usersOwn k live users)
    (inv : Behind notes n B (own ∪ users ∪ rest) m) : usersOwn k live' (own ∪ users) := by
  have user := (mapped p).user
  have total := sizes p
  have single : ∀ a : Alloc, usersOwn k (insert (a.ptr, a.size) live) ({(a, k)} ∪ users) := by
    intro a
    refine ⟨?_, ?_⟩
    · rintro t (rfl | ht)
      · rfl
      · exact owns.1 t ht
    · intro x
      rw [Set.mem_insert_iff, owns.2 x]
      constructor
      · rintro (eq | ⟨t, ht, eq⟩)
        · exact ⟨(a, k), Or.inl rfl, eq.symm⟩
        · exact ⟨t, Or.inr ht, eq⟩
      · rintro ⟨t, rfl | ht, eq⟩
        · exact Or.inl eq.symm
        · exact Or.inr ⟨t, ht, eq⟩
  cases finish with
  | allocated fuel size alignment ptr =>
    obtain ⟨a, rfl, rfl, rfl, _⟩ := post
    obtain ⟨_, m₀, V, carries, _⟩ := inv
    have bounds := carries.inv.live_bounds ((carries.live a).mpr ⟨k, Or.inl (Or.inl (Or.inl rfl))⟩)
    have back : (regions p).offsetOf (add64 (regions p).base a.ptr) = a.ptr :=
      ShmRegion.Mapped.offsetOf_base (by omega)
    rw [back]
    exact single a
  | refused fuel size alignment status =>
    have empty : own = ∅ := post
    rw [empty, Set.empty_union]
    exact owns
  | freed ptr size =>
    obtain ⟨a, _, _, holds⟩ := post
    have empty : own = ∅ := holds
    rw [empty, Set.empty_union]
    exact owns
  | kept ptr size failed =>
    rename_i status
    obtain ⟨a, rfl, rfl, holds⟩ := post
    have kept : own = {(a, k)} := by
      cases status <;> first | exact holds | exact absurd rfl failed
    rw [kept]
    exact single a

/-- A write into the payload of a user is seen by no note. -/
theorem users_write_behind {live : LivePayloads} {o w v : Nat} {users rest : Set (Alloc × K)} {m : Mem}
    (trivially : ∀ a m, notes.holds a k m) (may : ∃ x ∈ live, x.1 ≤ o ∧ o + w ≤ x.1 + x.2)
    (owns : usersOwn k live users) (inv : Behind notes n B (users ∪ rest) m) :
    Behind notes n B (users ∪ rest) (store m o w v) := by
  obtain ⟨away, m₀, V, carries, veil⟩ := inv
  obtain ⟨x, hx, left, right⟩ := may
  obtain ⟨t, ht, same⟩ := (owns.2 x).mp hx
  have live := (carries.live t.1).mpr ⟨t.2, Or.inl (Or.inl ht)⟩
  have bounds := carries.inv.live_bounds live
  unfold heapBase at bounds
  rw [← same] at left right
  simp only at left right
  have inside : SameOff m₀ (store m₀ o w v) t.1.ptr (t.1.ptr + t.1.size) := SameOff.store left right
  refine ⟨away, _, V, carries.congr (carries.inv.write_payload live inside) ?_ ?_, veil.store o w v⟩
  · intro d k' mem
    rcases carries.inv.live_apart live ((carries.live d).mpr ⟨k', mem⟩) with eq | before | after
    · have note : k' = t.2 := carries.single d k' t.2 mem (eq ▸ Or.inl (Or.inl ht))
      rw [note, owns.1 t ht]
      exact trivially d _
    · exact notes.local_payload d k' _ _ (inside.on (Or.inr before)) (carries.holds d k' mem)
    · exact notes.local_payload d k' _ _ (inside.on (Or.inl after)) (carries.holds d k' mem)
  · exact notes.local_base _ _ (inside.on (Or.inl (by omega))) carries.base

/- Without dead allocations. -/

theorem users_start (mapped : ∀ p, (regions p).Mapped) (sizes : ∀ p, (regions p).size = n)
    (large : 2728 ≤ n) (trivially : ∀ a m, notes.holds a k m) {live live' : LivePayloads}
    {req : HeapRequest} {users rest : Set (Alloc × K)} {m : Mem} (start : HeapStart n live req live')
    (owns : usersOwn k live users) (inv : HeapTokens notes n (users ∪ rest) m) :
    ∃ own users', own ∪ users' = users ∧ Disjoint own users' ∧ usersOwn k live' users' ∧
      ∀ p, Ready (HeapTokens notes n) (usersPost k (regions p) req) own (heapCode (regions p) req) := by
  rw [← behind_none] at inv ⊢
  exact users_start_behind mapped sizes large trivially start owns inv

theorem users_finish (mapped : ∀ p, (regions p).Mapped) (sizes : ∀ p, (regions p).size = n)
    {live live' : LivePayloads} {p : Nat} {req : HeapRequest} {result : HeapResult}
    {own users rest : Set (Alloc × K)} {m : Mem} (post : usersPost k (regions p) req result own)
    (finish : HeapFinish (regions p) live req result live') (owns : usersOwn k live users)
    (inv : HeapTokens notes n (own ∪ users ∪ rest) m) : usersOwn k live' (own ∪ users) := by
  rw [← behind_none] at inv
  exact users_finish_behind mapped sizes post finish owns inv

theorem users_write {live : LivePayloads} {o w v : Nat} {users rest : Set (Alloc × K)} {m : Mem}
    (trivially : ∀ a m, notes.holds a k m) (may : ∃ x ∈ live, x.1 ≤ o ∧ o + w ≤ x.1 + x.2)
    (owns : usersOwn k live users) (inv : HeapTokens notes n (users ∪ rest) m) :
    HeapTokens notes n (users ∪ rest) (store m o w v) := by
  rw [← behind_none] at inv ⊢
  exact users_write_behind trivially may owns inv

end Users

section Sound
variable {n : Nat} {regions : Nat → ShmRegion} {notes : Notes Unit}

theorem usersOwn_unit {live : LivePayloads} {held : Set (Alloc × Unit)} :
    usersOwn () live held ↔ heapOwns live held := ⟨fun owns => owns.2, fun owns => ⟨fun _ _ => rfl, owns⟩⟩

theorem usersPost_unit {region : ShmRegion} {req : HeapRequest} {result : HeapResult}
    {own : Set (Alloc × Unit)} : usersPost () region req result own ↔ heapPost region req result own := by
  cases req <;> cases result <;> exact Iff.rfl

theorem heap_start (mapped : ∀ p, (regions p).Mapped) (sizes : ∀ p, (regions p).size = n)
    (large : 2728 ≤ n) (trivially : ∀ a m, notes.holds a () m) {live live' : LivePayloads}
    {req : HeapRequest} {held rest : Set (Alloc × Unit)} {m : Mem} (start : HeapStart n live req live')
    (owns : heapOwns live held) (inv : HeapTokens notes n (held ∪ rest) m) :
    ∃ own held', own ∪ held' = held ∧ Disjoint own held' ∧ heapOwns live' held' ∧
      ∀ p, Ready (HeapTokens notes n) (heapPost (regions p) req) own (heapCode (regions p) req) := by
  obtain ⟨own, held', whole, apart, left, ready⟩ :=
    users_start mapped sizes large trivially start (usersOwn_unit.mpr owns) inv
  exact ⟨own, held', whole, apart, usersOwn_unit.mp left,
    fun p => ready_weaken (ready p) fun _ _ post => usersPost_unit.mp post⟩

theorem heap_sound (mapped : ∀ p, (regions p).Mapped) (sizes : ∀ p, (regions p).size = n)
    (large : 2728 ≤ n) (trivially : ∀ a m, notes.holds a () m) :
    Sound (heapRules n regions) (HeapTokens notes n) heapOwns
      (fun p req => heapPost (regions p) req) where
  start := fun start owns _ inv => heap_start mapped sizes large trivially start owns inv
  finish := fun post finish owns _ inv =>
    usersOwn_unit.mp (users_finish mapped sizes (usersPost_unit.mpr post) finish (usersOwn_unit.mpr owns) inv)
  write := fun may owns inv => users_write trivially may (usersOwn_unit.mpr owns) inv

/-- A fresh heap, no live payload and no call in progress. -/
def heapOrigin (m : Mem) : State Sys HeapResult LivePayloads HeapRequest := ⟨m, ∅, fun _ => none⟩

theorem heap_origin_good {m : Mem} (inv : HeapInv n m (freshView n)) (base : notes.base m) :
    Good (HeapTokens notes n) heapOwns (fun p req => heapPost (regions p) req) (heapOrigin m) ∅
      (fun _ => ∅) := by
  refine ⟨?_, fun _ _ => rfl, ?_, fun _ _ _ => Set.empty_disjoint _, fun _ => Set.empty_disjoint _,
    ⟨freshView n, inv, fresh_intact n, ?_, ?_, ?_, base⟩⟩
  · intro x
    simp [heapOrigin]
  · intro p req q busy
    simp [heapOrigin] at busy
  · intro a
    simp [fresh_not_live, total]
  · intro a k k' _ _
    rfl
  · rintro a k (mem | ⟨q, mem⟩)
    · exact absurd mem (Set.notMem_empty _)
    · exact absurd mem (Set.notMem_empty _)

/-- The live payloads of a good state are those the clients know, and those of calls
   in progress. -/
theorem heap_good_safe (small : n < 2 ^ 32) {st : State Sys HeapResult LivePayloads HeapRequest}
    {held : Set (Alloc × Unit)} {own : Nat → Set (Alloc × Unit)}
    (good : Good (HeapTokens notes n) heapOwns (fun p req => heapPost (regions p) req) st held own) :
    ∃ payloads, HeapSafe n st.mem payloads ∧ st.client ⊆ payloads ∧
      ((∀ p, st.active p = none) → payloads = st.client) := by
  obtain ⟨V, carries⟩ := good.inv
  have known : ∀ x, x ∈ V.payloads ↔ ∃ t ∈ total held own, (t.1.ptr, t.1.size) = x := by
    intro x
    constructor
    · rintro ⟨a, live, same⟩
      obtain ⟨k, mem⟩ := (carries.live a).mp live
      exact ⟨(a, k), mem, same⟩
    · rintro ⟨t, mem, same⟩
      exact ⟨t.1, (carries.live t.1).mpr ⟨t.2, mem⟩, same⟩
  refine ⟨V.payloads, carries.inv.safe carries.intact small, ?_, ?_⟩
  · intro x mem
    obtain ⟨t, ht, same⟩ := (good.owns x).mp mem
    exact (known x).mpr ⟨t, Or.inl ht, same⟩
  · intro idle
    ext x
    rw [known x, good.owns x]
    constructor
    · rintro ⟨t, mem | ⟨p, mem⟩, same⟩
      · exact ⟨t, mem, same⟩
      · rw [good.idle p (idle p)] at mem
        exact absurd mem (Set.notMem_empty t)
    · rintro ⟨t, mem, same⟩
      exact ⟨t, Or.inl mem, same⟩

end Sound

/-- The heap invariant over whole runs: whatever allocator_init started from and
   whatever its locks answered, every interleaving of allocations, releases and
   client writes keeps the heap safe. -/
theorem heap_runs_safe {S : Type} {n : Nat} {regions : Nat → ShmRegion} {before m : Mem}
    {handle : Sys → S → Int × S} {env env' : S} (creator : Nat)
    {st : State Sys HeapResult LivePayloads HeapRequest} (small : n < 2 ^ 32)
    (mapped : ∀ p, (regions p).Mapped) (sizes : ∀ p, (regions p).size = n)
    (init : run handle (allocatorInit (regions creator)) before env = some (.ok, m, env'))
    (runs : Reachable (heapRules n regions) (heapOrigin m) st) :
    ∃ payloads, HeapSafe n st.mem payloads ∧ st.client ⊆ payloads ∧
      ((∀ p, st.active p = none) → payloads = st.client) := by
  have fresh := (run_allocatorInit (mapped creator) (sizes creator) init).inv
  have room := fresh.room
  unfold heapBase at room
  let notes : Notes Unit := plainNotes (fun _ => True) fun _ _ _ _ => trivial
  have trivially : ∀ a m, notes.holds a () m := fun _ _ => trivial
  have sound := heap_sound mapped sizes (by omega) trivially
  obtain ⟨held, own, good⟩ := good_reachable sound (heap_origin_good fresh trivial) runs
  exact heap_good_safe small good

/-- A fresh heap of 4096 bytes: a payload is written and released by another process, while one allocation is
    complete and one is waiting for its lock. -/
theorem heap_runs_safe_small :
    ∃ st payloads, Reachable (heapRules 4096 fun _ => smallRegion) (heapOrigin initialised) st ∧
      st.active 2 ≠ none ∧ st.client = {(3120, 200)} ∧ HeapSafe 4096 st.mem payloads ∧ (3120, 200) ∈ payloads := by
  have served : ((exec (allocatorAlloc 8 smallRegion 100 64) initialised).bind fun one =>
      (exec (allocatorAlloc 8 smallRegion 200 16) (store one.2 2816 8 77)).bind fun two =>
        (exec (allocatorFree smallRegion (add64 smallRegion.base 2816)) two.2).map fun out => (one.1, two.1, out.1)) =
      some (.ok (add64 smallRegion.base 2816), .ok (add64 smallRegion.base 3120), .ok) := by decide +kernel
  have init := initialised_run
  generalize initialised = m at served init ⊢
  obtain ⟨⟨one, m₁⟩, run₁, served⟩ := Option.bind_eq_some_iff.mp served
  obtain ⟨⟨two, m₂⟩, run₂, served⟩ := Option.bind_eq_some_iff.mp served
  obtain ⟨⟨out, m₃⟩, run₃, same⟩ := Option.map_eq_some_iff.mp served
  obtain ⟨rfl, rfl, rfl⟩ : one = .ok _ ∧ two = .ok _ ∧ out = .ok := by simpa using same
  have may : ∀ live size alignment, size ≤ 4096 → alignment < 2 ^ 64 →
      HeapStart 4096 live (.alloc 8 size alignment) live := fun _ _ _ small word => .alloc 8 small word
  have origin : Reachable (heapRules 4096 fun _ => smallRegion) (heapOrigin m) (heapOrigin m) := .refl
  have done₁ : exec (heapCode smallRegion (.alloc 8 100 64)) m = some (.allocated (.ok _), m₁) :=
    exec_bind_of_some run₁ _
  have made := reachable_return origin (p := 0) rfl (may _ 100 64 (by decide) (by decide)) done₁ (.allocated 8 100 64 _)
  rw [show smallRegion.offsetOf (add64 smallRegion.base 2816) = 2816 by decide] at made
  have inside : ∃ x ∈ insert (2816, 100) (∅ : LivePayloads), x.1 ≤ 2816 ∧ 2816 + 8 ≤ x.1 + x.2 :=
    ⟨(2816, 100), by simp, by simp, by simp⟩
  have wrote := made.step (.write 2816 8 77 inside)
  have waits := wrote.step (.call 2 _ _ (by simp [heapOrigin]) (may _ 40 16 (by decide) (by decide)))
  have done₂ : exec (heapCode smallRegion (.alloc 8 200 16)) (store m₁ 2816 8 77) = some (.allocated (.ok _), m₂) :=
    exec_bind_of_some run₂ _
  have more := reachable_return waits (p := 1) (by simp [heapOrigin]) (may _ 200 16 (by decide) (by decide)) done₂
    (.allocated 8 200 16 _)
  rw [show smallRegion.offsetOf (add64 smallRegion.base 3120) = 3120 by decide] at more
  have mem : (2816, 100) ∈ insert (3120, 200) (insert (2816, 100) (∅ : LivePayloads)) := by simp
  have done₃ : exec (heapCode smallRegion (.free 2816 100)) m₂ = some (.freed .ok, m₃) := exec_bind_of_some run₃ _
  have freed := reachable_return more (p := 0) (by simp [heapOrigin]) (.free mem) done₃ (.freed 2816 100)
  obtain ⟨payloads, safe, known, _⟩ := heap_runs_safe 0 (by decide) (fun _ => smallRegion_mapped)
    (fun _ => rfl) init freed
  have client : insert (3120, 200) (insert (2816, 100) (∅ : LivePayloads)) \ {(2816, 100)} = {(3120, 200)} := by
    ext x
    simp only [Set.mem_sdiff, Set.mem_insert_iff, Set.mem_empty_iff_false, or_false, Set.mem_singleton_iff]
    grind
  exact ⟨_, payloads, freed, by simp, client, safe, known (by simp)⟩

end OffsetStore
