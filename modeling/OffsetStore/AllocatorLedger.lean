import OffsetStore.AllocatorRuns

/- Runs of allocator_alloc and allocator_free against the abstract heap: in every state
   that any interleaving reaches, memory carries a view that the abstract heap reaches
   from the fresh one, and the counter of the header tells how many requests have found
   no room so far. -/
namespace OffsetStore
open ByteMemory Program Prog Words Tiling CellChain Pool

/-- The abstract heap after any number of steps. -/
def ViewReach (n : Nat) : HeapView → Prop := Relation.ReflTransGen ViewStep (freshView n)

/-- A live allocation, or a request that found no room. -/
abbrev LedgerToken := Alloc ⊕ Nat

structure LedgerPage (n : Nat) (V : HeapView) (failures : Nat) (A : Set LedgerToken) (m : Mem) : Prop where
  inv : HeapInv n m V
  reached : ViewReach n V
  live : ∀ a, V.Live a ↔ .inl a ∈ A
  counter : load m 2720 8 = failures % 2 ^ 64
  failed : ∀ i, .inr i ∈ A ↔ i < failures

def Ledger (n : Nat) (A : Set LedgerToken) (m : Mem) : Prop := ∃ V failures, LedgerPage n V failures A m

/-- The clients know the live payloads and how many requests were answered out of memory. -/
abbrev LedgerClient := LivePayloads × Nat

def HeapResult.failures : HeapResult → Nat
  | .allocated (.error .outOfMemory) => 1
  | _ => 0

/-- A client asks for any number of bytes whose computation stays below 2^64, or gives a payload
    back. -/
inductive LedgerStart : LivePayloads → HeapRequest → LivePayloads → Prop where
  | alloc {live} (fuel : Nat) {size alignment : Nat} (sized : size < 2 ^ 62 ∨ size + alignment + 96 ≤ 2 ^ 64)
      (word : alignment < 2 ^ 64) : LedgerStart live (.alloc fuel size alignment) live
  | free {live} {ptr size : Nat} (mem : (ptr, size) ∈ live) : LedgerStart live (.free ptr size) (live \ {(ptr, size)})

/-- The allocator's rules with a count of the failures. -/
def ledgerRules (regions : Nat → ShmRegion) : Rules Sys HeapResult LedgerClient HeapRequest where
  code p req := heapCode (regions p) req
  start k req k' := LedgerStart k.1 req k'.1 ∧ k'.2 = k.2
  finish k p req result k' := HeapFinish (regions p) k.1 req result k'.1 ∧ k'.2 = k.2 + result.failures
  writable k o w := ∃ x ∈ k.1, x.1 ≤ o ∧ o + w ≤ x.1 + x.2

def ledgerOwns (k : LedgerClient) (held : Set LedgerToken) : Prop :=
  (∀ x, x ∈ k.1 ↔ ∃ a, .inl a ∈ held ∧ (a.ptr, a.size) = x) ∧
    ∃ failed : Finset Nat, failed.card = k.2 ∧ ∀ i, .inr i ∈ held ↔ i ∈ failed

def ledgerFresh (a : Alloc) (own : Set LedgerToken) : Prop := own = {.inl a}
def ledgerFailed (own : Set LedgerToken) : Prop := ∃ i, own = {.inr i}

def ledgerPost (region : ShmRegion) : HeapRequest → HeapResult → Set LedgerToken → Prop
  | .alloc _ size alignment, .allocated result, own =>
      allocResult ledgerFresh ledgerFailed region size alignment result own
  | .free ptr size, .freed status, own => ∃ a : Alloc, a.ptr = ptr ∧ a.size = size ∧ freeResult {.inl a} status own
  | _, _, _ => False

theorem view_intact {n : Nat} {V : HeapView} (reach : ViewReach n V) : V.Intact := by
  induction reach with
  | refl => exact fresh_intact n
  | tail _ step ih =>
    cases step with
    | take shard here list free fits =>
      unfold takenShard
      split
      · exact intact_replace ih here [_, _] _ (by simp)
      · exact intact_replace ih here [_] _ (by simp)
    | release shard here live => exact intact_replace ih here [_] _ (by simp)

namespace LedgerPage
variable {n c : Nat} {V V' : HeapView} {A : Set LedgerToken} {m m' : Mem} {a : Alloc} {s : Nat}

theorem take (page : LedgerPage n V c A m) (step : ViewStep V V') (taken : Taken n m m' V V' a)
    (frame : ShardFrame n s m m') (shard : s < 4) : LedgerPage n V' c ({.inl a} ∪ A) m' := by
  refine ⟨taken.inv, page.reached.tail step, ?_, ?_, ?_⟩
  · intro d
    rw [taken.live d, page.live d]
    simp [or_comm]
  · rw [frame.failures shard, page.counter]
  · intro i
    simp [page.failed i]

theorem release (page : LedgerPage n V c ({.inl a} ∪ A) m) (apart : Disjoint {.inl a} A) (step : ViewStep V V')
    (released : Released n m m' V V' a) (frame : ShardFrame n s m m') (shard : s < 4) : LedgerPage n V' c A m' := by
  refine ⟨released.inv, page.reached.tail step, ?_, ?_, ?_⟩
  · intro d
    have gone : .inl a ∉ A := Set.disjoint_singleton_left.mp apart
    rw [released.live d, page.live d]
    constructor
    · rintro ⟨same | mem, other⟩
      · exact absurd (Sum.inl.inj same) other
      · exact mem
    · intro mem
      refine ⟨Or.inr mem, ?_⟩
      rintro rfl
      exact gone mem
  · rw [frame.failures shard, page.counter]
  · intro i
    have failed := page.failed i
    simpa using failed

theorem fail (page : LedgerPage n V c A m) :
    LedgerPage n V (c + 1) ({.inr c} ∪ A) (store m 2720 8 (load m 2720 8 + 1)) := by
  refine ⟨?_, page.reached, ?_, ?_, ?_⟩
  · exact page.inv.congr (SameOn.store (by omega)) (SameOn.store (by omega))
  · intro d
    simp [page.live d]
  · have counter := page.counter
    rw [load_store_mod]
    omega
  · intro i
    have failed := page.failed i
    simp only [Set.singleton_union, Set.mem_insert_iff, Sum.inr.injEq, failed]
    omega

/-- A write into a live payload. -/
theorem write {o w v : Nat} (page : LedgerPage n V c A m) (live : .inl a ∈ A) (low : a.ptr ≤ o)
    (high : o + w ≤ a.ptr + a.size) : LedgerPage n V c A (store m o w v) := by
  have bounds := page.inv.live_bounds ((page.live a).mpr live)
  unfold heapBase at bounds
  refine ⟨page.inv.write_payload ((page.live a).mpr live) (SameOff.store low high), page.reached, page.live, ?_,
    page.failed⟩
  rw [load_store_apart (by omega), page.counter]

theorem ptr_injective {d : Alloc} (page : LedgerPage n V c A m) (ha : .inl a ∈ A) (hd : .inl d ∈ A)
    (same : a.ptr = d.ptr) : a = d := by
  have liveA := (page.live a).mpr ha
  have liveD := (page.live d).mpr hd
  have boundsA := page.inv.live_bounds liveA
  have boundsD := page.inv.live_bounds liveD
  rcases page.inv.live_apart liveA liveD with eq | left | right
  · exact eq
  · omega
  · omega

end LedgerPage

section Calls
variable {n : Nat}

theorem ledger_lends (word : n < 2 ^ 64) : Lends n (Ledger n) ledgerFresh ledgerFailed where
  takes := by
    rintro A m ⟨V, c, page⟩
    refine ⟨m, V, page.inv, shows_self n V m, ?_⟩
    intro s x pre post a shard list fits
    obtain ⟨V', step, taken, frame⟩ := page.inv.taken_step word shard list fits
    refine ⟨{Sum.inl a}, ?_, rfl, V', c, page.take step taken frame shard⟩
    exact Set.disjoint_singleton_left.mpr fun mem => taken.fresh ((page.live a).mpr mem)
  fails := by
    rintro A m ⟨V, c, page⟩
    refine ⟨{Sum.inr c}, ?_, ⟨c, rfl⟩, V, c + 1, page.fail⟩
    exact Set.disjoint_singleton_left.mpr fun mem => absurd ((page.failed c).mp mem) (Nat.lt_irrefl c)

theorem ledger_pledge (word : n < 2 ^ 64) (a : Alloc) : Pledge n (Ledger n) a {.inl a} where
  redeems := by
    rintro A m apart ⟨V, c, page⟩
    have live : V.Live a := (page.live a).mpr (Or.inl rfl)
    refine ⟨m, V, page.inv, shows_self n V m, live, SameOn.refl m _ _, fun _ => ?_⟩
    obtain ⟨s, shard, b, mb, kind, fits, _⟩ := page.inv.live_block live
    obtain ⟨V', step, released, frame⟩ := page.inv.released_step word shard mb kind
    rw [← fits.owner, ← fits.block] at released frame
    exact ⟨V', c, page.release apart step released frame (by rw [fits.owner]; exact shard)⟩

end Calls

section Sound
variable {n : Nat} {regions : Nat → ShmRegion} {k k' : LedgerClient} {req : HeapRequest} {held rest : Set LedgerToken}
  {m : Mem}

theorem ledger_start (mapped : ∀ p, (regions p).Mapped) (sizes : ∀ p, (regions p).size = n) (large : 2728 ≤ n)
    (start : LedgerStart k.1 req k'.1 ∧ k'.2 = k.2) (owns : ledgerOwns k held) (inv : Ledger n (held ∪ rest) m) :
    ∃ own held', own ∪ held' = held ∧ Disjoint own held' ∧ ledgerOwns k' held' ∧
      ∀ p, Ready (Ledger n) (ledgerPost (regions p) req) own (heapCode (regions p) req) := by
  have user := (mapped 0).user
  have total := sizes 0
  obtain ⟨live, failures⟩ := k
  obtain ⟨live', failures'⟩ := k'
  dsimp only at start
  obtain ⟨start, rfl⟩ := start
  obtain ⟨knows, failed, count, marks⟩ := owns
  cases start with
  | alloc fuel sized word =>
    refine ⟨∅, held, Set.empty_union _, Set.empty_disjoint _, ⟨knows, failed, count, marks⟩, fun p => ?_⟩
    have lends := ledger_lends (by omega : n < 2 ^ 64)
    refine ready_bind (ready_of_attempt (ready_alloc_lent lends (mapped p) (sizes p) large sized word)
      fun _ _ holds => holds) ?_
    intro result own holds
    exact ready_ret holds
  | free mem =>
    rename_i ptr size
    obtain ⟨a, ha, same⟩ := (knows _).mp mem
    obtain ⟨rfl, rfl⟩ := Prod.mk.inj same
    refine ⟨{.inl a}, held \ {.inl a}, ?_, Set.disjoint_sdiff_right, ⟨?_, failed, count, ?_⟩, fun p => ?_⟩
    · exact Set.union_sdiff_cancel (Set.singleton_subset_iff.mpr ha)
    · intro x
      obtain ⟨V, c, page⟩ := inv
      rw [Set.mem_sdiff, Set.mem_singleton_iff, knows x]
      constructor
      · rintro ⟨⟨d, hd, rfl⟩, other⟩
        refine ⟨d, ⟨hd, ?_⟩, rfl⟩
        intro twin
        rw [Set.mem_singleton_iff] at twin
        exact other (by rw [Sum.inl.inj twin])
      · rintro ⟨d, ⟨hd, other⟩, rfl⟩
        refine ⟨⟨d, hd, rfl⟩, ?_⟩
        intro twin
        have eq := page.ptr_injective (Or.inl hd) (Or.inl ha) (Prod.mk.inj twin).1
        exact other (by rw [eq]; rfl)
    · intro i
      simpa using marks i
    · have pledge := ledger_pledge (by omega : n < 2 ^ 64) a
      refine ready_bind (ready_free_pledged pledge (mapped p) (sizes p)) ?_
      intro status own holds
      exact ready_ret ⟨a, rfl, rfl, holds⟩

theorem ledger_finish (mapped : ∀ p, (regions p).Mapped) (sizes : ∀ p, (regions p).size = n) {p : Nat}
    {result : HeapResult} {own : Set LedgerToken} (post : ledgerPost (regions p) req result own)
    (finish : HeapFinish (regions p) k.1 req result k'.1 ∧ k'.2 = k.2 + result.failures) (owns : ledgerOwns k held)
    (apart : Disjoint own held) (inv : Ledger n (own ∪ held ∪ rest) m) : ledgerOwns k' (own ∪ held) := by
  have user := (mapped p).user
  have total := sizes p
  obtain ⟨live, failures⟩ := k
  obtain ⟨live', failures'⟩ := k'
  dsimp only at finish
  obtain ⟨finish, rfl⟩ := finish
  have single : ∀ a : Alloc, ledgerOwns (insert (a.ptr, a.size) live, failures) ({.inl a} ∪ held) := by
    intro a
    obtain ⟨knows, failed, count, marks⟩ := owns
    refine ⟨?_, failed, count, ?_⟩
    · intro x
      rw [Set.mem_insert_iff, knows x]
      constructor
      · rintro (rfl | ⟨d, hd, rfl⟩)
        · exact ⟨a, Or.inl rfl, rfl⟩
        · exact ⟨d, Or.inr hd, rfl⟩
      · rintro ⟨d, new | hd, rfl⟩
        · exact Or.inl (by rw [Sum.inl.inj new])
        · exact Or.inr ⟨d, hd, rfl⟩
    · intro i
      simpa using marks i
  cases finish with
  | allocated fuel size alignment ptr =>
    obtain ⟨a, rfl, rfl, rfl, _⟩ := post
    obtain ⟨V, c, page⟩ := inv
    have bounds := page.inv.live_bounds ((page.live a).mpr (Or.inl (Or.inl rfl)))
    have back : (regions p).offsetOf (add64 (regions p).base a.ptr) = a.ptr :=
      ShmRegion.Mapped.offsetOf_base (by omega)
    rw [back]
    exact single a
  | refused fuel size alignment status =>
    cases status with
    | outOfMemory =>
      obtain ⟨i, rfl⟩ : ledgerFailed own := post
      obtain ⟨knows, failed, count, marks⟩ := owns
      have new : i ∉ failed := fun mem => Set.disjoint_singleton_left.mp apart ((marks i).mpr mem)
      refine ⟨?_, insert i failed, ?_, ?_⟩
      · intro x
        simpa using knows x
      · rw [Finset.card_insert_of_notMem new, count]
        rfl
      · intro j
        simp [marks j]
    | _ =>
      have empty : own = ∅ := post
      rw [empty, Set.empty_union]
      exact owns
  | freed ptr size =>
    obtain ⟨a, _, _, holds⟩ := post
    have empty : own = ∅ := holds
    rw [empty, Set.empty_union]
    exact owns
  | kept ptr size failed =>
    rename_i status
    obtain ⟨a, rfl, rfl, holds⟩ := post
    have kept : own = {.inl a} := by
      cases status <;> first | exact holds | exact absurd rfl failed
    rw [kept]
    exact single a

theorem ledger_sound (mapped : ∀ p, (regions p).Mapped) (sizes : ∀ p, (regions p).size = n) (large : 2728 ≤ n) :
    Sound (ledgerRules regions) (Ledger n) ledgerOwns (fun p req => ledgerPost (regions p) req) where
  start := fun start owns _ inv => ledger_start mapped sizes large start owns inv
  finish := fun post finish owns apart inv => ledger_finish mapped sizes post finish owns apart inv
  write := by
    rintro k o w v held rest m ⟨x, hx, low, high⟩ owns ⟨V, c, page⟩
    obtain ⟨a, ha, rfl⟩ := (owns.1 x).mp hx
    exact ⟨V, c, page.write (Or.inl ha) low high⟩

/-- A fresh heap, no live payload, no failure and no call in progress. -/
def ledgerOrigin (m : Mem) : State Sys HeapResult LedgerClient HeapRequest := ⟨m, (∅, 0), fun _ => none⟩

theorem ledger_origin_good (inv : HeapInv n m (freshView n)) (zero : load m 2720 8 = 0) :
    Good (Ledger n) ledgerOwns (fun p req => ledgerPost (regions p) req) (ledgerOrigin m) ∅ (fun _ => ∅) := by
  refine ⟨⟨?_, ∅, rfl, ?_⟩, fun _ _ => rfl, ?_, fun _ _ _ => Set.empty_disjoint _, fun _ => Set.empty_disjoint _,
    ⟨freshView n, 0, inv, .refl, ?_, zero, ?_⟩⟩
  · intro x
    simp [ledgerOrigin]
  · intro i
    simp
  · intro p req q busy
    simp [ledgerOrigin] at busy
  · intro a
    simp [fresh_not_live, total]
  · intro i
    simp [total]

/-- What memory looks like in every state of every run. -/
theorem ledger_runs {S : Type} {before : Mem} {handle : Sys → S → Int × S} {env env' : S} (creator : Nat)
    {st : State Sys HeapResult LedgerClient HeapRequest} (mapped : ∀ p, (regions p).Mapped)
    (sizes : ∀ p, (regions p).size = n)
    (init : run handle (allocatorInit (regions creator)) before env = some (.ok, m, env'))
    (runs : Reachable (ledgerRules regions) (ledgerOrigin m) st) :
    ∃ V failures, HeapInv n st.mem V ∧ ViewReach n V ∧ load st.mem 2720 8 = failures % 2 ^ 64 ∧
      ((∀ p, st.active p = none) → failures = st.client.2 ∧
        ∀ x, x ∈ st.client.1 ↔ ∃ a, V.Live a ∧ (a.ptr, a.size) = x) := by
  obtain ⟨fresh, zero⟩ := run_allocatorInit_counted (mapped creator) (sizes creator) init
  have room := fresh.inv.room
  unfold heapBase at room
  have sound := ledger_sound mapped sizes (by omega)
  obtain ⟨held, own, good⟩ := good_reachable sound (ledger_origin_good fresh.inv zero) runs
  obtain ⟨V, failures, page⟩ := good.inv
  refine ⟨V, failures, page.inv, page.reached, page.counter, fun idle => ?_⟩
  have all : total held own = held := by
    ext t
    constructor
    · rintro (mem | ⟨p, mem⟩)
      · exact mem
      · rw [good.idle p (idle p)] at mem
        exact absurd mem (Set.notMem_empty t)
    · exact Or.inl
  obtain ⟨knows, failed, count, marks⟩ := good.owns
  constructor
  · have range : failed = Finset.range failures := by
      ext i
      rw [← marks i, Finset.mem_range, ← page.failed i, all]
    rw [← count, range, Finset.card_range]
  · intro x
    rw [knows x]
    constructor
    · rintro ⟨a, mem, same⟩
      exact ⟨a, (page.live a).mpr (Or.inl mem), same⟩
    · rintro ⟨a, live, same⟩
      have mem := (page.live a).mp live
      rw [all] at mem
      exact ⟨a, mem, same⟩

end Sound

/-- A whole call, while nobody else runs. -/
theorem ledger_call {regions : Nat → ShmRegion} {m m' : Mem} {live live' live'' : LivePayloads} {k : Nat}
    {active : Nat → Option (HeapRequest × Code HeapResult)} {start : State Sys HeapResult LedgerClient HeapRequest}
    (before : Reachable (ledgerRules regions) start ⟨m, (live, k), active⟩) {p : Nat} {req : HeapRequest}
    {result : HeapResult} (idle : active p = none) (may : LedgerStart live req live')
    (run : exec (heapCode (regions p) req) m = some (result, m')) (finish : HeapFinish (regions p) live' req result live'') :
    Reachable (ledgerRules regions) start ⟨m', (live'', k + result.failures), active⟩ := by
  have begins : (ledgerRules regions).start (live, k) req (live', k) := ⟨may, rfl⟩
  have ends : (ledgerRules regions).finish (live', k) p req result (live'', k + result.failures) := ⟨finish, rfl⟩
  have returned := reachable_return before idle begins run ends
  rwa [← idle, Function.update_eq_self] at returned

/- What every block of a shard has, when the fresh blocks have it and splits keep it. -/
section Blocks
variable {n : Nat} {V : HeapView} {G : Nat → Nat → Nat → Prop}

theorem view_blocks (fresh : ∀ s, s < 4 → G s (shardStart heapBase n s) (shardSize heapBase n))
    (split : ∀ {s x w size align : Nat}, s < 4 → G s x w → 0 < size → 16 ≤ align → (∃ k, align = 2 ^ k) →
      required x size align + 56 ≤ w →
      G s x (required x size align) ∧ G s (x + required x size align) (w - required x size align))
    (reach : ViewReach n V) : ∀ s, s < 4 → ∀ b ∈ (V s).blocks, G s b.start b.size := by
  induction reach with
  | refl =>
    intro s shard b mem
    rw [List.mem_singleton.mp mem]
    exact fresh s shard
  | tail _ step ih =>
    intro t small c mem
    cases step with
    | take shard here list free fits =>
      rename_i s a bs cs b pre post
      by_cases same : t = s
      · subst same
        have old := ih t small
        rw [here] at old
        have given := old b (by simp)
        rw [Function.update_self] at mem
        unfold takenShard at mem
        split at mem
        · rename_i room
          have parts := split small given fits.positive fits.least fits.power room
          simp only [List.mem_append, List.mem_cons] at mem
          rcases mem with left | rfl | rfl | right
          · exact old c (by simp [left])
          · exact parts.1
          · exact parts.2
          · exact old c (by simp [right])
        · simp only [List.mem_append, List.mem_cons] at mem
          rcases mem with left | rfl | right
          · exact old c (by simp [left])
          · exact given
          · exact old c (by simp [right])
      · rw [Function.update_of_ne same] at mem
        exact ih t small c mem
    | release shard here live =>
      rename_i s a bs cs b
      by_cases same : t = s
      · subst same
        have old := ih t small
        rw [here] at old
        rw [Function.update_self] at mem
        simp only [releasedShard, List.mem_append, List.mem_cons] at mem
        rcases mem with left | rfl | right
        · exact old c (by simp [left])
        · exact old b (by simp)
        · exact old c (by simp [right])
      · rw [Function.update_of_ne same] at mem
        exact ih t small c mem

end Blocks

end OffsetStore
