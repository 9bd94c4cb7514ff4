import OffsetStore.Owned
import OffsetStore.AllocatorRuns
import OffsetStore.DynArray

/- A container among the other users of the heap. Its calls follow one another, as
   its mutex makes them; the others allocate, release and write their own payloads
   at any of its lock operations. A container is described by an abstract state and
   by what each call may return and leave. -/
namespace OffsetStore
open ByteMemory Program Prog Words Pool

section Objects
variable {α : Type} {n : Nat} {L : Set Alloc} {μ : Mem} {region : ShmRegion}
  {post : α → Set Alloc → Mem → Prop}

/-- The outcome of object_store_alloc: one more payload of 16 bytes more than asked for. -/
def objectAllocated (payloadSize : Nat) (L : Set Alloc) (μ : Mem) :
    Except OffsetStoreStatus Nat → Set Alloc → Mem → Prop
  | .ok object, L', μ' => ∃ a, a ∉ L ∧ L' = insert a L ∧ (∀ b ∈ L, SameOn μ μ' b.ptr (b.ptr + b.size)) ∧
      object = a.ptr ∧ a.size = 16 + payloadSize ∧ a.align = 16
  | .error _, L', μ' => L' = L ∧ μ' = μ

theorem does_objectAlloc (map : region.Mapped) (total : region.size = n) (large : 2728 ≤ n)
    {fuel type payloadSize : Nat} (enough : n ≤ fuel) (small : payloadSize < 2 ^ 32) :
    Does n L μ (objectStoreAlloc fuel region type payloadSize) (objectAllocated payloadSize L μ) := by
  unfold objectStoreAlloc
  rw [if_neg (by simp only [uint32Max]; omega)]
  have sized : add64 16 payloadSize = 16 + payloadSize := add64_eq (by omega)
  refine does_bind (does_alloc map total large enough ?_ ?_) ?_
  · simp only [ObjectHeader.sizeof, sized]
    omega
  · simp only [alignofMax]
    omega
  · intro result L' μ' holds
    cases result with
    | error status =>
      obtain ⟨sameL, sameM⟩ := holds
      exact does_ret ⟨sameL, sameM⟩
    | ok header =>
      obtain ⟨a, fresh, grown, kept, address, size, align⟩ := holds
      subst grown address
      simp only [ObjectHeader.sizeof, sized] at size
      have mem : a ∈ insert a L := Set.mem_insert a L
      refine does_foot fun foot => ?_
      have bounds := foot.bounds a mem
      refine does_store32 map total mem (Nat.le_add_right _ _) (by simp only [ObjectHeader.size]; omega) ?_
      refine does_store32 map total mem (Nat.le_add_right _ _) (by simp only [ObjectHeader.type]; omega) ?_
      refine does_store32 map total mem (Nat.le_add_right _ _) (by simp only [ObjectHeader.flags]; omega) ?_
      refine does_store32 map total mem (Nat.le_add_right _ _) (by simp only [ObjectHeader.reserved]; omega) ?_
      rw [from_raw_eq_some map (by omega) (by omega)]
      refine does_ret ⟨a, fresh, rfl, ?_, rfl, size, align⟩
      intro b mb
      have apart : a.ptr + a.size ≤ b.ptr ∨ b.ptr + b.size ≤ a.ptr := by
        rcases foot.apart a mem b (Set.mem_insert_of_mem a mb) with same | apart
        · rw [← same] at mb
          exact absurd mb fresh
        · exact apart
      simp only [ObjectHeader.size, ObjectHeader.type, ObjectHeader.flags, ObjectHeader.reserved]
      intro x low high
      rw [store_outside, store_outside, store_outside, store_outside]
      · exact kept b mb x low high
      all_goals omega

theorem does_containerLock {mutex : Nat} {f : Unit → Code α} (rest : Does n L μ (f ()) post) :
    Does n L μ (containerLock mutex >>= f) post := does_lock rest

theorem does_containerUnlock {mutex : Nat} {f : Unit → Code α} (rest : Does n L μ (f ()) post) :
    Does n L μ (containerUnlock mutex >>= f) post := does_call fun _ => rest

theorem does_containerInitLock {mutex : Nat} {f : Unit → Code α} (rest : Does n L μ (f ()) post) :
    Does n L μ (containerInitLock mutex >>= f) post :=
  does_call fun _ => does_call fun _ => does_call fun _ => does_call fun _ => does_call fun _ => rest

/-- A creation goes on with a header of its own, which resolves, or without one. -/
theorem does_header (map : region.Mapped) (total : region.size = n) (large : 2728 ≤ n) {fuel type size : Nat}
    (enough : n ≤ fuel) (small : size < 2 ^ 32) {next : Except OffsetStoreStatus Nat → Code α}
    (failed : ∀ status, Does n L μ (next (.error status)) post)
    (made : ∀ hdr μ', hdr ∉ L → hdr.size = 16 + size → hdr.align = 16 → 2776 ≤ hdr.ptr → hdr.ptr + hdr.size ≤ n →
      offsetPtrTryResolve region.base region.size hdr.ptr size = some (add64 region.base hdr.ptr) →
      Does n (insert hdr L) μ' (next (.ok hdr.ptr)) post) :
    Does n L μ (objectStoreAlloc fuel region type size >>= next) post := by
  refine does_bind (does_objectAlloc map total large enough small) ?_
  intro result L' μ' holds
  cases result with
  | error status =>
    obtain ⟨rfl, rfl⟩ := holds
    exact failed status
  | ok hdrPtr =>
    obtain ⟨hdr, fresh, grown, _, address, sized, align⟩ := holds
    subst grown address
    refine does_foot fun foot => ?_
    have bounds := foot.bounds hdr (Set.mem_insert _ _)
    unfold heapBase at bounds
    exact made hdr μ' fresh sized align (by omega) (by omega)
      (resolve_eq_some map (by omega) (by omega) (by omega))

/-- Zeroed storage of its own, named in a field of the header hdr; the words of the header before the field stay. -/
theorem does_storage (map : region.Mapped) (total : region.size = n) (large : 2728 ≤ n) {fuel width field : Nat}
    (enough : n ≤ fuel) {hdr : Alloc} (header : hdr ∈ L) (word : width + 112 ≤ 2 ^ 64) (inside : field + 8 ≤ hdr.size)
    {post : Nat → Set Alloc → Mem → Prop} {abandon : Code Nat} {release : Nat → Code Nat}
    (abandoned : Does n L μ abandon post)
    (stored : ∀ data μ', data ∉ L → data.size = width → data.align = 16 → 2776 ≤ data.ptr → data.ptr + width ≤ n →
      hdr.ptr + hdr.size ≤ data.ptr ∨ data.ptr + data.size ≤ hdr.ptr →
      (∀ f, f + 8 ≤ field → load μ' (hdr.ptr + f) 8 = load μ (hdr.ptr + f) 8) →
      load μ' (hdr.ptr + field) 8 = data.ptr → (∀ o k, o + k ≤ width → load μ' (data.ptr + o) k = 0) →
      post hdr.ptr (insert data L) μ') :
    Does n L μ (do
      let storage ← allocatorAlloc fuel region width 16
      match storage with
      | .error _ => abandon
      | .ok ptr => do
        region.copyIn ptr 0 (List.replicate width 0)
        match offsetPtrTryFromRaw region.base region.size ptr with
        | none => release ptr
        | some off => do
          region.store64 (add64 region.base hdr.ptr) field off
          return hdr.ptr) post := by
  have user := map.user
  refine does_bind (does_alloc map total large enough (by omega) (by omega)) ?_
  intro storage L' μ' holds
  cases storage with
  | error status =>
    obtain ⟨rfl, rfl⟩ := holds
    exact abandoned
  | ok ptr =>
    obtain ⟨data, new, grown, same, address, size, align⟩ := holds
    subst grown address
    have mem : data ∈ insert data L := Set.mem_insert _ _
    have headerIn : hdr ∈ insert data L := Set.mem_insert_of_mem _ header
    refine does_foot fun foot => ?_
    have bounds := foot.bounds data mem
    unfold heapBase at bounds
    have apart := foot.disjoint headerIn mem fun eq => new (eq ▸ header)
    have length : (List.replicate width (0 : UInt8)).length = width := List.length_replicate
    refine does_bind (does_copyIn map total mem (by omega) (by omega)) ?_
    rintro _ L'' μ'' ⟨rfl, rfl⟩
    simp only [from_raw_eq_some map (show 0 < data.ptr by omega) (by omega), Nat.add_zero]
    refine does_store64 map total headerIn (by omega) (by omega) (does_ret ?_)
    refine stored data _ new size (by omega) (by omega) (by omega) apart (fun f small => ?_) (load_store_eight (by omega))
      fun o k low => ?_
    · calc load (store (storeBytes μ' data.ptr (List.replicate width 0)) (hdr.ptr + field) 8 data.ptr) (hdr.ptr + f) 8
          = load (storeBytes μ' data.ptr (List.replicate width 0)) (hdr.ptr + f) 8 := load_store_apart (by omega)
        _ = load μ' (hdr.ptr + f) 8 := load_congr (SameOn.storeBytes (by omega))
        _ = load μ (hdr.ptr + f) 8 := load_congr ((same hdr header).narrow (Nat.le_add_right _ _) (by omega))
    · exact (load_store_apart (by omega)).trans (load_replicate_zero low)

end Objects

/-- The calls of a container, and what a call may return and leave in each abstract state. -/
structure Component (Op Res Abs : Type) where
  code : ShmRegion → Op → Code Res
  enabled : Abs → Op → Prop
  next : Abs → Op → Res → Option Abs

variable {Op Res Abs : Type}

/-- The abstract state after a history of calls, if each was allowed. -/
def Component.follow (c : Component Op Res Abs) : Abs → List (Op × Option Res) → Option Abs
  | s, [] => some s
  | s, (op, some r) :: rest => (c.next s op r).bind fun s' => c.follow s' rest
  | _, (_, none) :: _ => none

theorem Component.follow_snoc {c : Component Op Res Abs} {s t u : Abs} {history : List (Op × Option Res)}
    {op : Op} {r : Res} (before : c.follow s history = some t) (step : c.next t op r = some u) :
    c.follow s (history ++ [(op, some r)]) = some u := by
  induction history generalizing s with
  | nil =>
    rw [show s = t from Option.some.inj before]
    simp [Component.follow, step]
  | cons call rest ih =>
    obtain ⟨op', r'⟩ := call
    cases r' with
    | none => simp [Component.follow] at before
    | some r' =>
      obtain ⟨s', first, later⟩ := Option.bind_eq_some_iff.mp before
      simp only [List.cons_append, Component.follow, first, Option.bind_some]
      exact ih later

theorem Component.follow_last {c : Component Op Res Abs} {s u : Abs} {history : List (Op × Option Res)}
    {op : Op} {r : Res} (follows : c.follow s (history ++ [(op, some r)]) = some u) :
    ∃ t, c.follow s history = some t ∧ c.next t op r = some u := by
  induction history generalizing s with
  | nil => exact ⟨s, rfl, by simpa [Component.follow] using follows⟩
  | cons call rest ih =>
    obtain ⟨op', r'⟩ := call
    cases r' with
    | none => simp [Component.follow] at follows
    | some r' =>
      obtain ⟨s', first, later⟩ := Option.bind_eq_some_iff.mp follows
      obtain ⟨t, before, step⟩ := ih later
      exact ⟨t, by simp only [Component.follow, first, Option.bind_some, before], step⟩

/-- Every call brings owned memory that stands for an abstract state to owned memory
    that stands for an allowed one. -/
def Refines (n : Nat) (region : ShmRegion) (c : Component Op Res Abs) (repr : Abs → Set Alloc → Mem → Prop) : Prop :=
  ∀ s op L μ, c.enabled s op → repr s L μ →
    Does n L μ (c.code region op) (fun r L' μ' => ∃ s', c.next s op r = some s' ∧ repr s' L' μ')

/-- What the users know: the live payloads of the others, the history of the container,
    and whether one of its calls is in progress. -/
structure UserView (Op Res : Type) where
  live : LivePayloads
  history : List (Op × Option Res)
  busy : Bool

/-- A call of the container remembers the history before it. -/
inductive UserRequest (Op Res : Type) where
  | container (op : Op) (history : List (Op × Option Res))
  | heap (req : HeapRequest)

inductive UserResult (Res : Type) where
  | container (r : Option Res)
  | heap (result : HeapResult)

def userCode (c : Component Op Res Abs) (region : ShmRegion) : UserRequest Op Res → Code (UserResult Res)
  | .container op _ => do
    let r ← sure (c.code region op)
    return .container r
  | .heap req => do
    let result ← heapCode region req
    return .heap result

inductive UserStart (c : Component Op Res Abs) (origin : Abs) (n : Nat) :
    UserView Op Res → UserRequest Op Res → UserView Op Res → Prop where
  | container {live history} (op : Op) (may : ∀ s, c.follow origin history = some s → c.enabled s op) :
      UserStart c origin n ⟨live, history, false⟩ (.container op history) ⟨live, history, true⟩
  | heap {live live' history busy} {req : HeapRequest} (start : HeapStart n live req live') :
      UserStart c origin n ⟨live, history, busy⟩ (.heap req) ⟨live', history, busy⟩

inductive UserFinish (region : ShmRegion) :
    UserView Op Res → UserRequest Op Res → UserResult Res → UserView Op Res → Prop where
  | container {live history history'} (op : Op) (r : Option Res) :
      UserFinish region ⟨live, history', true⟩ (.container op history) (.container r)
        ⟨live, history ++ [(op, r)], false⟩
  | heap {live live' history busy} {req : HeapRequest} {result : HeapResult}
      (finish : HeapFinish region live req result live') :
      UserFinish region ⟨live, history, busy⟩ (.heap req) (.heap result) ⟨live', history, busy⟩

def userRules (c : Component Op Res Abs) (origin : Abs) (n : Nat) (regions : Nat → ShmRegion) :
    Rules Sys (UserResult Res) (UserView Op Res) (UserRequest Op Res) where
  code p req := userCode c (regions p) req
  start := UserStart c origin n
  finish view p := UserFinish (regions p) view
  writable view o w := ∃ x ∈ view.live, x.1 ≤ o ∧ o + w ≤ x.1 + x.2

/-- No live payload, no call so far, and no call in progress. -/
def userOrigin (m : Mem) : State Sys (UserResult Res) (UserView Op Res) (UserRequest Op Res) :=
  ⟨m, ⟨∅, [], false⟩, fun _ => none⟩

section Runs
variable {c : Component Op Res Abs} {origin : Abs} {repr : Abs → Set Alloc → Mem → Prop} {n : Nat}
  {regions : Nat → ShmRegion}

/-- The container itself, held by nobody while one of its calls is in progress. -/
def containerOwns (c : Component Op Res Abs) (origin : Abs) (repr : Abs → Set Alloc → Mem → Prop)
    (view : UserView Op Res) (mine : Set ByteToken) : Prop :=
  ∃ s, c.follow origin view.history = some s ∧
    ((view.busy = true ∧ mine = ∅) ∨ (view.busy = false ∧ ∃ L μ, repr s L μ ∧ mine = owned L μ))

def viewOwns (c : Component Op Res Abs) (origin : Abs) (repr : Abs → Set Alloc → Mem → Prop)
    (view : UserView Op Res) (held : Set ByteToken) : Prop :=
  ∃ users mine, held = users ∪ mine ∧ Disjoint users mine ∧ usersOwn none view.live users ∧
    containerOwns c origin repr view mine

def userPost (c : Component Op Res Abs) (origin : Abs) (repr : Abs → Set Alloc → Mem → Prop)
    (region : ShmRegion) : UserRequest Op Res → UserResult Res → Set ByteToken → Prop
  | .container op history, .container r, own => ∃ s L μ,
      c.follow origin (history ++ [(op, r)]) = some s ∧ repr s L μ ∧ own = owned L μ
  | .heap req, .heap result, own => usersPost none region req result own
  | _, _, _ => False

theorem byteNotes_none (a : Alloc) (m : Mem) : byteNotes.holds a none m := fun _ eq => absurd eq (by simp)

theorem user_start (refines : ∀ p, Refines n (regions p) c repr) (mapped : ∀ p, (regions p).Mapped)
    (sizes : ∀ p, (regions p).size = n) (large : 2728 ≤ n) {view view' : UserView Op Res}
    {req : UserRequest Op Res} {held rest : Set ByteToken} {m : Mem} (start : UserStart c origin n view req view')
    (owns : viewOwns c origin repr view held) (tokens : HeapTokens byteNotes n (held ∪ rest) m) :
    ∃ own held', own ∪ held' = held ∧ Disjoint own held' ∧ viewOwns c origin repr view' held' ∧
      ∀ p, Ready (HeapTokens byteNotes n) (userPost c origin repr (regions p) req) own (userCode c (regions p) req) := by
  obtain ⟨users, mine, rfl, apart, others, s, follows, state⟩ := owns
  cases start with
  | container op may =>
    obtain ⟨busy, _⟩ | ⟨_, L, μ, stands, rfl⟩ := state
    · exact absurd busy (by simp)
    · refine ⟨owned L μ, users, Set.union_comm _ _, apart.symm,
        ⟨users, ∅, (Set.union_empty _).symm, Set.disjoint_empty _, others, s, follows, Or.inl ⟨rfl, rfl⟩⟩, fun p => ?_⟩
      refine ready_bind (refines p s op L μ (may s follows) stands).ready ?_
      rintro r own ⟨a, L', μ', rfl, rfl, s', step, stands'⟩
      exact ready_ret ⟨s', L', μ', c.follow_snoc follows step, stands', rfl⟩
  | heap start =>
    rw [Set.union_assoc] at tokens
    obtain ⟨own, users', whole, out, left, ready⟩ :=
      users_start mapped sizes large byteNotes_none start others tokens
    subst whole
    rw [Set.disjoint_union_left] at apart
    refine ⟨own, users' ∪ mine, (Set.union_assoc _ _ _).symm, ?_,
      ⟨users', mine, rfl, apart.2, left, s, follows, state⟩, fun p => ?_⟩
    · rw [Set.disjoint_union_right]
      exact ⟨out, apart.1⟩
    · refine ready_bind (ready p) ?_
      intro result own holds
      exact ready_ret holds

theorem user_finish (mapped : ∀ p, (regions p).Mapped) (sizes : ∀ p, (regions p).size = n)
    {view view' : UserView Op Res} {p : Nat} {req : UserRequest Op Res} {result : UserResult Res}
    {own held rest : Set ByteToken} {m : Mem} (post : userPost c origin repr (regions p) req result own)
    (finish : UserFinish (regions p) view req result view') (owns : viewOwns c origin repr view held)
    (apart : Disjoint own held) (tokens : HeapTokens byteNotes n (own ∪ held ∪ rest) m) :
    viewOwns c origin repr view' (own ∪ held) := by
  obtain ⟨users, mine, rfl, away, others, s, follows, state⟩ := owns
  cases finish with
  | container op r =>
    obtain ⟨s', L, μ, follows', stands, rfl⟩ := post
    obtain ⟨_, rfl⟩ | ⟨idle, _⟩ := state
    · rw [Set.union_empty] at apart ⊢
      exact ⟨users, owned L μ, Set.union_comm _ _, apart.symm, others, s', follows',
        Or.inr ⟨rfl, L, μ, stands, rfl⟩⟩
    · exact absurd idle (by simp)
  | heap finish =>
    rw [← Set.union_assoc, Set.union_assoc] at tokens
    rw [Set.disjoint_union_right] at apart
    refine ⟨own ∪ users, mine, (Set.union_assoc _ _ _).symm, ?_,
      users_finish mapped sizes post finish others tokens, s, follows, state⟩
    rw [Set.disjoint_union_left]
    exact ⟨apart.2, away⟩

theorem user_sound (refines : ∀ p, Refines n (regions p) c repr) (mapped : ∀ p, (regions p).Mapped)
    (sizes : ∀ p, (regions p).size = n) (large : 2728 ≤ n) :
    Sound (userRules c origin n regions) (HeapTokens byteNotes n) (viewOwns c origin repr)
      (fun p req => userPost c origin repr (regions p) req) where
  start := fun start owns _ tokens => user_start refines mapped sizes large start owns tokens
  finish := fun post finish owns apart tokens => user_finish mapped sizes post finish owns apart tokens
  write := by
    intro view o w v held rest m may owns tokens
    obtain ⟨users, mine, rfl, _, others, _⟩ := owns
    rw [Set.union_assoc] at tokens ⊢
    exact users_write byteNotes_none may others tokens

theorem user_origin_good {m : Mem} (inv : HeapInv n m (freshView n)) {μ : Mem} (empty : repr origin ∅ μ) :
    Good (HeapTokens byteNotes n) (viewOwns c origin repr) (fun p req => userPost c origin repr (regions p) req)
      (userOrigin m) ∅ (fun _ => ∅) := by
  refine ⟨?_, fun _ _ => rfl, ?_, fun _ _ _ => Set.empty_disjoint _, fun _ => Set.empty_disjoint _,
    ⟨freshView n, inv, fresh_intact n, ?_, ?_, ?_, trivial⟩⟩
  · refine ⟨∅, ∅, (Set.union_empty _).symm, Set.disjoint_empty _, ⟨by simp, by simp [userOrigin]⟩, origin, rfl,
      Or.inr ⟨rfl, ∅, μ, empty, (owned_empty μ).symm⟩⟩
  · intro p req q busy
    simp [userOrigin] at busy
  · intro a
    simp [fresh_not_live, total]
  · rintro a k k' (mem | ⟨q, mem⟩) _
    · exact absurd mem (Set.notMem_empty _)
    · exact absurd mem (Set.notMem_empty _)
  · rintro a k (mem | ⟨q, mem⟩)
    · exact absurd mem (Set.notMem_empty _)
    · exact absurd mem (Set.notMem_empty _)

/-- The heap while no call of the container is in progress: its allocations and those of
    the others are live, and no allocation is both. -/
structure Resting (n : Nat) (st : State Sys (UserResult Res) (UserView Op Res) (UserRequest Op Res))
    (L : Set Alloc) (V : HeapView) : Prop where
  heap : HeapInv n st.mem V
  mine : ∀ a ∈ L, V.Live a
  others : ∀ x ∈ st.client.live, ∃ a, V.Live a ∧ a ∉ L ∧ (a.ptr, a.size) = x

/-- The history of the container is always a run of its description, and between its
    calls the memory stands for the abstract state. -/
theorem component_runs (refines : ∀ p, Refines n (regions p) c repr) (mapped : ∀ p, (regions p).Mapped)
    (sizes : ∀ p, (regions p).size = n) {m μ : Mem} (fresh : HeapInv n m (freshView n)) (empty : repr origin ∅ μ)
    (local_repr : ∀ s L μ m, repr s L μ → (∀ a ∈ L, SameOn μ m a.ptr (a.ptr + a.size)) → repr s L m)
    {st : State Sys (UserResult Res) (UserView Op Res) (UserRequest Op Res)}
    (runs : Reachable (userRules c origin n regions) (userOrigin m) st) :
    ∃ s, c.follow origin st.client.history = some s ∧
      (st.client.busy = false → ∃ L V, repr s L st.mem ∧ Resting n st L V) := by
  have room := fresh.room
  unfold heapBase at room
  have sound := @user_sound _ _ _ c origin repr n regions refines mapped sizes (by omega)
  obtain ⟨held, own, good⟩ := good_reachable sound (user_origin_good fresh empty) runs
  obtain ⟨users, mine, whole, apart, others, s, follows, state⟩ := good.owns
  refine ⟨s, follows, fun idle => ?_⟩
  obtain ⟨busy, _⟩ | ⟨_, L, μ', stands, rfl⟩ := state
  · rw [idle] at busy
    exact absurd busy (by simp)
  · obtain ⟨V, carries⟩ := good.inv
    have mineIn : ∀ a ∈ L, (a, some μ') ∈ total held own := fun a mem =>
      Or.inl (whole ▸ Or.inr ⟨mem, rfl⟩)
    have usersIn : ∀ t ∈ users, t ∈ total held own := fun t mem => Or.inl (whole ▸ Or.inl mem)
    refine ⟨L, V, local_repr s L μ' st.mem stands ?_, carries.inv, ?_, ?_⟩
    · exact fun a mem => carries.holds a (some μ') (mineIn a mem) μ' rfl
    · exact fun a mem => (carries.live a).mpr ⟨some μ', mineIn a mem⟩
    · intro x mem
      obtain ⟨t, ht, same⟩ := (others.2 x).mp mem
      refine ⟨t.1, (carries.live t.1).mpr ⟨t.2, usersIn t ht⟩, ?_, same⟩
      intro here
      have note := carries.single t.1 t.2 (some μ') (usersIn t ht) (mineIn t.1 here)
      rw [others.1 t ht] at note
      exact absurd note (by simp)

end Runs

section Calls
variable {c : Component Op Res Abs} {origin : Abs} {n : Nat} {regions : Nat → ShmRegion} {m m' : Mem}
  {start : State Sys (UserResult Res) (UserView Op Res) (UserRequest Op Res)} {live live' live'' : LivePayloads}
  {history : List (Op × Option Res)} {active : Nat → Option (UserRequest Op Res × Code (UserResult Res))}

/-- A whole call on the container, while nobody else runs. -/
theorem reachable_container (before : Reachable (userRules c origin n regions) start ⟨m, ⟨live, history, false⟩, active⟩)
    {p : Nat} {r : Res} {s : Abs} (op : Op) (idle : active p = none) (follows : c.follow origin history = some s)
    (enabled : c.enabled s op) (run : exec (c.code (regions p) op) m = some (r, m')) :
    Reachable (userRules c origin n regions) start ⟨m', ⟨live, history ++ [(op, some r)], false⟩, active⟩ := by
  have whole : exec (sure (c.code (regions p) op)) m = some (some r, m') := by
    rw [sure, exec_assume]
    exact exec_attempt_some run
  have may : ∀ s', c.follow origin history = some s' → c.enabled s' op := by
    intro s' follows'
    rw [← Option.some.inj (follows.symm.trans follows')]
    exact enabled
  have returned := reachable_return before idle (.container op may) (exec_bind_of_some whole _) (.container op (some r))
  rwa [← idle, Function.update_eq_self] at returned

/-- A whole call of another user of the heap. -/
theorem reachable_other {busy : Bool}
    (before : Reachable (userRules c origin n regions) start ⟨m, ⟨live, history, busy⟩, active⟩)
    {p : Nat} {req : HeapRequest} {result : HeapResult} (idle : active p = none) (may : HeapStart n live req live')
    (run : exec (heapCode (regions p) req) m = some (result, m'))
    (finish : HeapFinish (regions p) live' req result live'') :
    Reachable (userRules c origin n regions) start ⟨m', ⟨live'', history, busy⟩, active⟩ := by
  have returned := reachable_return before idle (.heap may) (exec_bind_of_some run _) (.heap finish)
  rwa [← idle, Function.update_eq_self] at returned

end Calls

end OffsetStore
