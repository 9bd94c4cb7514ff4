import OffsetStore.FreeChecks
import OffsetStore.Lib.Pool
import OffsetStore.AllocatorPool

/- Any number of processes that release the same pointers at the same time. The flag of the
   block is read before the lock only; what keeps a second release out of the critical section
   is the payload offset, which the first one clears. -/
namespace OffsetStore
open ByteMemory Program Prog Words Tiling CellChain Pool

/-- The block and the shard that allocator_free finds behind a payload. -/
def blockOf (m : Mem) (p : Nat) : Nat := load m (p - AllocationPrefix.sizeof) 8
def shardOf (m : Mem) (p : Nat) : Nat := load m (blockOf m p + BlockHeader.shard) 4

def LivePayload (m : Mem) (blocks : Nat → List Nat) (p : Nat) : Prop :=
  ∃ s, s < 4 ∧ ∃ b ∈ blocks s, ∃ size, 0 < size ∧ CarriesPayload m b p size

/-- The memory and the free lists after the payloads of a list have been released, last one first. -/
def releasedAll (m : Mem) : List Nat → Mem
  | [] => m
  | p :: rest => releasedAt (releasedAll m rest) (shardOf m p) (blockOf m p)

def freeAfter (m : Mem) (free : Nat → List Nat) : List Nat → Nat → List Nat
  | [] => free
  | p :: rest => Function.update (freeAfter m free rest) (shardOf m p)
      (blockOf m p :: freeAfter m free rest (shardOf m p))

section Memory
variable {n : Nat} {m : Mem} {blocks free : Nat → List Nat} {p q : Nat}

/-- What the bytes say about a live payload. -/
structure FoundPayload (m : Mem) (blocks : Nat → List Nat) (p : Nat) : Prop where
  shard : shardOf m p < 4
  mem : blockOf m p ∈ blocks (shardOf m p)
  allocated : ¬isFreeBlock m (blockOf m p)
  offset : blockOf m p + payloadOffsetOf m (blockOf m p) = p
  after : blockOf m p + 40 ≤ p
  inside : p < blockOf m p + blockSizeOf m (blockOf m p)

theorem LivePayload.found (live : LivePayload m blocks p) (shape : HeapShape n m blocks free) : FoundPayload m blocks p := by
  obtain ⟨s, shard, b, mem, size, positive, carried⟩ := live
  have block : blockOf m p = b := carried.prefixed
  have owner : shardOf m p = s := by
    unfold shardOf
    rw [block]
    exact (shape.shards s shard).owner b mem
  have inside := carried.inside
  exact ⟨owner ▸ shard, by rw [block, owner]; exact mem, block ▸ carried.allocated, block ▸ carried.offset,
    block ▸ carried.after, by rw [block]; omega⟩

/-- The live allocations of the heap invariant are live payloads. -/
theorem HeapInv.live_payload {V : HeapView} (inv : HeapInv n m V) (intact : V.Intact) (small : n < 2 ^ 32) {a : Alloc}
    (live : V.Live a) (positive : 0 < a.size) : LivePayload m (fun s => (V s).blocks.map Block.start) a.ptr := by
  obtain ⟨s, shard, b, mem, kind⟩ := live
  exact ⟨s, shard, b.start, List.mem_map_of_mem mem, a.size, positive, inv.carries_payload intact small shard mem kind⟩

/-- What a later memory says about a payload: released, or still as it was. -/
structure Tracked (m m' : Mem) (p : Nat) (gone : Prop) : Prop where
  prefixed : load m' (p - 8) 8 = blockOf m p
  shard : load m' (blockOf m p + 20) 4 = shardOf m p
  size : blockSizeOf m' (blockOf m p) = blockSizeOf m (blockOf m p)
  released : gone → isFreeBlock m' (blockOf m p) ∧ payloadOffsetOf m' (blockOf m p) = 0
  live : ¬gone → ¬isFreeBlock m' (blockOf m p) ∧
    payloadOffsetOf m' (blockOf m p) = payloadOffsetOf m (blockOf m p)

theorem released_tracked {m' : Mem} {free' : Nat → List Nat} {gone : Prop} (shape : HeapShape n m' blocks free')
    (hp : FoundPayload m blocks p) (hq : FoundPayload m blocks q) (tp : Tracked m m' p False) (tq : Tracked m m' q gone) :
    Tracked m (releasedAt m' (shardOf m p) (blockOf m p)) q (q = p ∨ gone) := by
  have cell := headCell_eq (shardOf m p)
  have small := hp.shard
  have after := hq.after
  have inside := hq.inside
  have bound := shape.bounds hq.shard hq.mem
  have place := shape.apart hp.shard hq.shard hp.mem hq.mem
  have boundP := shape.bounds hp.shard hp.mem
  rw [tq.size] at bound place
  rw [tp.size] at place boundP
  by_cases same : blockOf m q = blockOf m p
  · have eq : q = p := by
      rw [← hq.offset, ← hp.offset, same]
    subst eq
    have words := releasedAt_words (m := m') (s := shardOf m q) (b := blockOf m q) (by omega)
    refine ⟨?_, words.shard.trans tq.shard, ?_, fun _ => ⟨?_, words.offset⟩, fun still => absurd (Or.inl rfl) still⟩
    · exact (releasedAt_load (by omega) (by omega)).trans tq.prefixed
    · exact (releasedAt_load (by simp) (by simp only [BlockHeader.size]; omega)).trans tq.size
    · unfold isFreeBlock
      rw [BlockHeader.flags, words.flags]
      decide
  · have kept : ∀ x k, blockOf m q ≤ x → x + k ≤ q → load (releasedAt m' (shardOf m p) (blockOf m p)) x k = load m' x k :=
      fun x k low high => releasedAt_load (by omega) (by omega)
    have flags := kept (blockOf m q + BlockHeader.flags) 4 (by omega) (by simp only [BlockHeader.flags]; omega)
    have offset := kept (blockOf m q + BlockHeader.payloadOffset) 4 (by omega)
      (by simp only [BlockHeader.payloadOffset]; omega)
    refine ⟨?_, ?_, ?_, ?_, ?_⟩
    · exact (kept _ _ (by omega) (by omega)).trans tq.prefixed
    · exact (kept _ _ (by omega) (by omega)).trans tq.shard
    · exact (kept _ _ (by omega) (by simp only [BlockHeader.size]; omega)).trans tq.size
    · rintro (rfl | gone)
      · exact absurd rfl same
      · unfold isFreeBlock payloadOffsetOf
        rw [flags, offset]
        exact tq.released gone
    · intro still
      unfold isFreeBlock payloadOffsetOf
      rw [flags, offset]
      exact tq.live fun gone => still (Or.inr gone)

/-- The heap after the releases of a list: its shape, and every payload released or untouched. -/
structure Drained (n : Nat) (m : Mem) (blocks free : Nat → List Nat) (gone : List Nat) : Prop where
  shape : HeapShape n (releasedAll m gone) blocks (freeAfter m free gone)
  tracked : ∀ p, LivePayload m blocks p → Tracked m (releasedAll m gone) p (p ∈ gone)

theorem drained (shape : HeapShape n m blocks free) (word : n < 2 ^ 64) {gone : List Nat} (nodup : gone.Nodup)
    (live : ∀ p ∈ gone, LivePayload m blocks p) : Drained n m blocks free gone := by
  induction gone with
  | nil =>
    refine ⟨shape, fun p live => ?_⟩
    have found := live.found shape
    exact ⟨rfl, rfl, rfl, fun mem => absurd mem (by simp), fun _ => ⟨found.allocated, rfl⟩⟩
  | cons p rest ih =>
    obtain ⟨fresh, nodup⟩ := List.nodup_cons.mp nodup
    have before := ih nodup fun q mem => live q (List.mem_cons_of_mem _ mem)
    have found := (live p (by simp)).found shape
    have tracked := before.tracked p (live p (by simp))
    constructor
    · exact (before.shape.released found.shard found.mem (tracked.live fresh).1 word).shape
    · intro q liveQ
      have now : Tracked m (releasedAll m rest) p False :=
        ⟨tracked.prefixed, tracked.shard, tracked.size, fun bad => bad.elim, fun _ => tracked.live fresh⟩
      have step := released_tracked before.shape found (liveQ.found shape) now (before.tracked q liveQ)
      rwa [← List.mem_cons] at step

end Memory

/-- Processes that release live payloads; the clients know what each call returned. -/
def freeRules (regions : Nat → ShmRegion) (live : Nat → Prop) :
    Rules Sys OffsetStoreStatus (List (Nat × OffsetStoreStatus)) Nat where
  code q p := assume lockGranted (allocatorFree (regions q) (add64 (regions q).base p))
  start k p k' := live p ∧ k' = k
  finish k _ p r k' := k' = k ++ [(p, r)]
  writable _ _ _ := False

def freeOrigin (m : Mem) : State Sys OffsetStoreStatus (List (Nat × OffsetStoreStatus)) Nat := ⟨m, [], fun _ => none⟩

/-- The critical section of a release of p. -/
def freeTarget (region : ShmRegion) (m : Mem) (p : Nat) : Code OffsetStoreStatus :=
  assume lockGranted (freeSection region (headerAddress region) (add64 region.base p) (blockOf m p) (shardOf m p))

/-- How far a call on p has come. -/
inductive FreeStage (region : ShmRegion) (m : Mem) (p : Nat) (gone : List Nat) : Code OffsetStoreStatus → Prop where
  | fresh : FreeStage region m p gone (assume lockGranted (allocatorFree region (add64 region.base p)))
  | near {code : Code OffsetStoreStatus} (near : Approaches (freeTarget region m p) code) : FreeStage region m p gone code
  | refused {code : Code OffsetStoreStatus} {e : OffsetStoreStatus} (leaves : Leaves e code)
      (why : e = .invalidState ∨ e = .invalidArgument) (here : p ∈ gone) : FreeStage region m p gone code
  | released {code : Code OffsetStoreStatus} (leaves : Leaves .ok code) (here : p ∈ gone) :
      FreeStage region m p gone code

section Stages
variable {region : ShmRegion} {n : Nat} {m : Mem} {blocks free : Nat → List Nat} {gone : List Nat} {p : Nat}

theorem FreeStage.grow {code : Code OffsetStoreStatus} {more : List Nat} (stage : FreeStage region m p gone code)
    (sub : gone ⊆ more) : FreeStage region m p more code := by
  cases stage with
  | fresh => exact .fresh
  | near near => exact .near near
  | refused leaves why here => exact .refused leaves why (sub here)
  | released leaves here => exact .released leaves (sub here)

theorem target_busy (r : OffsetStoreStatus) : ¬Leaves r (freeTarget region m p) := fun leaves => leaves

theorem fresh_busy (map : region.Mapped) (room : 2728 ≤ region.size) (small : p < region.size) (r : OffsetStoreStatus) :
    ¬Leaves r (assume lockGranted (allocatorFree region (add64 region.base p))) := by
  have user := map.user
  have positive := map.base_pos
  have address : add64 region.base p = region.base + p := add64_eq (by omega)
  intro leaves
  unfold allocatorFree at leaves
  rw [if_neg (by omega)] at leaves
  simp only [allocatorHeaderMut, allocatorHeader_eq map room] at leaves
  exact leaves

/-- The call reads before it does anything else. -/
theorem fresh_turn (map : region.Mapped) (room : 2728 ≤ region.size) (small : p < region.size) (r : Int) (m : Mem) :
    turn r m (assume lockGranted (allocatorFree region (add64 region.base p))) =
      (applyStores m (burst m (assume lockGranted (allocatorFree region (add64 region.base p)))).1,
        (burst m (assume lockGranted (allocatorFree region (add64 region.base p)))).2) := by
  have user := map.user
  have positive := map.base_pos
  have address : add64 region.base p = region.base + p := add64_eq (by omega)
  unfold allocatorFree
  rw [if_neg (by omega)]
  simp only [allocatorHeaderMut, allocatorHeader_eq map room]
  rfl

/-- What is left of a call after its lock attempt approaches the critical section. -/
theorem approaches_locked (s : Nat) :
    Approaches (assume lockGranted (freeSection region (headerAddress region) (add64 region.base p) (blockOf m p) s))
      (assume lockGranted (freeLocked region (headerAddress region) (add64 region.base p) (blockOf m p) s)) := by
  rw [freeLocked_eq]
  simp only [request_bind]
  refine .step fun r => ?_
  simp only [lockGranted, if_true]
  unfold noteShardLock
  simp only [request_bind, perform_bind, call_bind]
  refine .step fun held => ?_
  simp only [lockGranted, Bool.false_eq_true, if_false]
  have last : Approaches
      (assume lockGranted (freeSection region (headerAddress region) (add64 region.base p) (blockOf m p) s))
      (assume lockGranted (call (.setHeldShard (s : Int)) fun _ => freeSection region (headerAddress region)
        (add64 region.base p) (blockOf m p) s)) := .step fun _ => .here
  by_cases warned : held ≠ -1 ∧ held ≠ (s : Int)
  · simp only [warned, ne_eq, not_false_eq_true, and_self, if_true]
    exact .step fun _ => last
  · simp only [warned, if_false]
    exact last

theorem FoundPayload.bounds (found : FoundPayload m blocks p) (d : Drained n m blocks free gone) (live : LivePayload m blocks p) :
    0 < blockOf m p ∧ blockOf m p + 32 ≤ n ∧ 8 ≤ p ∧ p < n := by
  have bound := d.shape.bounds found.shard found.mem
  have inside := found.inside
  have after := found.after
  rw [(d.tracked p live).size] at bound
  omega

/-- The critical section releases a live payload and refuses one that is gone. -/
theorem burst_target (map : region.Mapped) (total : region.size = n) (d : Drained n m blocks free gone)
    (found : FoundPayload m blocks p) (live : LivePayload m blocks p) :
    (p ∈ gone ∧ ∃ code, burst (releasedAll m gone) (freeTarget region m p) = ([], code) ∧ Leaves .invalidArgument code) ∨
    (p ∉ gone ∧ ∃ ws code, burst (releasedAll m gone) (freeTarget region m p) = (ws, code) ∧
      applyStores (releasedAll m gone) ws = releasedAll m (p :: gone) ∧ Leaves .ok code) := by
  have tracked := d.tracked p live
  obtain ⟨positive, inside, low, room⟩ := found.bounds d live
  have after := found.after
  unfold freeTarget
  rw [burst_assume, burst_free_section map total d.shape.header found.shard positive inside room]
  by_cases here : p ∈ gone
  · rw [if_neg (by rw [(tracked.released here).2]; omega)]
    exact Or.inl ⟨here, _, rfl, fun _ => rfl⟩
  · rw [if_pos ((tracked.live here).2 ▸ found.offset)]
    exact Or.inr ⟨here, _, _, rfl, rfl, fun _ _ => rfl⟩

theorem stage_turn (map : region.Mapped) (total : region.size = n) (d : Drained n m blocks free gone)
    (found : FoundPayload m blocks p) (live : LivePayload m blocks p) {code : Code OffsetStoreStatus}
    (stage : FreeStage region m p gone code) (r : Int) :
    ((turn r (releasedAll m gone) code).1 = releasedAll m gone ∧
      FreeStage region m p gone (turn r (releasedAll m gone) code).2 ∧
      (Leaves .ok (turn r (releasedAll m gone) code).2 ↔ Leaves .ok code)) ∨
    (p ∉ gone ∧ (turn r (releasedAll m gone) code).1 = releasedAll m (p :: gone) ∧
      Leaves .ok (turn r (releasedAll m gone) code).2) := by
  have tracked := d.tracked p live
  obtain ⟨positive, inside, low, room⟩ := found.bounds d live
  have header := d.shape.header.inside
  unfold heapBase at header
  cases stage with
  | fresh =>
    refine Or.inl ?_
    have busy := fresh_busy map (by omega) (total.symm ▸ room) .ok
    rw [fresh_turn map (by omega) (total.symm ▸ room), burst_assume]
    have block : load (releasedAll m gone) (p - 8) 8 = blockOf m p := tracked.prefixed
    obtain ⟨checked, left⟩ | ⟨refused, left⟩ := burst_free_checks map total d.shape.header low room
    · rw [left, block, BlockHeader.shard, tracked.shard]
      have near : Approaches (freeTarget region m p) _ := approaches_locked (shardOf m p)
      exact ⟨rfl, .near near, fun leaves => absurd leaves (near.not_leaves (target_busy .ok)), fun leaves => absurd leaves busy⟩
    · have here : p ∈ gone := by
        by_contra still
        rw [block] at refused
        exact refused ⟨positive, inside, (tracked.live still).1, tracked.shard ▸ found.shard⟩
      rw [left]
      refine ⟨rfl, .refused (e := .invalidState) rfl (Or.inl rfl) here, fun leaves => ?_, fun leaves => absurd leaves busy⟩
      have same : OffsetStoreStatus.invalidState = .ok := leaves
      exact absurd same (by simp)
  | near near =>
    have own : turn r (releasedAll m gone) (freeTarget region m p) = (applyStores (releasedAll m gone)
        (burst (releasedAll m gone) (freeTarget region m p)).1, (burst (releasedAll m gone) (freeTarget region m p)).2) := rfl
    obtain ⟨same, closer⟩ | run := near.turn r own
    · refine Or.inl ⟨same, .near closer, ?_⟩
      exact ⟨fun leaves => absurd leaves (closer.not_leaves (target_busy .ok)),
        fun leaves => absurd leaves (near.not_leaves (target_busy .ok))⟩
    · rw [run]
      obtain ⟨here, code', left, leaves⟩ | ⟨here, ws, code', left, stores, leaves⟩ := burst_target map total d found live
      · rw [left]
        refine Or.inl ⟨rfl, .refused leaves (Or.inr rfl) here, fun ok => ?_, fun ok => ?_⟩
        · exact absurd (leaves.unique ok) (by simp)
        · exact absurd ok (near.not_leaves (target_busy .ok))
      · rw [left]
        exact Or.inr ⟨here, stores, leaves⟩
  | refused leaves why here =>
    have next := leaves.turn r (releasedAll m gone)
    refine Or.inl ⟨next.1, .refused next.2 why here, fun ok => ?_, fun ok => ?_⟩
    · have same := next.2.unique ok
      rw [same] at why
      exact absurd why (by simp)
    · have same := leaves.unique ok
      rw [same] at why
      exact absurd why (by simp)
  | released leaves here =>
    have next := leaves.turn r (releasedAll m gone)
    exact Or.inl ⟨next.1, .released next.2 here, fun _ => leaves, fun _ => next.2⟩

end Stages

/-- A call on p whose release is done and whose result is on the way. -/
def Winning (active : Nat → Option (Nat × Code OffsetStoreStatus)) (p q : Nat) : Prop :=
  ∃ code, active q = some (p, code) ∧ Leaves .ok code

theorem winning_update {active : Nat → Option (Nat × Code OffsetStoreStatus)} {p q p' q' : Nat}
    {code : Code OffsetStoreStatus} :
    Winning (Function.update active q' (some (p', code))) p q ↔
      (q = q' ∧ p' = p ∧ Leaves .ok code) ∨ (q ≠ q' ∧ Winning active p q) := by
  unfold Winning
  by_cases same : q = q'
  · subst same
    simp only [Function.update_self, Option.some.injEq, Prod.mk.injEq]
    constructor
    · rintro ⟨code', ⟨rfl, rfl⟩, leaves⟩
      exact Or.inl ⟨trivial, rfl, leaves⟩
    · rintro (⟨_, rfl, leaves⟩ | ⟨differ, _⟩)
      · exact ⟨code, ⟨rfl, rfl⟩, leaves⟩
      · exact absurd rfl differ
  · simp [same]

theorem calls_update {active : Nat → Option (Nat × Code OffsetStoreStatus)} {P : Nat → Nat → Code OffsetStoreStatus → Prop}
    {q p : Nat} {code : Code OffsetStoreStatus} (calls : ∀ q p code, active q = some (p, code) → P q p code)
    (new : P q p code) :
    ∀ q' p' code', Function.update active q (some (p, code)) q' = some (p', code') → P q' p' code' := by
  intro q' p' code' busy
  by_cases own : q' = q
  · subst own
    simp only [Function.update_self, Option.some.injEq, Prod.mk.injEq] at busy
    obtain ⟨rfl, rfl⟩ := busy
    exact new
  · rw [Function.update_of_ne own] at busy
    exact calls q' p' code' busy

/-- Exactly one call answers for the release of p: one that has returned, or one that will. -/
def Once (st : State Sys OffsetStoreStatus (List (Nat × OffsetStoreStatus)) Nat) (p : Nat) : Prop :=
  (st.client.count (p, .ok) = 1 ∧ ∀ q, ¬Winning st.active p q) ∨
  (st.client.count (p, .ok) = 0 ∧ ∃ q, Winning st.active p q ∧ ∀ q', Winning st.active p q' → q' = q)

structure Racing (regions : Nat → ShmRegion) (m : Mem) (blocks : Nat → List Nat)
    (st : State Sys OffsetStoreStatus (List (Nat × OffsetStoreStatus)) Nat) (gone : List Nat) : Prop where
  mem : st.mem = releasedAll m gone
  nodup : gone.Nodup
  live : ∀ p ∈ gone, LivePayload m blocks p
  calls : ∀ q p code, st.active q = some (p, code) → LivePayload m blocks p ∧ FreeStage (regions q) m p gone code
  answers : ∀ p r, (p, r) ∈ st.client → p ∈ gone ∧ (r = .ok ∨ r = .invalidState ∨ r = .invalidArgument)
  once : ∀ p ∈ gone, Once st p

section System
variable {regions : Nat → ShmRegion} {n : Nat} {m : Mem} {blocks free : Nat → List Nat} {gone : List Nat}
  {st st' : State Sys OffsetStoreStatus (List (Nat × OffsetStoreStatus)) Nat}

theorem Drained.fits (d : Drained n m blocks free gone) {p : Nat} (live : LivePayload m blocks p)
    (shape : HeapShape n m blocks free) : 2728 ≤ n ∧ p < n := by
  have inside := d.shape.header.inside
  unfold heapBase at inside
  exact ⟨by omega, ((live.found shape).bounds d live).2.2.2⟩

theorem racing_start : Racing regions m blocks (freeOrigin m) [] :=
  ⟨rfl, List.nodup_nil, fun _ mem => absurd mem (by simp), fun _ _ _ busy => by simp [freeOrigin] at busy,
    fun _ _ mem => absurd mem (by simp [freeOrigin]), fun _ mem => absurd mem (by simp)⟩

/-- A call that has won has carried out its release. -/
theorem Racing.won (racing : Racing regions m blocks st gone) (map : ∀ q, (regions q).Mapped)
    (total : ∀ q, (regions q).size = n) (shape : HeapShape n m blocks free) (d : Drained n m blocks free gone)
    {p q : Nat} (win : Winning st.active p q) : p ∈ gone := by
  obtain ⟨code, busy, leaves⟩ := win
  obtain ⟨live, stage⟩ := racing.calls q p code busy
  obtain ⟨room, high⟩ := d.fits live shape
  cases stage with
  | fresh => exact absurd leaves (fresh_busy (map q) ((total q).symm ▸ room) ((total q).symm ▸ high) .ok)
  | near near => exact absurd leaves (near.not_leaves (target_busy .ok))
  | refused _ _ here => exact here
  | released _ here => exact here

/-- The status that a finished call returns. -/
theorem Racing.result (racing : Racing regions m blocks st gone) (map : ∀ q, (regions q).Mapped)
    (total : ∀ q, (regions q).size = n) (shape : HeapShape n m blocks free) (d : Drained n m blocks free gone)
    {p q : Nat} {r : OffsetStoreStatus} (busy : st.active q = some (p, ret r)) :
    p ∈ gone ∧ (r = .ok ∨ r = .invalidState ∨ r = .invalidArgument) := by
  obtain ⟨live, stage⟩ := racing.calls q p _ busy
  obtain ⟨room, high⟩ := d.fits live shape
  generalize shown : ret r = code at stage
  have leaves : Leaves r code := shown ▸ rfl
  cases stage with
  | fresh => exact absurd leaves (fresh_busy (map q) ((total q).symm ▸ room) ((total q).symm ▸ high) r)
  | near near => exact absurd leaves (near.not_leaves (target_busy r))
  | refused own why here =>
    rw [leaves.unique own]
    exact ⟨here, Or.inr why⟩
  | released own here => exact ⟨here, Or.inl (leaves.unique own)⟩

/-- One turn either changes nothing and decides nothing, or carries out the first release. -/
theorem Racing.turned (racing : Racing regions m blocks st gone) (map : ∀ q, (regions q).Mapped)
    (total : ∀ q, (regions q).size = n) (shape : HeapShape n m blocks free) (word : n < 2 ^ 64)
    {q p : Nat} {code : Code OffsetStoreStatus} (busy : st.active q = some (p, code)) (r : Int) :
    ∃ more, Racing regions m blocks ⟨(turn r st.mem code).1, st.client,
      Function.update st.active q (some (p, (turn r st.mem code).2))⟩ more := by
  have d := drained shape word racing.nodup racing.live
  obtain ⟨live, stage⟩ := racing.calls q p code busy
  have result := stage_turn (map q) (total q) d (live.found shape) live stage r
  rw [← racing.mem] at result
  obtain ⟨same, next, decided⟩ | ⟨here, changed, leaves⟩ := result
  · have wins : ∀ x y, Winning (Function.update st.active q (some (p, (turn r st.mem code).2))) x y ↔
        Winning st.active x y := by
      intro x y
      rw [winning_update, decided]
      by_cases own : y = q
      · subst own
        simp [Winning, busy]
      · simp [own]
    refine ⟨gone, same.trans racing.mem, racing.nodup, racing.live, calls_update racing.calls ⟨live, next⟩,
      racing.answers, ?_⟩
    · intro p' mem
      have before := racing.once p' mem
      unfold Once at before ⊢
      simpa only [wins] using before
  · have none : ∀ y, ¬Winning st.active p y := fun y win => here (racing.won map total shape d win)
    refine ⟨p :: gone, changed, List.nodup_cons.mpr ⟨here, racing.nodup⟩, ?_, ?_, ?_, ?_⟩
    · intro p' mem
      obtain rfl | mem := List.mem_cons.mp mem
      · exact live
      · exact racing.live p' mem
    · refine calls_update (fun q' p' code' busy' => ?_) ⟨live, .released leaves (by simp)⟩
      obtain ⟨live', stage'⟩ := racing.calls q' p' code' busy'
      exact ⟨live', stage'.grow (by simp)⟩
    · intro p' s mem
      obtain ⟨here', allowed⟩ := racing.answers p' s mem
      exact ⟨List.mem_cons_of_mem _ here', allowed⟩
    · intro p' mem
      by_cases first : p' = p
      · subst first
        refine Or.inr ⟨List.count_eq_zero.mpr fun mem => here (racing.answers _ _ mem).1, q, ?_, ?_⟩
        · exact winning_update.mpr (Or.inl ⟨rfl, rfl, leaves⟩)
        · intro q' win
          obtain ⟨rfl, _⟩ | ⟨_, win⟩ := winning_update.mp win
          · rfl
          · exact absurd win (none q')
      · have old : p' ∈ gone := (List.mem_cons.mp mem).resolve_left first
        have wins : ∀ y, Winning (Function.update st.active q (some (p, (turn r st.mem code).2))) p' y ↔
            Winning st.active p' y := by
          intro y
          rw [winning_update]
          by_cases own : y = q
          · subst own
            simp [Winning, busy, Ne.symm first]
          · simp [own]
        have before := racing.once p' old
        unfold Once at before ⊢
        simpa only [wins] using before

theorem Racing.finished (racing : Racing regions m blocks st gone) (map : ∀ q, (regions q).Mapped)
    (total : ∀ q, (regions q).size = n) (shape : HeapShape n m blocks free) (word : n < 2 ^ 64)
    {q p : Nat} {r : OffsetStoreStatus} (busy : st.active q = some (p, ret r)) :
    Racing regions m blocks ⟨st.mem, st.client ++ [(p, r)], Function.update st.active q none⟩ gone := by
  have d := drained shape word racing.nodup racing.live
  have own := racing.result map total shape d busy
  have wins : ∀ x y, Winning (Function.update st.active q none) x y ↔ y ≠ q ∧ Winning st.active x y := by
    intro x y
    unfold Winning
    by_cases same : y = q
    · subst same
      simp
    · simp [same]
  have winner : ∀ x, Winning st.active x q ↔ x = p ∧ r = .ok := by
    intro x
    unfold Winning
    simp only [busy, Option.some.injEq, Prod.mk.injEq]
    constructor
    · rintro ⟨code, ⟨rfl, rfl⟩, leaves⟩
      exact ⟨rfl, leaves⟩
    · rintro ⟨rfl, rfl⟩
      exact ⟨_, ⟨rfl, rfl⟩, rfl⟩
  refine ⟨racing.mem, racing.nodup, racing.live, ?_, ?_, ?_⟩
  · intro q' p' code' busy'
    by_cases same : q' = q
    · subst same
      simp at busy'
    · exact racing.calls q' p' code' ((Function.update_of_ne same ..).symm.trans busy')
  · intro p' s mem
    rcases List.mem_append.mp mem with mem | mem
    · exact racing.answers p' s mem
    · obtain ⟨rfl, rfl⟩ := Prod.mk.injEq .. ▸ List.mem_singleton.mp mem
      exact own
  · intro p' mem
    by_cases now : p' = p ∧ r = .ok
    · -- the winner returns: its answer takes the place of the call
      obtain ⟨rfl, rfl⟩ := now
      obtain ⟨_, nobody⟩ | ⟨zero, first, _, only⟩ := racing.once p' mem
      · exact absurd ((winner p').mpr ⟨rfl, rfl⟩) (nobody q)
      · refine Or.inl ⟨by simp [List.count_append, zero], fun y win => ?_⟩
        obtain ⟨differ, win⟩ := (wins p' y).mp win
        exact differ ((only y win).trans (only q ((winner p').mpr ⟨rfl, rfl⟩)).symm)
    · have count : (st.client ++ [(p, r)]).count (p', .ok) = st.client.count (p', .ok) := by
        rw [List.count_append, List.count_singleton]
        have differ : ((p, r) == (p', OffsetStoreStatus.ok)) = false := by
          rw [beq_eq_false_iff_ne]
          intro same
          obtain ⟨rfl, rfl⟩ := Prod.mk.injEq .. ▸ same
          exact now ⟨rfl, rfl⟩
        simp [differ]
      have kept : ∀ y, Winning (Function.update st.active q none) p' y ↔ Winning st.active p' y := by
        intro y
        rw [wins]
        refine ⟨fun both => both.2, fun win => ⟨?_, win⟩⟩
        rintro rfl
        exact now ((winner p').mp win)
      have before := racing.once p' mem
      unfold Once at before ⊢
      simpa only [count, kept] using before

theorem Racing.called (racing : Racing regions m blocks st gone) (map : ∀ q, (regions q).Mapped)
    (total : ∀ q, (regions q).size = n) (shape : HeapShape n m blocks free) (word : n < 2 ^ 64)
    {q p : Nat} (idle : st.active q = none) (live : LivePayload m blocks p) :
    Racing regions m blocks ⟨st.mem, st.client, Function.update st.active q
      (some (p, (freeRules regions (LivePayload m blocks)).code q p))⟩ gone := by
  have d := drained shape word racing.nodup racing.live
  obtain ⟨room, high⟩ := d.fits live shape
  have wins : ∀ x y, Winning (Function.update st.active q
      (some (p, (freeRules regions (LivePayload m blocks)).code q p))) x y ↔ Winning st.active x y := by
    intro x y
    rw [winning_update]
    have fresh : ¬Leaves .ok ((freeRules regions (LivePayload m blocks)).code q p) :=
      fresh_busy (map q) ((total q).symm ▸ room) ((total q).symm ▸ high) .ok
    by_cases same : y = q
    · subst same
      simp [Winning, idle, fresh]
    · simp [same]
  refine ⟨racing.mem, racing.nodup, racing.live, calls_update racing.calls ⟨live, .fresh⟩, racing.answers, ?_⟩
  intro p' mem
  have before := racing.once p' mem
  unfold Once at before ⊢
  simpa only [wins] using before

theorem racing_step (racing : Racing regions m blocks st gone) (map : ∀ q, (regions q).Mapped)
    (total : ∀ q, (regions q).size = n) (shape : HeapShape n m blocks free) (word : n < 2 ^ 64)
    (step : Step (freeRules regions (LivePayload m blocks)) st st') :
    ∃ more, Racing regions m blocks st' more := by
  cases step with
  | call q p k idle may =>
    obtain ⟨live, rfl⟩ := may
    exact ⟨gone, racing.called map total shape word idle live⟩
  | turn q r busy => exact racing.turned map total shape word busy r
  | finish q k busy result =>
    have same : k = _ := result
    subst same
    exact ⟨gone, racing.finished map total shape word busy⟩
  | write o n v may => exact may.elim

theorem racing_reachable (map : ∀ q, (regions q).Mapped) (total : ∀ q, (regions q).size = n)
    (shape : HeapShape n m blocks free) (word : n < 2 ^ 64)
    (reach : Reachable (freeRules regions (LivePayload m blocks)) (freeOrigin m) st) :
    ∃ gone, Racing regions m blocks st gone := by
  induction reach with
  | refl => exact ⟨[], racing_start⟩
  | step before next ih =>
    obtain ⟨gone, racing⟩ := ih
    exact racing_step racing map total shape word next

/-- What releases of p at the same time come to, in a state of the run: among the calls that
    returned at most one says OK, and exactly one when all have returned; then the block is on its
    free list once. Only a turn of the call that is going to say OK changes the memory. -/
structure FreedOnce (n : Nat) (m : Mem) (blocks : Nat → List Nat)
    (st : State Sys OffsetStoreStatus (List (Nat × OffsetStoreStatus)) Nat) (p : Nat) : Prop where
  answers : ∀ r, (p, r) ∈ st.client → r = .ok ∨ r = .invalidState ∨ r = .invalidArgument
  most : st.client.count (p, .ok) ≤ 1
  settled : (∃ r, (p, r) ∈ st.client) → (∀ q code, st.active q ≠ some (p, code)) → st.client.count (p, .ok) = 1
  listed : (∃ r, (p, r) ∈ st.client) →
    ∃ free, HeapShape n st.mem blocks free ∧ (free (shardOf m p)).count (blockOf m p) = 1
  silent : ∀ q code r, st.active q = some (p, code) →
    (turn r st.mem code).1 = st.mem ∨ Leaves .ok (turn r st.mem code).2

/-- However many processes release a live pointer at the same time, among releases of other
    live pointers: one of them succeeds, the others are refused and change nothing. -/
theorem racing_frees_once (map : ∀ q, (regions q).Mapped) (total : ∀ q, (regions q).size = n)
    (shape : HeapShape n m blocks free) (word : n < 2 ^ 64)
    (reach : Reachable (freeRules regions (LivePayload m blocks)) (freeOrigin m) st) {p : Nat}
    (live : LivePayload m blocks p) : FreedOnce n m blocks st p := by
  obtain ⟨gone, racing⟩ := racing_reachable map total shape word reach
  have d := drained shape word racing.nodup racing.live
  refine ⟨fun r mem => (racing.answers p r mem).2, ?_, ?_, ?_, ?_⟩
  · by_cases here : p ∈ gone
    · obtain ⟨one, _⟩ | ⟨zero, _⟩ := racing.once p here
      · exact one.le
      · omega
    · exact Nat.le_trans (List.count_eq_zero.mpr fun mem => here (racing.answers p _ mem).1).le (Nat.zero_le 1)
  · rintro ⟨r, mem⟩ quiet
    obtain ⟨one, _⟩ | ⟨_, q, ⟨code, busy, _⟩, _⟩ := racing.once p (racing.answers p r mem).1
    · exact one
    · exact absurd busy (quiet q code)
  · rintro ⟨r, mem⟩
    have here := (racing.answers p r mem).1
    have found := live.found shape
    have shard := d.shape.shards _ found.shard
    refine ⟨_, racing.mem ▸ d.shape, List.count_eq_one_of_mem shard.nodup ((shard.free_iff _).mpr ⟨found.mem, ?_⟩)⟩
    exact ((d.tracked p live).released here).1
  · intro q code r busy
    obtain ⟨_, stage⟩ := racing.calls q p code busy
    have result := stage_turn (map q) (total q) d (live.found shape) live stage r
    rw [← racing.mem] at result
    exact result.imp (fun kept => kept.1) fun won => won.2.2

/-- A release that runs alone. -/
theorem reachable_release {live : Nat → Prop} {start : State Sys OffsetStoreStatus (List (Nat × OffsetStoreStatus)) Nat}
    (before : Reachable (freeRules regions live) start st) {q p : Nat} (idle : st.active q = none) (may : live p)
    {r : OffsetStoreStatus} {m' : Mem}
    (run : exec (allocatorFree (regions q) (add64 (regions q).base p)) st.mem = some (r, m')) :
    Reachable (freeRules regions live) start ⟨m', st.client ++ [(p, r)], Function.update st.active q none⟩ := by
  have alone : exec ((freeRules regions live).code q p) st.mem = some (r, m') := (exec_assume lockGranted _ _).trans run
  have start : (freeRules regions live).start st.client p st.client := ⟨may, rfl⟩
  exact reachable_return before idle start alone rfl

/-- Two releases of an allocation of 128 bytes in the small region: the first has made its checks
    when the second runs to its end. -/
theorem racing_frees_once_small : ∃ m blocks free st, HeapShape 4096 m blocks free ∧
    Reachable (freeRules (fun _ => smallRegion) (LivePayload m blocks)) (freeOrigin m) st ∧
    st.client = [(2784, .ok), (2784, .invalidArgument)] ∧ FreedOnce 4096 m blocks st 2784 := by
  let release := allocatorFree smallRegion (add64 smallRegion.base 2784)
  have served : (exec (allocatorAlloc 4096 smallRegion 128 16) initialised).bind (fun r =>
      (exec release (turn 0 r.2 (assume lockGranted release)).1).bind fun second =>
        (exec (turn 0 r.2 (assume lockGranted release)).2 second.2).map fun first => (r.1, second.1, first.1)) =
      some (.ok (add64 smallRegion.base 2784), .ok, .invalidArgument) := by decide +kernel
  obtain ⟨⟨result, m⟩, run, released⟩ := Option.bind_eq_some_iff.mp served
  obtain ⟨⟨status, m₁⟩, run₁, again⟩ := Option.bind_eq_some_iff.mp released
  obtain ⟨⟨status', m₂⟩, run₂, same⟩ := Option.map_eq_some_iff.mp again
  obtain ⟨address, statuses⟩ := Prod.mk.inj same
  obtain ⟨ok, refused⟩ := Prod.mk.inj statuses
  simp only at address ok refused run₁ run₂
  subst address ok refused
  obtain ⟨m₀, rest, turned⟩ : ∃ m₀ rest, turn 0 m (assume lockGranted release) = (m₀, rest) := ⟨_, _, Prod.mk.eta.symm⟩
  rw [turned] at run₁ run₂
  obtain ⟨V, a, inv, intact, held, place, size⟩ := initialised_alloc (by decide) run
  have shape := inv.shape intact
  have live : LivePayload m (fun s => (V s).blocks.map Block.start) 2784 :=
    place ▸ inv.live_payload intact (by decide) held (by omega)
  have start : Reachable (freeRules (fun _ => smallRegion) (LivePayload m fun s => (V s).blocks.map Block.start))
      (freeOrigin m) (freeOrigin m) := .refl
  have checked := reachable_call start (p := 0) rfl ⟨live, rfl⟩ 0
  rw [show turn 0 (freeOrigin m).mem ((freeRules (fun _ => smallRegion) _).code 0 2784) = (m₀, rest) from turned]
    at checked
  have once := reachable_release (q := 1) checked rfl live run₁
  have twice := reachable_finish (p := 0) once rfl run₂ rfl
  exact ⟨m, _, _, _, shape, twice, rfl,
    racing_frees_once (fun _ => smallRegion_mapped) (fun _ => rfl) shape (by decide) twice live⟩

end System

end OffsetStore
