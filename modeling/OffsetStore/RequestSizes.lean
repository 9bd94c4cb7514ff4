import OffsetStore.HeapCalls
import OffsetStore.HeapInit
import OffsetStore.HeapShape

/- allocator_alloc on requests of every size. The payload offset and the rounded size are
   added without a check, so that near the largest size_t the sum wraps and a small block
   is taken for a huge request. -/
namespace OffsetStore
open ByteMemory Program Prog Words Tiling CellChain

/-- What the walk adds up at a block: payload offset and rounded size, modulo 2^64. -/
def sumAt (x size alignment : Nat) : Nat := add64 (payloadPtr x alignment - x) (roundUp size 16)

def Passed (m : Mem) (size alignment x : Nat) : Prop :=
  sumAt x size alignment ≤ 2 ^ 64 - 16 ∧ load m x 8 < roundUp (sumAt x size alignment) 16

/-- The walk takes the block, although payload offset and rounded size exceed 2^64 bytes. -/
def Wraps (m : Mem) (size alignment x : Nat) : Prop :=
  2 ^ 64 ≤ payloadPtr x alignment - x + roundUp size 16 ∧ roundUp (sumAt x size alignment) 16 ≤ load m x 8

/-- The end of the walk at a block that it does not pass. -/
def stopAt (region : ShmRegion) (s link size alignment x : Nat) :
    Code (Option (Except OffsetStoreStatus Nat)) :=
  if 2 ^ 64 - 16 < sumAt x size alignment then allocExit s (some (.error .invalidArgument))
  else allocTake region s link x (add64 region.base x) (payloadPtr x alignment - x)
    (roundUp (sumAt x size alignment) 16)

section Walk
variable {region : ShmRegion} {m : Mem} {n base s size k : Nat}

variable (size) in
theorem burst_walk_visit (map : region.Mapped) (total : region.size = n)
    (header : HeaderRepr n base m) (shard : s < 4) (power : k < 64) {x : Nat} (link fuel : Nat)
    (node : Node base n s x) (positive : x ≠ 0) :
    (Passed m size (2 ^ k) x ∧
      burst m (allocWalk region (headerAddress region) s (roundUp size 16) (2 ^ k) (fuel + 1) link x) =
        burst m (allocWalk region (headerAddress region) s (roundUp size 16) (2 ^ k) fuel
          (add64 (add64 region.base x) 8) (load m (x + 8) 8))) ∨
    (¬Passed m size (2 ^ k) x ∧
      burst m (allocWalk region (headerAddress region) s (roundUp size 16) (2 ^ k) (fuel + 1) link x) =
        burst m (stopAt region s link size (2 ^ k) x)) := by
  have user := map.user
  have fits := node.header
  have pow : 2 ^ k ≤ 2 ^ 63 := Nat.pow_le_pow_right (by omega) (by omega)
  have posk := Nat.two_pow_pos k
  have place : allocatorAlignUp (add64 40 x) (2 ^ k) = some (payloadPtr x (2 ^ k)) := by
    rw [add64_eq (by omega), Nat.add_comm, align_up_pow (by omega) power]
    rfl
  have ptrLow : x + 40 ≤ payloadPtr x (2 ^ k) := roundUp_le posk
  have ptrHigh : payloadPtr x (2 ^ k) < x + 40 + 2 ^ k := roundUp_lt posk
  rw [burst_walk_enter map total header shard positive link fuel node]
  simp only [place]
  rw [sub64_eq (by omega) (by omega), show add64 (payloadPtr x (2 ^ k) - x) (roundUp size 16) =
    sumAt x size (2 ^ k) from rfl]
  simp only [alignofMax]
  unfold stopAt Passed
  by_cases large : 2 ^ 64 - 16 < sumAt x size (2 ^ k)
  · refine Or.inr ⟨fun passed => absurd passed.1 (by omega), ?_⟩
    simp only [align_up_large large]
    rw [if_pos large]
  · rw [if_neg large]
    simp only [align_up_sixteen (show sumAt x size (2 ^ k) + 15 < 2 ^ 64 by omega)]
    by_cases fit : roundUp (sumAt x size (2 ^ k)) 16 ≤ load m x 8
    · refine Or.inr ⟨fun passed => absurd passed.2 (by omega), ?_⟩
      rw [if_pos fit]
    · refine Or.inl ⟨⟨by omega, by omega⟩, ?_⟩
      rw [if_neg fit]

variable (size) in
/-- The walk stops at the first node it does not pass. -/
theorem burst_walk_stop (map : region.Mapped) (total : region.size = n)
    (header : HeaderRepr n base m) (shard : s < 4) (power : k < 64)
    {rest : List Nat} {link cell : Nat} (fuel : Nat) (at_cell : LinkAt region link cell)
    (chain : Chain (fun c => load m c 8) 8 cell rest) (nodes : ∀ x ∈ rest, Node base n s x)
    (enough : rest.length < fuel) :
    (∃ pre x post link', rest = pre ++ x :: post ∧ (∀ y ∈ pre, Passed m size (2 ^ k) y) ∧
      ¬Passed m size (2 ^ k) x ∧ LinkAt region link' (cellAfter 8 cell pre) ∧
      burst m (allocWalk region (headerAddress region) s (roundUp size 16) (2 ^ k) fuel link
          (load m cell 8)) = burst m (stopAt region s link' size (2 ^ k) x)) ∨
    ((∀ y ∈ rest, Passed m size (2 ^ k) y) ∧
      burst m (allocWalk region (headerAddress region) s (roundUp size 16) (2 ^ k) fuel link
          (load m cell 8)) = burst m (allocExit s none)) := by
  induction rest generalizing cell link fuel with
  | nil =>
    cases fuel with
    | zero => exact absurd enough (by simp)
    | succ fuel =>
      refine Or.inr ⟨by simp, ?_⟩
      rw [show load m cell 8 = 0 from chain, allocWalk]
      simp
  | cons x rest ih =>
    cases fuel with
    | zero => exact absurd enough (by simp)
    | succ fuel =>
      obtain ⟨first, positive, tail⟩ := chain
      have node := nodes x (by simp)
      have user := map.user
      have short := node.header
      simp only at first
      rw [first]
      obtain ⟨passed, same⟩ | ⟨stopped, same⟩ :=
        burst_walk_visit size map total header shard power link fuel node positive
      · rw [same]
        obtain ⟨pre, y, post, link', list, before, stopped, at', same⟩ | ⟨none, same⟩ :=
          ih fuel (link_field (by omega)) tail (fun y mem => nodes y (List.mem_cons_of_mem _ mem))
            (by simpa using enough)
        · refine Or.inl ⟨x :: pre, y, post, link', by simp [list], ?_, stopped, at', same⟩
          intro z mem
          rcases List.mem_cons.mp mem with rfl | later
          · exact passed
          · exact before z later
        · refine Or.inr ⟨?_, same⟩
          intro z mem
          rcases List.mem_cons.mp mem with rfl | later
          · exact passed
          · exact none z later
      · exact Or.inl ⟨[], x, rest, link, rfl, by simp, stopped, at_cell, same⟩

end Walk

/-- The free blocks in the order in which the calls on the remaining shards visit them. -/
def scanOrder (V : HeapView) (shard : Nat) : Nat → List Nat
  | 0 => []
  | left + 1 => (V ((shard + (shardCount - (left + 1))) % shardCount)).free ++ scanOrder V shard left

/-- The scan stops at block x of shard s: all blocks before it are passed. -/
structure Stops (m : Mem) (V : HeapView) (scan : List Nat) (size alignment s x : Nat) (pre : List Nat) : Prop where
  shard : s < 4
  listed : ∃ post, (V s).free = pre ++ x :: post
  order : ∃ before after, scan = before ++ x :: after ∧ ∀ y ∈ before, Passed m size alignment y
  stopped : ¬Passed m size alignment x

section Shards
variable {region : ShmRegion} {m : Mem} {V : HeapView} {n s size k fuel : Nat}

variable (size) in
theorem exec_section (inv : HeapInv n m V) (map : region.Mapped) (total : region.size = n) (shard : s < 4)
    (power : k < 64) (enough : n ≤ fuel) (again : Code (Except OffsetStoreStatus Nat)) :
    (∃ pre x post link, (V s).free = pre ++ x :: post ∧ (∀ y ∈ pre, Passed m size (2 ^ k) y) ∧
      ¬Passed m size (2 ^ k) x ∧ LinkAt region link (cellAfter 8 (headCell s) pre) ∧
      ∀ result m', exec (stopAt region s link size (2 ^ k) x) m = some (some result, m') →
        exec (allocSection fuel region (headerAddress region) s (roundUp size 16) (2 ^ k) again) m =
          some (result, m')) ∨
    ((∀ y ∈ (V s).free, Passed m size (2 ^ k) y) ∧
      exec (allocSection fuel region (headerAddress region) s (roundUp size 16) (2 ^ k) again) m =
        exec again m) := by
  have link := head_link region shard
  have few := inv.free_short shard
  have cell : ∀ f : Nat → Code (Except OffsetStoreStatus Nat),
      (region.load64 (add64 (headerAddress region) (AllocatorHeader.shardFreeListHeads + 8 * s)) 0 >>= f)
        = Prog.read (headCell s) 8 f := by
    intro f
    rw [ShmRegion.load64, link]
    rfl
  have enter : exec (allocSection fuel region (headerAddress region) s (roundUp size 16) (2 ^ k) again) m =
      exec (allocWalk region (headerAddress region) s (roundUp size 16) (2 ^ k) fuel
        (add64 (headerAddress region) (AllocatorHeader.shardFreeListHeads + 8 * s)) (load m (headCell s) 8) >>=
          fun found => found.elim again pure) m := by
    unfold allocSection
    rw [exec_bind_of_burst (burst_header_valid map total inv.header)]
    simp only [Bool.not_true, Bool.false_eq_true, if_false]
    refine (congrArg (fun p => exec p m) (cell _)).trans (congrArg (fun f => exec (allocWalk region
      (headerAddress region) s (roundUp size 16) (2 ^ k) fuel _ (load m (headCell s) 8) >>= f) m) (funext fun found => ?_))
    cases found with
    | none => rfl
    | some result => rfl
  rw [enter]
  obtain ⟨pre, x, post, link', list, before, stopped, at', same⟩ | ⟨none, same⟩ :=
    burst_walk_stop size map total inv.header shard power fuel link
      (inv.shards s shard).chain (inv.nodes shard) (by omega)
  · refine Or.inl ⟨pre, x, post, link', list, before, stopped, at', fun result m' run => ?_⟩
    rw [exec_burst] at run
    rw [exec_bind, exec_burst, same, run]
    rfl
  · refine Or.inr ⟨none, ?_⟩
    rw [exec_burst, burst_bind_congr same, ← exec_burst]
    rfl

variable (size) in
theorem exec_shards (inv : HeapInv n m V) (map : region.Mapped) (total : region.size = n)
    (power : k < 64) (enough : n ≤ fuel) (shard left : Nat) :
    (∃ s pre x link, Stops m V (scanOrder V shard left) size (2 ^ k) s x pre ∧
      LinkAt region link (cellAfter 8 (headCell s) pre) ∧
      ∀ result m', exec (stopAt region s link size (2 ^ k) x) m = some (some result, m') →
        exec (allocShards fuel region (headerAddress region) shard (roundUp size 16) (2 ^ k) left) m =
          some (result, m')) ∨
    ((∀ y ∈ scanOrder V shard left, Passed m size (2 ^ k) y) ∧
      exec (allocShards fuel region (headerAddress region) shard (roundUp size 16) (2 ^ k) left) m =
        some (.error .outOfMemory, store m 2720 8 (load m 2720 8 + 1))) := by
  induction left with
  | zero =>
    have place : region.offsetOf (add64 (headerAddress region) AllocatorHeader.allocationFailures) = 2720 := by
      unfold headerAddress
      rw [ShmRegion.Mapped.offsetOf_field (by simp)]
      rfl
    refine Or.inr ⟨by simp [scanOrder], ?_⟩
    rw [allocShards, place]
    rfl
  | succ left ih =>
    have lock : exec (allocShards fuel region (headerAddress region) shard (roundUp size 16) (2 ^ k) (left + 1)) m =
        exec (allocSection fuel region (headerAddress region) ((shard + (shardCount - (left + 1))) % shardCount)
          (roundUp size 16) (2 ^ k)
          (allocShards fuel region (headerAddress region) shard (roundUp size 16) (2 ^ k) left)) m := by
      rw [allocShards_succ]
      simp only [request_bind, exec_call]
      rw [exec_bind_of_some (exec_noteShardLock _ m), if_neg (by simp)]
    rw [lock]
    have small : (shard + (shardCount - (left + 1))) % shardCount < 4 := Nat.mod_lt _ (by simp)
    obtain ⟨pre, x, post, link, list, before, stopped, at', runs⟩ | ⟨none, same⟩ :=
      exec_section size inv map total small power enough
        (allocShards fuel region (headerAddress region) shard (roundUp size 16) (2 ^ k) left)
    · refine Or.inl ⟨_, pre, x, link, ⟨small, ⟨post, list⟩, ⟨pre, post ++ scanOrder V shard left, ?_, before⟩, stopped⟩,
        at', runs⟩
      rw [scanOrder, list]
      simp
    · rw [same]
      obtain ⟨s, pre, x, link, stops, at', runs⟩ | ⟨rest, same⟩ := ih
      · obtain ⟨first, later, split, before⟩ := stops.order
        refine Or.inl ⟨s, pre, x, link, ⟨stops.shard, stops.listed,
          ⟨(V ((shard + (shardCount - (left + 1))) % shardCount)).free ++ first, later, ?_, ?_⟩, stops.stopped⟩, at', runs⟩
        · rw [scanOrder, split, List.append_assoc]
        · intro y mem
          rcases List.mem_append.mp mem with here | there
          · exact none y here
          · exact before y there
      · refine Or.inr ⟨?_, same⟩
        intro y mem
        rw [scanOrder] at mem
        rcases List.mem_append.mp mem with here | there
        · exact none y here
        · exact rest y there

/-- An allocation is what its scan of the free blocks makes of it. -/
theorem exec_alloc_scan {alignment : Nat} (map : region.Mapped) (total : region.size = n) (enough : n ≤ fuel)
    (inv : HeapInv n m V) (positive : 0 < size) (small : size ≤ 2 ^ 64 - 16) (power : k < 64)
    (effective : max alignment 16 = 2 ^ k) :
    (∃ s pre x link, Stops m V (scanOrder V (allocatorSelectShard (roundUp size 16)) shardCount) size (2 ^ k) s x pre ∧
      LinkAt region link (cellAfter 8 (headCell s) pre) ∧
      ∀ result m', exec (stopAt region s link size (2 ^ k) x) m = some (some result, m') →
        exec (allocatorAlloc fuel region size alignment) m = some (result, m')) ∨
    ((∀ y ∈ scanOrder V (allocatorSelectShard (roundUp size 16)) shardCount, Passed m size (2 ^ k) y) ∧
      exec (allocatorAlloc fuel region size alignment) m =
        some (.error .outOfMemory, store m 2720 8 (load m 2720 8 + 1))) := by
  have room := inv.room
  unfold heapBase at room
  have shards : exec (allocatorAlloc fuel region size alignment) m = exec (allocShards fuel region (headerAddress region)
      (allocatorSelectShard (roundUp size 16)) (roundUp size 16) (2 ^ k) shardCount) m := by
    rw [exec_burst, burst_alloc map total (by omega) inv.header positive small, ← exec_burst, effective]
  rw [shards]
  exact exec_shards size inv map total power enough (allocatorSelectShard (roundUp size 16)) shardCount

end Shards

section Stop
variable {region : ShmRegion} {m : Mem} {V : HeapView} {n s x size k link cell : Nat}

theorem exec_stop_refused (large : 2 ^ 64 - 16 < sumAt x size (2 ^ k)) :
    exec (stopAt region s link size (2 ^ k) x) m = some (some (.error .invalidArgument), m) := by
  unfold stopAt
  rw [if_pos large]
  rfl

theorem exec_takenExit (payload : Nat) (m : Mem) : exec (takenExit region s x payload) m =
    some (some (.ok (add64 (add64 region.base x) payload)), m) := rfl

def carved (s x size alignment : Nat) : Alloc := ⟨x, s, payloadPtr x alignment, size, alignment⟩

/-- Without a wrap the block is large enough and becomes a live allocation. -/
theorem exec_stop_taken (inv : HeapInv n m V) (map : region.Mapped) (total : region.size = n) (shard : s < 4)
    (positive : 0 < size) (least : 4 ≤ k) {pre post : List Nat} (listed : (V s).free = pre ++ x :: post)
    (at_cell : LinkAt region link (cellAfter 8 (headCell s) pre))
    (fits : payloadPtr x (2 ^ k) - x + roundUp size 16 ≤ 2 ^ 64 - 16) (stopped : ¬Passed m size (2 ^ k) x) :
    required x size (2 ^ k) ≤ load m x 8 ∧ ∃ V', Taken n m (applyStores m (takeStores m s (cellAfter 8 (headCell s) pre) x
        (payloadPtr x (2 ^ k) - x) (required x size (2 ^ k)))) V V' (carved s x size (2 ^ k)) ∧
      exec (stopAt region s link size (2 ^ k) x) m = some (some (.ok (add64 region.base (payloadPtr x (2 ^ k)))),
        applyStores m (takeStores m s (cellAfter 8 (headCell s) pre) x (payloadPtr x (2 ^ k) - x)
          (required x size (2 ^ k)))) := by
  have user := map.user
  have sixteen : 2 ^ 4 ≤ 2 ^ k := Nat.pow_le_pow_right (by omega) least
  have shardInv := inv.shards s shard
  obtain ⟨b, mb, start, free⟩ := shardInv.block_of_free (x := x) (by simp [listed])
  have inside := shardInv.bounds mb
  have finish := shardStart_end_le (Nat.le_of_lt inv.base_lt) shard
  have width := (shardInv.repr b mb).size
  rw [start] at width
  have sum : sumAt x size (2 ^ k) = payloadPtr x (2 ^ k) - x + roundUp size 16 := add64_eq (by omega)
  have fit : required x size (2 ^ k) ≤ load m x 8 := by
    unfold Passed at stopped
    rw [sum] at stopped
    unfold required
    omega
  have room : payloadPtr x (2 ^ k) - x + size ≤ required x size (2 ^ k) := payload_end_le_required x size (2 ^ k)
  have low : x + 40 ≤ payloadPtr x (2 ^ k) := payloadPtr_ge sixteen
  obtain ⟨V', taken⟩ := inv.taken (by omega) shard listed (a := carved s x size (2 ^ k))
    ⟨rfl, rfl, positive, ⟨k, rfl⟩, sixteen, rfl, fit⟩
  have stores := burst_take (s := s) map total at_cell (p := payloadPtr x (2 ^ k) - x)
    (by omega) (by omega) fit (by omega)
  have place : add64 (add64 region.base x) (payloadPtr x (2 ^ k) - x) = add64 region.base (payloadPtr x (2 ^ k)) := by
    rw [add64_add64, Nat.add_sub_cancel' (by omega)]
  refine ⟨fit, V', taken, ?_⟩
  unfold stopAt
  rw [if_neg (by omega), sum, show roundUp (payloadPtr x (2 ^ k) - x + roundUp size 16) 16 = required x size (2 ^ k) from rfl,
    exec_of_burst stores, exec_takenExit, place]

/-- Whatever size is taken, the block ends no larger than it was, and the prefix names it. -/
theorem exec_take_any (map : region.Mapped) (total : region.size = n) (at_cell : LinkAt region link cell)
    {payload taken : Nat} (low : 40 ≤ payload) (word : x + payload < 2 ^ 63 + 2 ^ 62) (least : taken ≤ load m x 8)
    (nonzero : 0 < x) (inside : x + load m x 8 ≤ n) (apart : cell + 8 ≤ x ∨ x + 8 ≤ cell) :
    ∃ m', exec (allocTake region s link x (add64 region.base x) payload taken) m =
        some (some (.ok (add64 region.base (x + payload))), m') ∧
      load m' (x + payload - 8) 8 = x ∧ load m' x 8 ≤ load m x 8 := by
  have user := map.user
  have positive := map.base_pos
  have remaining : sub64 (load m x 8) taken = load m x 8 - taken := sub64_eq least (by omega)
  have place : region.offsetOf (add64 (sub64 (add64 region.base (x + payload)) 8) 0) = x + payload - 8 := by
    unfold ShmRegion.offsetOf sub64 add64
    omega
  have link0 : ∀ v, region.store64 link 0 v = storeWord cell 8 v := by
    intro v
    rw [ShmRegion.store64, at_cell]
  have marks : ∀ m', exec (allocMark region s x (add64 region.base x) payload) m' =
      some (some (.ok (add64 region.base (x + payload))), applyStores m' (markStores x s payload)) := by
    intro m'
    unfold allocMark allocExit
    simp (disch := omega) only [BlockHeader.flags, BlockHeader.nextFree, BlockHeader.shard,
      BlockHeader.payloadOffset, AllocationPrefix.sizeof, AllocationPrefix.blockOffset, store32_field, store64_field]
    simp only [storeWord_bind, exec_write, perform_bind, ShmRegion.store64, exec_call, pure_eq, exec_ret,
      add64_add64, place]
    rfl
  have kept : ∀ m', load (applyStores m' (markStores x s payload)) (x + payload - 8) 8 = x ∧
      load (applyStores m' (markStores x s payload)) x 8 = load m' x 8 := by
    intro m'
    simp only [markStores, applyStores_cons, applyStores_nil]
    refine ⟨load_store_eight (by omega), ?_⟩
    simp (disch := omega) only [load_store_apart]
  unfold allocTake
  simp (disch := omega) only [BlockHeader.size, BlockHeader.nextFree, load64_field]
  simp only [loadWord_bind, exec_read, Nat.add_zero, remaining]
  by_cases split : load m x 8 - taken ≥ allocatorMinBlockSize
  · rw [if_pos split]
    simp only [allocatorMinBlockSize, BlockHeader.sizeof, AllocationPrefix.sizeof, alignofMax] at split
    have next : allocatorBlockFromOffset region (add64 x taken) = some (add64 region.base (x + taken)) := by
      rw [add64_eq (by omega)]
      exact resolve_eq_some map (by omega) (by omega) (by simp only [BlockHeader.sizeof]; omega)
    simp only [next]
    simp (disch := omega) only [BlockHeader.flags, BlockHeader.shard, BlockHeader.payloadOffset,
      store64_field, store32_field]
    simp only [storeWord_bind, exec_write, exec_read, link0]
    rw [marks]
    refine ⟨_, rfl, (kept _).1, ?_⟩
    rw [(kept _).2]
    simp only [Nat.add_zero, load_store_mod]
    have small := Nat.mod_le taken (256 ^ 8)
    omega
  · rw [if_neg split]
    simp only [storeWord_bind, exec_write, exec_read, link0]
    rw [marks]
    refine ⟨_, rfl, (kept _).1, ?_⟩
    rw [(kept _).2, load_store_apart (by omega)]

end Stop

/-- The request overflows: the scan stops at a block where the sum wraps. -/
structure Overflows (m : Mem) (V : HeapView) (size alignment : Nat) : Prop where
  positive : 0 < size
  rounds : size ≤ 2 ^ 64 - 16
  power : ∃ k, alignment = 2 ^ k
  stops : ∃ s x pre, Stops m V (scanOrder V (allocatorSelectShard (roundUp size 16)) shardCount) size alignment s x pre ∧
    Wraps m size alignment x

/-- What allocator_alloc does on a heap that carries V when every call succeeds. -/
inductive AllocOutcome (n : Nat) (region : ShmRegion) (m : Mem) (V : HeapView) (size alignment : Nat) :
    Except OffsetStoreStatus Nat → Mem → Prop where
  | taken {V' : HeapView} {m' : Mem} {a : Alloc} (taken : Taken n m m' V V' a) (sized : a.size = size)
      (aligned : a.align = alignment) (clear : ¬Overflows m V size alignment) :
      AllocOutcome n region m V size alignment (.ok (add64 region.base a.ptr)) m'
  | wrapped {x : Nat} {m' : Mem} (excess : Overflows m V size alignment) (wraps : Wraps m size alignment x)
      (low : heapBase ≤ x) (inside : x + load m x 8 ≤ n) (near : payloadPtr x alignment < x + 40 + alignment)
      (named : load m' (payloadPtr x alignment - 8) 8 = x) (small : load m' x 8 ≤ load m x 8) :
      AllocOutcome n region m V size alignment (.ok (add64 region.base (payloadPtr x alignment))) m'
  | failed {e : OffsetStoreStatus} {m' : Mem} (clear : ¬Overflows m V size alignment)
      (same : m' = m ∨ m' = store m 2720 8 (load m 2720 8 + 1)) :
      AllocOutcome n region m V size alignment (.error e) m'

theorem first_unique {α : Type} {P : α → Prop} {xs ys us vs : List α} {x y : α} (same : xs ++ x :: us = ys ++ y :: vs)
    (left : ∀ z ∈ xs, P z) (right : ∀ z ∈ ys, P z) (hx : ¬P x) (hy : ¬P y) : xs = ys ∧ x = y := by
  induction xs generalizing ys with
  | nil =>
    cases ys with
    | nil => exact ⟨rfl, (List.cons.inj same).1⟩
    | cons z ys =>
      have head : x = z := (List.cons.inj same).1
      exact absurd (head ▸ right z (by simp)) hx
  | cons z xs ih =>
    cases ys with
    | nil =>
      have head : z = y := (List.cons.inj same).1
      exact absurd (head ▸ left z (by simp)) hy
    | cons w ys =>
      obtain ⟨rfl, rest⟩ := List.cons.inj same
      obtain ⟨front, here⟩ := ih rest (fun u mem => left u (List.mem_cons_of_mem _ mem))
        fun u mem => right u (List.mem_cons_of_mem _ mem)
      exact ⟨by rw [front], here⟩

section Calls
variable {region : ShmRegion} {m : Mem} {V : HeapView} {n size alignment fuel : Nat}

theorem Stops.unique {s t x y : Nat} {scan pre pre' : List Nat} (first : Stops m V scan size alignment s x pre)
    (second : Stops m V scan size alignment t y pre') : x = y := by
  obtain ⟨before, after, split, passed⟩ := first.order
  obtain ⟨before', after', split', passed'⟩ := second.order
  exact (first_unique (split.symm.trans split') passed passed' first.stopped second.stopped).2

theorem Stops.not_passed {s x : Nat} {scan pre : List Nat} (stops : Stops m V scan size alignment s x pre)
    (all : ∀ y ∈ scan, Passed m size alignment y) : False := by
  obtain ⟨before, after, split, _⟩ := stops.order
  exact stops.stopped (all x (by simp [split]))

theorem exec_shards_refused (inv : HeapInv n m V) (map : region.Mapped) (total : region.size = n) (enough : n ≤ fuel)
    (bad : ¬∃ k, alignment = 2 ^ k) (shard rounded left : Nat) :
    ∃ e m', exec (allocShards fuel region (headerAddress region) shard rounded alignment left) m = some (.error e, m') ∧
      (m' = m ∨ m' = store m 2720 8 (load m 2720 8 + 1)) := by
  induction left with
  | zero =>
    have place : region.offsetOf (add64 (headerAddress region) AllocatorHeader.allocationFailures) = 2720 := by
      unfold headerAddress
      rw [ShmRegion.Mapped.offsetOf_field (by simp)]
      rfl
    rw [allocShards, place]
    exact ⟨_, _, rfl, Or.inr rfl⟩
  | succ left ih =>
    rw [allocShards_succ]
    simp only [request_bind, exec_call]
    rw [exec_bind_of_some (exec_noteShardLock _ m), if_neg (by simp)]
    have small : (shard + (shardCount - (left + 1))) % shardCount < 4 := Nat.mod_lt _ (by simp)
    generalize (shard + (shardCount - (left + 1))) % shardCount = s at small ⊢
    have few := inv.free_short small
    have link := head_link region small
    have chain := (inv.shards s small).chain
    unfold allocSection
    rw [exec_bind_of_burst (burst_header_valid map total inv.header)]
    simp only [Bool.not_true, Bool.false_eq_true, if_false, ShmRegion.load64]
    rw [link]
    simp only [loadWord_bind, exec_read]
    obtain ⟨fuel, rfl⟩ : ∃ f, fuel = f + 1 := ⟨fuel - 1, by omega⟩
    cases list : (V s).free with
    | nil =>
      rw [list] at chain
      rw [show load m (headCell s) 8 = 0 from chain, allocWalk]
      exact ih
    | cons x rest =>
      rw [list] at chain
      have node := inv.nodes small x (by simp [list])
      rw [show load m (headCell s) 8 = x from chain.1, exec_burst,
        burst_bind_congr (burst_walk_refused map total inv.header small bad node chain.2.1), ← exec_burst]
      exact ⟨_, _, rfl, Or.inl rfl⟩

section Stop
variable {s x k link : Nat} {pre : List Nat} (inv : HeapInv n m V) (map : region.Mapped) (total : region.size = n)
  (positive : 0 < size) (rounds : size ≤ 2 ^ 64 - 16) (power : k < 64) (least : 4 ≤ k)
  (stops : Stops m V (scanOrder V (allocatorSelectShard (roundUp size 16)) shardCount) size (2 ^ k) s x pre)
  (at_cell : LinkAt region link (cellAfter 8 (headCell s) pre))
include inv map total positive rounds power least stops at_cell

/-- The walk stops at a block where the sum wraps, and takes it. -/
theorem exec_stop_wrapped (wraps : 2 ^ 64 ≤ payloadPtr x (2 ^ k) - x + roundUp size 16) :
    ∃ m', exec (stopAt region s link size (2 ^ k) x) m = some (some (.ok (add64 region.base (payloadPtr x (2 ^ k)))), m') ∧
      AllocOutcome n region m V size (2 ^ k) (.ok (add64 region.base (payloadPtr x (2 ^ k)))) m' := by
  have user := map.user
  have half : 2 ^ k ≤ 2 ^ 63 := Nat.pow_le_pow_right (by omega) (by omega)
  have sixteen : 2 ^ 4 ≤ 2 ^ k := Nat.pow_le_pow_right (by omega) least
  obtain ⟨post, listed⟩ := stops.listed
  have shardInv := inv.shards s stops.shard
  obtain ⟨b, mb, start, free⟩ := shardInv.block_of_free (x := x) (by simp [listed])
  have inside := shardInv.bounds mb
  have first := shardStart_ge n s
  have finish := shardStart_end_le (Nat.le_of_lt inv.base_lt) stops.shard
  have width := (shardInv.repr b mb).size
  rw [start] at width
  have ptrLow : x + 40 ≤ payloadPtr x (2 ^ k) := payloadPtr_ge (by omega)
  have ptrHigh : payloadPtr x (2 ^ k) < x + 40 + 2 ^ k := roundUp_lt (by omega)
  have rounded : roundUp size 16 ≤ 2 ^ 64 - 16 := by
    rw [roundUp_sixteen]
    omega
  have sum : sumAt x size (2 ^ k) = payloadPtr x (2 ^ k) - x + roundUp size 16 - 2 ^ 64 := by
    unfold sumAt add64
    omega
  have taken : roundUp (sumAt x size (2 ^ k)) 16 ≤ load m x 8 := by
    by_contra excess
    exact stops.stopped ⟨by omega, by omega⟩
  -- the link to x is the head of its list or lies in another block
  have apart : cellAfter 8 (headCell s) pre + 8 ≤ x ∨ x + 8 ≤ cellAfter 8 (headCell s) pre := by
    rcases cellAfter_cases 8 (headCell s) pre with ⟨_, eq⟩ | ⟨y, my, eq⟩
    · rw [eq, headCell_eq]
      have shard := stops.shard
      omega
    · have apart := shardInv.free_apart mb (x := y) (by simp [listed, my])
      omega
  obtain ⟨m', run, named, shrunk⟩ := exec_take_any (s := s) map total at_cell
    (show 40 ≤ payloadPtr x (2 ^ k) - x by omega) (by omega) taken (by omega) (by omega) apart
  rw [Nat.add_sub_cancel' (by omega : x ≤ payloadPtr x (2 ^ k))] at run named
  refine ⟨m', ?_, .wrapped ⟨positive, rounds, ⟨k, rfl⟩, s, x, pre, stops, wraps, taken⟩ ⟨wraps, taken⟩
    (by unfold heapBase; omega) (by omega) ptrHigh named shrunk⟩
  unfold stopAt
  rw [if_neg (by omega)]
  exact run

/-- The stop decides the allocation. -/
theorem exec_stop : ∃ result m', exec (stopAt region s link size (2 ^ k) x) m = some (some result, m') ∧
    AllocOutcome n region m V size (2 ^ k) result m' := by
  by_cases wraps : 2 ^ 64 ≤ payloadPtr x (2 ^ k) - x + roundUp size 16
  · obtain ⟨m', run, outcome⟩ := exec_stop_wrapped inv map total positive rounds power least stops at_cell wraps
    exact ⟨_, m', run, outcome⟩
  · -- another stop would be at the same block
    have honest : ¬Overflows m V size (2 ^ k) := by
      rintro ⟨_, _, _, t, y, pre', stops', excess, _⟩
      rw [stops'.unique stops] at excess
      exact wraps excess
    obtain ⟨post, listed⟩ := stops.listed
    by_cases refused : 2 ^ 64 - 16 < sumAt x size (2 ^ k)
    · exact ⟨_, m, exec_stop_refused refused, .failed honest (Or.inl rfl)⟩
    · have sum : sumAt x size (2 ^ k) = payloadPtr x (2 ^ k) - x + roundUp size 16 := add64_eq (by omega)
      obtain ⟨_, V', taken, run⟩ := exec_stop_taken inv map total stops.shard positive least listed at_cell (by omega)
        stops.stopped
      exact ⟨_, _, run, .taken taken rfl rfl honest⟩

end Stop

variable (size alignment) in
theorem exec_alloc (inv : HeapInv n m V) (map : region.Mapped) (total : region.size = n) (enough : n ≤ fuel)
    (word : alignment < 2 ^ 64) :
    ∃ result m', exec (allocatorAlloc fuel region size alignment) m = some (result, m') ∧
      AllocOutcome n region m V size (max alignment 16) result m' := by
  have room := inv.room
  unfold heapBase at room
  by_cases good : 0 < size ∧ size ≤ 2 ^ 64 - 16
  swap
  · rw [alloc_refused fuel alignment good]
    exact ⟨_, _, rfl, .failed (fun excess => good ⟨excess.positive, excess.rounds⟩) (Or.inl rfl)⟩
  have least : 16 ≤ max alignment 16 := Nat.le_max_right _ _
  by_cases power : ∃ k, max alignment 16 = 2 ^ k
  · obtain ⟨k, effective⟩ := power
    have wide : max alignment 16 < 2 ^ 64 := by omega
    rw [effective] at wide least ⊢
    have small : k < 64 := (Nat.pow_lt_pow_iff_right (by omega)).mp wide
    have four : 4 ≤ k := (Nat.pow_le_pow_iff_right (a := 2) (by omega)).mp least
    obtain ⟨s, pre, x, link, stops, at', runs⟩ | ⟨none, same⟩ :=
      exec_alloc_scan map total enough inv good.1 good.2 small effective
    · obtain ⟨result, m', run, outcome⟩ := exec_stop inv map total good.1 good.2 small four stops at'
      exact ⟨result, m', runs result m' run, outcome⟩
    · refine ⟨_, _, same, .failed ?_ (Or.inr rfl)⟩
      rintro ⟨_, _, _, s, x, pre, stops, _⟩
      exact stops.not_passed none
  · rw [exec_burst, burst_alloc map total (by omega) inv.header (by omega) (by omega), ← exec_burst]
    obtain ⟨e, m', run, same⟩ := exec_shards_refused inv map total enough power
      (allocatorSelectShard (roundUp size 16)) (roundUp size 16) shardCount
    exact ⟨_, m', run, .failed (fun excess => power excess.power) same⟩

end Calls

/-- The payload at p lies in the block that its prefix names, behind the offset in the header of the
    block, and the blocks of the shard fill it. -/
structure Housed (n : Nat) (m : Mem) (p size : Nat) : Prop where
  fits : payloadOffsetOf m (load m (p - AllocationPrefix.sizeof) 8) + size ≤
    blockSizeOf m (load m (p - AllocationPrefix.sizeof) 8)
  tiled : ∃ s, s < 4 ∧ ∃ blocks, load m (p - AllocationPrefix.sizeof) 8 ∈ blocks ∧
    Tiles id (blockSizeOf m) (shardStart heapBase n s) (shardStart heapBase n s + shardSize heapBase n) blocks ∧
    ∀ b ∈ blocks, BlockHeader.sizeof ≤ blockSizeOf m b

def RequestFits (fuel : Nat) (region : ShmRegion) (n : Nat) (m : Mem) (size alignment : Nat) : Prop :=
  ∀ ptr m', exec (allocatorAlloc fuel region size alignment) m = some (.ok ptr, m') →
    Housed n m' (region.offsetOf ptr) size

section Fitting
variable {region : ShmRegion} {m : Mem} {V : HeapView} {n size alignment fuel : Nat}

theorem HeapInv.housed (inv : HeapInv n m V) {a : Alloc} (live : V.Live a) : Housed n m a.ptr a.size := by
  obtain ⟨s, shard, b, mem, kind, fits, _⟩ := inv.live_block live
  have shardInv := inv.shards s shard
  have repr := shardInv.repr b mem
  have use := repr.use
  unfold UseRepr at use
  rw [kind] at use
  have low := fits.ptr_ge
  have high := fits.ptr_le
  have cut := Nat.mod_le (a.ptr - b.start) (2 ^ 32)
  have width : ∀ c ∈ (V s).blocks, blockSizeOf m c.start = c.size := fun c mc => (shardInv.repr c mc).size
  constructor
  · rw [AllocationPrefix.sizeof, use.2.2.2, width b mem]
    unfold payloadOffsetOf
    rw [BlockHeader.payloadOffset, use.2.2.1]
    omega
  · rw [AllocationPrefix.sizeof, use.2.2.2]
    refine ⟨s, shard, (V s).blocks.map Block.start, List.mem_map_of_mem mem, ?_, ?_⟩
    · exact tiles_map Block.start shardInv.tiles fun c mc => ⟨rfl, width c mc⟩
    · intro x mx
      obtain ⟨c, mc, rfl⟩ := List.mem_map.mp mx
      have large := shardInv.large c mc
      rw [width c mc, BlockHeader.sizeof]
      omega

theorem wrapped_not_housed {m' : Mem} {x p : Nat} (wraps : Wraps m size alignment x) (word : alignment ≤ 2 ^ 63)
    (near : payloadPtr x alignment < x + 40 + alignment) (inside : x + load m x 8 ≤ 2 ^ 56)
    (named : load m' (p - 8) 8 = x) (small : load m' x 8 ≤ load m x 8) : ¬Housed n m' p size := by
  intro housed
  have fits := housed.fits
  have sum := wraps.1
  have rounded : roundUp size 16 < size + 16 := roundUp_lt (by omega)
  rw [AllocationPrefix.sizeof, named] at fits
  unfold blockSizeOf at fits
  rw [BlockHeader.size, Nat.add_zero] at fits
  omega

/-- The first allocation of a fresh heap of 4096 bytes, when it is served at 2784. -/
theorem initialised_alloc {size : Nat} {m : Mem} (small : size ≤ 4096)
    (run : exec (allocatorAlloc 4096 smallRegion size 16) initialised = some (.ok (add64 smallRegion.base 2784), m)) :
    ∃ V a, HeapInv 4096 m V ∧ V.Intact ∧ V.Live a ∧ a.ptr = 2784 ∧ a.size = size := by
  obtain ⟨result, m', run', outcome⟩ :=
    exec_alloc size 16 initialised_inv smallRegion_mapped rfl (Nat.le_refl 4096) (by decide)
  obtain ⟨address, rfl⟩ := Prod.mk.inj (Option.some.inj (run.symm.trans run'))
  cases outcome with
  | taken taken sized aligned clear =>
    have live := (taken.live _).mpr (Or.inr rfl)
    have bounds := taken.inv.live_bounds live
    have place := (add64_left_cancel (by omega) (by omega)).mp (Except.ok.inj address)
    exact ⟨_, _, taken.inv, taken.intact (fresh_intact 4096), live, place.symm, sized⟩
  | wrapped _ wraps =>
    have sum := wraps.1
    rw [roundUp_sixteen] at sum
    omega
  | failed => exact absurd address (by simp)

/-- A served request fits its block exactly when the scan does not stop at a block where
    payload offset and size wrap. -/
theorem request_fits_iff (inv : HeapInv n m V) (map : region.Mapped) (total : region.size = n) (enough : n ≤ fuel)
    (word : alignment < 2 ^ 64) :
    RequestFits fuel region n m size alignment ↔ ¬Overflows m V size (max alignment 16) := by
  have user := map.user
  obtain ⟨result, m', run, outcome⟩ := exec_alloc size alignment inv map total enough word
  unfold RequestFits
  rw [run]
  cases outcome with
  | taken taken sized aligned clear =>
    refine ⟨fun _ => clear, fun _ ptr m'' same => ?_⟩
    obtain ⟨address, rfl⟩ := Prod.mk.inj (Option.some.inj same)
    have live := (taken.live _).mpr (Or.inr rfl)
    have bounds := taken.inv.live_bounds live
    rw [← Except.ok.inj address, ShmRegion.Mapped.offsetOf_base (by omega), ← sized]
    exact taken.inv.housed live
  | wrapped excess wraps low inside near named small =>
    refine ⟨fun promise => ?_, fun clear => absurd excess clear⟩
    obtain ⟨k, power⟩ := excess.power
    have exponent : k < 64 := (Nat.pow_lt_pow_iff_right (a := 2) (by omega)).mp (by omega)
    have half : 2 ^ k ≤ 2 ^ 63 := Nat.pow_le_pow_right (by omega) (by omega)
    have housed := promise _ m' rfl
    rw [ShmRegion.Mapped.offsetOf_base (by omega)] at housed
    exact absurd housed (wrapped_not_housed wraps (by omega) near (by omega) named small)
  | failed clear same =>
    refine ⟨fun _ => clear, fun _ ptr m'' same => ?_⟩
    exact absurd (Prod.mk.inj (Option.some.inj same)).1 (by simp)

theorem request_fits_iff_small : RequestFits 4096 smallRegion 4096 initialised 100 16 ↔
    ¬Overflows initialised (freshView 4096) 100 (max 16 16) :=
  request_fits_iff initialised_inv smallRegion_mapped rfl (Nat.le_refl _) (by decide)

/-- On a fresh heap a request of 2^64 - 16 bytes is served from a block of 340 bytes. -/
theorem huge_request_served : HeapInv 4096 initialised (freshView 4096) ∧
    ¬RequestFits 4096 smallRegion 4096 initialised (2 ^ 64 - 16) 16 := by
  refine ⟨initialised_inv, fun promise => ?_⟩
  have served : (exec (allocatorAlloc 4096 smallRegion (2 ^ 64 - 16) 16) initialised).map (fun r =>
      (r.1, load r.2 (3808 - 8) 8, load r.2 3756 8)) = some (.ok (smallRegion.base + 3808), 3756, 48) := by decide +kernel
  obtain ⟨⟨result, m'⟩, run, same⟩ := Option.map_eq_some_iff.mp served
  obtain ⟨address, words⟩ := Prod.mk.inj same
  obtain ⟨named, width⟩ := Prod.mk.inj words
  simp only at address named width
  rw [address] at run
  have fits := (promise _ m' run).fits
  have place : smallRegion.offsetOf (smallRegion.base + 3808) = 3808 := by decide
  rw [place, AllocationPrefix.sizeof, named] at fits
  unfold blockSizeOf at fits
  rw [BlockHeader.size, Nat.add_zero, width] at fits
  omega

end Fitting

end OffsetStore
