import OffsetStore.HeapCalls
import OffsetStore.Lib.Pool

/- allocator_alloc and allocator_free among other processes, for tokens of any kind.
   The calls are proved once against what they need of the tokens: whoever runs one
   reads the heap, a block it takes becomes a token of its own, and a released token
   is gone. -/
namespace OffsetStore
open ByteMemory Program Prog Words Tiling CellChain Pool

/-- The result of an allocation: the tokens of a new allocation, those of a request that
    found no room, or nothing. -/
def allocResult {T : Type} (Fresh : Alloc → Set T → Prop) (Failed : Set T → Prop) (region : ShmRegion)
    (size alignment : Nat) : Except OffsetStoreStatus Nat → Set T → Prop
  | .ok ptr, own => ∃ a, Fresh a own ∧ ptr = add64 region.base a.ptr ∧ a.size = size ∧ a.align = max alignment 16
  | .error .outOfMemory, own => Failed own
  | .error _, own => own = ∅

/-- Without a result nothing is taken, and the walk had too little fuel. -/
def attemptResult {T : Type} (n fuel : Nat) (Fresh : Alloc → Set T → Prop) (Failed : Set T → Prop)
    (region : ShmRegion) (size alignment : Nat) : Option (Except OffsetStoreStatus Nat) → Set T → Prop
  | some result, own => allocResult Fresh Failed region size alignment result own
  | none, own => own = ∅ ∧ fuel < n

/-- The result of a release: the tokens are gone, or kept when the release fails. -/
def freeResult {T : Type} (token : Set T) : OffsetStoreStatus → Set T → Prop
  | .ok, own => own = ∅
  | _, own => own = token

/-- Any tokens show the heap, and an allocation turns the block it takes, or its failure, into
    tokens. -/
structure Lends {T : Type} (n : Nat) (Inv : Set T → Mem → Prop) (Fresh : Alloc → Set T → Prop)
    (Failed : Set T → Prop) : Prop where
  takes : ∀ {A : Set T} {m : Mem}, Inv A m → ∃ m₀ V, HeapInv n m₀ V ∧ Shows n V m₀ m ∧
    ∀ {s x : Nat} {pre post : List Nat} {a : Alloc}, s < 4 → (V s).free = pre ++ x :: post →
      a.InBlock s x (load m₀ x 8) → ∃ own, Disjoint own A ∧ Fresh a own ∧
        Inv (own ∪ A) (applyStores m (takeStores m₀ s (cellAfter 8 (headCell s) pre) x (a.ptr - x)
          (required x a.size a.align)))
  fails : ∀ {A : Set T} {m : Mem}, Inv A m → ∃ own, Disjoint own A ∧ Failed own ∧
    Inv (own ∪ A) (store m 2720 8 (load m 2720 8 + 1))

structure Pledge {T : Type} (n : Nat) (Inv : Set T → Mem → Prop) (a : Alloc) (token : Set T) : Prop where
  redeems : ∀ {A : Set T} {m : Mem}, Disjoint token A → Inv (token ∪ A) m →
    ∃ m₀ V, HeapInv n m₀ V ∧ Shows n V m₀ m ∧ V.Live a ∧ SameOn m₀ m a.block a.ptr ∧
      (a.ptr - a.block < 2 ^ 32 → Inv A (applyStores m (freeStores m₀ a)))

section Locks
variable {α T : Type} {Inv : Set T → Mem → Prop} {post : Option α → Set T → Prop} {own : Set T}

theorem ready_noteShardLock (s : Nat) (r : Int) :
    Ready Inv (fun (done : Option Unit) held => done = some () ∧ held = own) own
      (attempt (noteShardLock s r)) := by
  have last : Ready Inv (fun (done : Option Unit) held => done = some () ∧ held = own) own
      (attempt (if r = eownerdead then Prog.perform (Sys.mutexConsistent (shardMutex s)) else pure ())) := by
    split
    · exact ready_call fun _ => ready_ret ⟨rfl, rfl⟩
    · exact ready_ret ⟨rfl, rfl⟩
  unfold noteShardLock
  simp only [request_bind, perform_bind]
  refine ready_call fun held => ?_
  beta_reduce
  by_cases warned : held ≠ -1 ∧ held ≠ s
  · rw [if_pos warned]
    exact ready_call fun _ => ready_call fun _ => last
  · rw [if_neg warned]
    exact ready_call fun _ => last

theorem ready_after_lock (s : Nat) (r : Int) {rest : Code α} (ready : Ready Inv post own (attempt rest)) :
    Ready Inv post own (attempt (noteShardLock s r >>= fun _ => rest)) := by
  rw [attempt_bind]
  refine ready_bind (ready_noteShardLock s r) ?_
  rintro done held ⟨rfl, rfl⟩
  exact ready

theorem ready_exit {s : Nat} {rest : Code α} (ready : Ready Inv post own (attempt rest)) :
    Ready Inv post own (attempt (exitCalls s rest)) := ready_call fun _ => ready_call fun _ => ready

end Locks

section Alloc
variable {T : Type} {Inv : Set T → Mem → Prop} {Fresh : Alloc → Set T → Prop} {Failed : Set T → Prop} {n : Nat}
  {region : ShmRegion} (lends : Lends n Inv Fresh Failed) (map : region.Mapped) (total : region.size = n)
include lends map total

theorem ready_section {fuel s size alignment : Nat} (shard : s < 4) (positive : 0 < size)
    (sized : size < 2 ^ 62 ∨ size + alignment + 70 ≤ 2 ^ 64) (least : 16 ≤ alignment) (word : alignment < 2 ^ 64)
    {again : Code (Except OffsetStoreStatus Nat)}
    (rest : Ready Inv (attemptResult n fuel Fresh Failed region size alignment) ∅ (attempt again)) :
    Ready Inv (attemptResult n fuel Fresh Failed region size alignment) ∅
      (attempt (allocSection fuel region (headerAddress region) s (roundUp size 16) alignment again)) := by
  refine ready_of_burst ?_
  intro frame m apart kept
  obtain ⟨m₀, V, inv, shows, takes⟩ := lends.takes kept
  rw [burst_attempt]
  have probe : Probe n region m₀ V fuel s size alignment again
      (burst m (allocSection fuel region (headerAddress region) s (roundUp size 16) alignment again)) :=
    burst_section_probe inv shows map total shard positive sized least word again
  generalize burst m (allocSection fuel region (headerAddress region) s (roundUp size 16) alignment
    again) = result at probe ⊢
  cases probe with
  | took list fits same aligned =>
    rename_i a
    dsimp only
    obtain ⟨own, new, fresh, carried⟩ := takes shard list fits
    rw [Set.empty_union] at new carried
    refine ⟨own, new, carried, ready_exit (ready_ret ⟨a, fresh, rfl, same, ?_⟩)⟩
    rw [aligned]
    omega
  | full => exact ⟨∅, apart, kept, ready_exit rest⟩
  | refused => exact ⟨∅, apart, kept, ready_exit (ready_ret rfl)⟩
  | spent short =>
    have few := inv.free_short shard
    exact ⟨∅, apart, kept, ready_ret ⟨rfl, by omega⟩⟩

theorem ready_shards {fuel shard size alignment : Nat} (positive : 0 < size)
    (sized : size < 2 ^ 62 ∨ size + alignment + 70 ≤ 2 ^ 64) (least : 16 ≤ alignment) (word : alignment < 2 ^ 64)
    (left : Nat) :
    Ready Inv (attemptResult n fuel Fresh Failed region size alignment) ∅
      (attempt (allocShards fuel region (headerAddress region) shard (roundUp size 16) alignment left)) := by
  induction left with
  | zero =>
    have place : region.offsetOf (add64 (headerAddress region) AllocatorHeader.allocationFailures) =
        2720 := by
      unfold headerAddress
      rw [ShmRegion.Mapped.offsetOf_field (by simp)]
      rfl
    rw [allocShards, place]
    refine ready_fetchAdd ?_
    intro frame m apart inv
    obtain ⟨own, new, failed, carried⟩ := lends.fails inv
    rw [Set.empty_union] at new carried
    exact ⟨own, new, carried, ready_ret failed⟩
  | succ left ih =>
    rw [allocShards_succ]
    simp only [request_bind]
    refine ready_call fun r => ready_after_lock _ r ?_
    split
    · exact ready_ret rfl
    · exact ready_section lends map total (Nat.mod_lt _ (by simp)) positive sized least word ih

/-- allocator_alloc returns a payload nobody else holds, or leaves the heap alone. -/
theorem ready_alloc_lent (large : 2728 ≤ n) {fuel size alignment : Nat}
    (sized : size < 2 ^ 62 ∨ size + alignment + 96 ≤ 2 ^ 64) (word : alignment < 2 ^ 64) :
    Ready Inv (attemptResult n fuel Fresh Failed region size alignment) ∅
      (attempt (allocatorAlloc fuel region size alignment)) := by
  by_cases bad : 0 < size ∧ size ≤ 2 ^ 64 - 16
  swap
  · rw [alloc_refused fuel alignment bad]
    exact ready_ret rfl
  have ready : Ready Inv (attemptResult n fuel Fresh Failed region size (max alignment 16)) ∅
      (attempt (allocShards fuel region (headerAddress region) (allocatorSelectShard (roundUp size 16)) (roundUp size 16)
        (max alignment 16) shardCount)) :=
    ready_shards lends map total bad.1 (by omega) (Nat.le_max_right alignment 16) (by omega) shardCount
  refine ready_skip ?_ (ready_weaken ready ?_)
  · intro frame m _ tokens
    obtain ⟨m₀, V, inv, shows, _⟩ := lends.takes tokens
    rw [burst_attempt, burst_attempt, burst_alloc map total large (shows.header inv.header) bad.1 bad.2]
  · intro r own holds
    have same : max (max alignment 16) 16 = max alignment 16 := by omega
    simpa only [attemptResult, allocResult, same] using holds

end Alloc

section Free
variable {T : Type} {Inv : Set T → Mem → Prop} {token : Set T} {a : Alloc} {n : Nat} {region : ShmRegion}
  (pledge : Pledge n Inv a token) (map : region.Mapped) (total : region.size = n)
include pledge map total

theorem ready_freeSection :
    Ready Inv (fun result own => (result = some .ok ∧ own = ∅) ∨
      (result = some .invalidArgument ∧ own = token ∧ 2 ^ 32 ≤ a.ptr - a.block)) token
      (attempt (freeSection region (headerAddress region) (add64 region.base a.ptr) a.block a.shard)) := by
  refine ready_of_burst ?_
  intro frame m apart kept
  obtain ⟨m₀, V, inv, shows, live, own, redeemed⟩ := pledge.redeems apart kept
  rw [burst_attempt]
  have release := burst_freeSection_shown inv shows own map total live
  generalize burst m (freeSection region (headerAddress region) (add64 region.base a.ptr) a.block
    a.shard) = result at release ⊢
  cases release with
  | done released near =>
    refine ⟨∅, Set.empty_disjoint _, ?_, ready_exit (ready_ret (Or.inl ⟨rfl, rfl⟩))⟩
    rw [Set.empty_union]
    exact redeemed near
  | refused far => exact ⟨token, apart, kept, ready_call fun _ => ready_ret (Or.inr ⟨rfl, rfl, far⟩)⟩

theorem burst_free_attempt {frame : Set T} {m : Mem} (apart : Disjoint token frame) (kept : Inv (token ∪ frame) m) :
    burst m (attempt (allocatorFree region (add64 region.base a.ptr))) =
      burst m (attempt (freeLocked region (headerAddress region) (add64 region.base a.ptr) a.block a.shard)) := by
  obtain ⟨m₀, V, inv, shows, live, own, _⟩ := pledge.redeems apart kept
  rw [burst_attempt, burst_free_shown inv shows own map total live]
  rfl

/-- allocator_free of a held allocation gives it back, or leaves it held. -/
theorem ready_free_pledged : Ready Inv (freeResult token) token (allocatorFree region (add64 region.base a.ptr)) := by
  have kept : ∀ status, status ≠ .ok → freeResult token status token := by
    intro status failed
    cases status <;> first | rfl | exact absurd rfl failed
  have done : freeResult token .ok (∅ : Set T) := rfl
  have ready : Ready Inv (fun result own => ∃ status, result = some status ∧ freeResult token status own) token
      (attempt (allocatorFree region (add64 region.base a.ptr))) := by
    refine ready_skip (fun frame m apart tokens => burst_free_attempt pledge map total apart tokens) ?_
    rw [freeLocked_eq]
    simp only [request_bind]
    refine ready_call fun r => ready_after_lock _ r ?_
    split
    · exact ready_ret ⟨.systemError, rfl, kept .systemError (by simp)⟩
    · refine ready_weaken (ready_freeSection pledge map total) ?_
      rintro result own (⟨rfl, rfl⟩ | ⟨rfl, rfl, _⟩)
      · exact ⟨.ok, rfl, done⟩
      · exact ⟨.invalidArgument, rfl, kept .invalidArgument (by simp)⟩
  refine ready_of_attempt ready ?_
  rintro status own ⟨status', same, holds⟩
  rw [Option.some.inj same]
  exact holds

def lockGranted : Sys → Bool
  | .mutexLock _ => true
  | _ => false

/-- When the lock does not fail, a payload of alignment 16 is always given back. -/
theorem ready_free_pledged_granted (near : a.ptr - a.block < 2 ^ 32) :
    Ready Inv (fun result own => result = some .ok ∧ own = ∅) token
      (assume lockGranted (attempt (allocatorFree region (add64 region.base a.ptr)))) := by
  refine ready_skip (q := assume lockGranted (attempt (freeLocked region (headerAddress region)
    (add64 region.base a.ptr) a.block a.shard))) ?_ ?_
  · intro frame m apart tokens
    rw [burst_assume, burst_free_attempt pledge map total apart tokens, ← burst_assume]
  · rw [freeLocked_eq]
    simp only [request_bind]
    refine ready_call fun r => ready_assume (ready_after_lock _ 0 ?_)
    rw [if_neg (by simp [lockGranted])]
    refine ready_weaken (ready_freeSection pledge map total) ?_
    rintro result own (⟨rfl, rfl⟩ | ⟨_, _, far⟩)
    · exact ⟨rfl, rfl⟩
    · omega

end Free

end OffsetStore
