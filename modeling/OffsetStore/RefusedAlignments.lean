import OffsetStore.AllocReturns
import OffsetStore.HeapInit

/- Requests whose alignment is no power of two. The walk looks at the alignment when it
   stands at a block, so that a heap without free blocks reports exhaustion instead. -/
namespace OffsetStore
open ByteMemory Program Prog Words

/-- From attempt first on, the shards are empty up to one with a free block, and their locks are granted. -/
def BlockMet (V : HeapView) (lock : Nat → Int) (shard first : Nat) : Prop :=
  Reached (fun s => (V s).free = []) (fun s => (V s).free ≠ []) lock shard first

/-- The request is refused for its arguments, and the failure counter stands as before. -/
def ArgumentRefused (m : Mem) (result : Except OffsetStoreStatus Nat) (m' : Mem) : Prop :=
  result = .error .invalidArgument ∧ load m' 2720 8 = load m 2720 8

section Walk
variable {answers : Sys → Int → Prop} {region : ShmRegion} {n s size alignment fuel : Nat} {m : Mem} {V : HeapView}

theorem returns_walk_refused (inv : HeapInv n m V) (map : region.Mapped) (total : region.size = n) (shard : s < 4)
    (bad : ¬∃ k, alignment = 2 ^ k) (link : Nat) :
    Returns answers (fun found m' => m' = m ∧
        found = if (V s).free = [] then none else some (.error .invalidArgument))
      (allocWalk region (headerAddress region) s size alignment (fuel + 1) link (load m (headCell s) 8)) m := by
  have chain := (inv.shards s shard).chain
  cases listed : (V s).free with
  | nil =>
    rw [listed] at chain
    rw [show load m (headCell s) 8 = 0 from chain, allocWalk]
    exact returns_allocExit ⟨rfl, rfl⟩
  | cons x rest =>
    rw [listed] at chain
    rw [show load m (headCell s) 8 = x from chain.1]
    have node := inv.nodes shard x (by simp [listed])
    refine returns_burst.mpr ?_
    rw [burst_walk_refused map total inv.header shard bad node chain.2.1, ← returns_burst]
    exact returns_allocExit ⟨rfl, rfl⟩

theorem returns_shards_refused (inv : HeapInv n m V) (map : region.Mapped) (total : region.size = n)
    (bad : ¬∃ k, alignment = 2 ^ k) {lock : Nat → Int} {shard left : Nat} (attempts : left ≤ shardCount) :
    Returns (LockAnswers lock) (fun result m' => ArgumentRefused m result m' ↔ BlockMet V lock shard (shardCount - left))
      (allocShards (fuel + 1) region (headerAddress region) shard size alignment left) m := by
  induction left with
  | zero =>
    unfold allocShards
    refine returns_fetchAdd (returns_ret (iff_of_false ?_ reached_last))
    rintro ⟨same, _⟩
    simp at same
  | succ left ih =>
    have next : shardCount - (left + 1) + 1 = shardCount - left := by omega
    have met : BlockMet V lock shard (shardCount - (left + 1)) ↔ _ := reached_step (by omega)
    refine returns_allocShards map total inv.header (fun r answered failed => ?_) fun granted => ?_
    · refine iff_of_false (by simp [ArgumentRefused]) ?_
      rw [met]
      rintro ⟨zero, _⟩
      exact failed ((answered _ rfl).trans zero)
    · have zero : lock (shardMutex ((shard + (shardCount - (left + 1))) % shardCount)) = 0 := (granted _ rfl).symm
      refine returns_weaken (returns_walk_refused inv map total (triedShard_lt _ _) bad _) ?_
      rintro _ m' ⟨rfl, rfl⟩
      by_cases empty : (V (triedShard shard (left + 1))).free = []
      · rw [if_pos empty]
        refine ⟨fun result same => by simp at same, fun _ => returns_weaken (ih (by omega)) fun result m' holds => ?_⟩
        rw [holds, met, next]
        refine ⟨fun later => ⟨zero, Or.inr ⟨empty, later⟩⟩, ?_⟩
        rintro ⟨_, here | later⟩
        · exact absurd empty here
        · exact later.2
      · rw [if_neg empty]
        refine ⟨fun result same => ?_, fun same => by simp at same⟩
        obtain rfl := Option.some.inj same
        exact iff_of_true ⟨rfl, rfl⟩ (met.mpr ⟨zero, Or.inl empty⟩)

end Walk

section Refusal
variable {S : Type} {handle : Sys → S → Int × S} {region : ShmRegion} {n fuel size alignment : Nat} {m : Mem} {V : HeapView}

/-- A request whose alignment exceeds 16 and is no power of two is an argument error, counted as no failure, exactly
    when its size cannot be rounded up or when a shard with a free block is reached. -/
theorem alignment_refused_iff (inv : HeapInv n m V) (map : region.Mapped) (total : region.size = n) (enough : 0 < fuel)
    (positive : 0 < size) (large : 16 < alignment) (bad : ¬∃ k, alignment = 2 ^ k) {lock : Nat → Int}
    (answered : ∀ mutex s, (handle (.mutexLock mutex) s).1 = lock mutex) (s : S) :
    ∃ result m' s', run handle (allocatorAlloc fuel region size alignment) m s = some (result, m', s') ∧
      (ArgumentRefused m result m' ↔
        2 ^ 64 - 16 < size ∨ BlockMet V lock (allocatorSelectShard (roundUp size 16)) 0) := by
  have room := inv.room
  unfold heapBase at room
  by_cases huge : 2 ^ 64 - 16 < size
  · refine ⟨.error .invalidArgument, m, s, ?_, iff_of_true ⟨rfl, rfl⟩ (Or.inl huge)⟩
    rw [alloc_refused fuel alignment (by omega)]
    rfl
  · obtain ⟨fuel, rfl⟩ := Nat.exists_eq_succ_of_ne_zero (Nat.ne_of_gt enough)
    have returns : Returns (LockAnswers lock)
        (fun result m' => ArgumentRefused m result m' ↔ BlockMet V lock (allocatorSelectShard (roundUp size 16)) 0)
        (allocatorAlloc (fuel + 1) region size alignment) m := by
      refine returns_burst.mpr ?_
      rw [burst_alloc map total (by omega) inv.header positive (by omega), Nat.max_eq_left (by omega), ← returns_burst]
      exact returns_shards_refused inv map total bad (Nat.le_refl _)
    obtain ⟨result, m', s', run, holds⟩ := returns_run (s := s) returns (lockAnswers_handle answered)
    exact ⟨result, m', s', run, holds.trans (or_iff_right huge).symm⟩

theorem alignment_refused_small : ∃ result m' s', run (fun (_ : Sys) (s : Unit) => (0, s))
    (allocatorAlloc 4096 smallRegion 16 24) initialised () = some (result, m', s') ∧
      (ArgumentRefused initialised result m' ↔
        2 ^ 64 - 16 < 16 ∨ BlockMet (freshView 4096) (fun _ => 0) (allocatorSelectShard (roundUp 16 16)) 0) :=
  alignment_refused_iff initialised_inv smallRegion_mapped rfl (by decide) (by decide) (by decide)
    (by
      rintro ⟨k, power⟩
      have least : 4 < k := (Nat.pow_lt_pow_iff_right (a := 2) (by decide)).mp (power ▸ by decide)
      have most : k < 5 := (Nat.pow_lt_pow_iff_right (a := 2) (by decide)).mp (power ▸ by decide)
      omega)
    (fun _ _ => rfl) ()

def fourRequests : Code (Except OffsetStoreStatus Nat) := do
  let _ ← allocatorAlloc 4096 smallRegion 272 16
  let _ ← allocatorAlloc 4096 smallRegion 272 16
  let _ ← allocatorAlloc 4096 smallRegion 272 16
  allocatorAlloc 4096 smallRegion 272 16

/-- They leave a fresh heap of 4096 bytes without free blocks, and a request with alignment 24 is then reported and
    counted as exhaustion. -/
theorem full_heap_miscounted : ∃ m m', exec fourRequests initialised = some (.ok (smallRegion.base + 3808), m) ∧
    exec (allocatorAlloc 4096 smallRegion 16 24) m = some (.error .outOfMemory, m') ∧
    load m 2720 8 = 0 ∧ load m' 2720 8 = 1 := by
  have five : (exec (fourRequests >>= fun last => allocatorAlloc 4096 smallRegion 16 24 >>= fun result =>
      ret (last, result)) initialised).map (fun out => (out.1, load out.2 2720 8)) =
        some ((.ok (smallRegion.base + 3808), .error .outOfMemory), 1) := by decide +kernel
  have zero : (exec fourRequests initialised).map (fun out => load out.2 2720 8) = some 0 := by decide +kernel
  obtain ⟨⟨out, m₂⟩, result, same⟩ := Option.map_eq_some_iff.mp five
  obtain ⟨last, m, filled, rest⟩ := exec_bind_some result
  obtain ⟨found, m', alloc, ends⟩ := exec_bind_some rest
  simp only [exec_ret, Option.some.injEq, Prod.mk.injEq] at ends same
  obtain ⟨rfl, rfl⟩ := ends
  simp only [Prod.mk.injEq] at same
  obtain ⟨⟨rfl, rfl⟩, one⟩ := same
  rw [filled] at zero
  exact ⟨m, m', filled, alloc, Option.some.inj zero, one⟩

end Refusal

end OffsetStore
