import OffsetStore.AllocPaths
import OffsetStore.AllocReturns
import OffsetStore.FreeChecks
import OffsetStore.HeapInit

/- Whether allocator_alloc comes to an end, for any content of the region behind a valid
   header. It goes on from node to node as long as they are blocks of the shard that are too
   small, and nothing bounds their number. -/
namespace OffsetStore
open ByteMemory Program Prog Words

/-- The walk goes on behind node x: a block of the shard, where the payload can be placed and does not fit. -/
structure Skips (n base s : Nat) (m : Mem) (size alignment x : Nat) : Prop where
  node : Node base n s x
  named : x ≠ 0
  small : ∃ aligned needed, allocatorAlignUp (add64 40 x) alignment = some aligned ∧
    allocatorAlignUp (add64 (sub64 aligned x) size) alignofMax = some needed ∧ load m x 8 < needed

/-- The node that k links lead to from the head of the free list of shard s. -/
def nodeAt (m : Mem) (s k : Nat) : Nat := (fun x => load m (x + 8) 8)^[k] (load m (headCell s) 8)

theorem nodeAt_succ (m : Mem) (s k : Nat) : nodeAt m s (k + 1) = load m (nodeAt m s k + 8) 8 :=
  Function.iterate_succ_apply' _ _ _

/-- The walk along the free list of shard s finds nothing and ends. -/
def Exhausted (n base : Nat) (m : Mem) (size alignment s : Nat) : Prop :=
  ∃ k, nodeAt m s k = 0 ∧ ∀ j, j < k → Skips n base s m size alignment (nodeAt m s j)

/-- The walk along the free list of shard s passes every node that it meets. -/
def Endless (n base : Nat) (m : Mem) (size alignment s : Nat) : Prop :=
  ∀ k, Skips n base s m size alignment (nodeAt m s k)

section Node
variable {answers : Sys → Int → Prop} {region : ShmRegion} {m : Mem} {n base s size alignment : Nat}

theorem returns_allocTake (link x block payloadOffset requiredSize : Nat) :
    Returns answers (fun found _ => found ≠ none) (allocTake region s link x block payloadOffset requiredSize) m := by
  have served : ∀ q, Taking s (add64 block payloadOffset) q → ∀ m', Returns answers (fun found _ => found ≠ none) q m' := by
    intro q taking
    refine taking.along (motive := fun q => ∀ m', Returns answers (fun found _ => found ≠ none) q m')
      (fun _ _ _ rest m' => returns_read (rest _ m')) (fun _ _ _ _ _ rest m' => returns_write (rest _)) ?_
    rintro _ rfl m'
    exact returns_allocExit (by simp)
  refine (straight_take link x block payloadOffset requiredSize).along
    (motive := fun q => Returns answers (fun found _ => found ≠ none) q m) (fun _ _ _ rest => returns_read (rest _))
    (fun never => never.elim) ?_
  rintro q (rfl | taking)
  · exact returns_allocExit (by simp)
  · exact served q taking m

variable (answers size alignment) in
theorem walk_node (map : region.Mapped) (total : region.size = n) (header : HeaderRepr n base m) (shard : s < 4)
    {x : Nat} (named : x ≠ 0) (link fuel : Nat) :
    (Skips n base s m size alignment x ∧
      burst m (allocWalk region (headerAddress region) s size alignment (fuel + 1) link x) =
        burst m (allocWalk region (headerAddress region) s size alignment fuel (add64 (add64 region.base x) 8)
          (load m (x + 8) 8))) ∨
    (¬Skips n base s m size alignment x ∧ Returns answers (fun found _ => found ≠ none)
      (allocWalk region (headerAddress region) s size alignment (fuel + 1) link x) m) := by
  by_cases node : Node base n s x
  swap
  · refine Or.inr ⟨fun skips => node skips.node, returns_burst.mpr ?_⟩
    rw [burst_walk_outside map total header shard named link fuel node, ← returns_burst]
    exact returns_allocExit (by simp)
  rw [returns_burst, burst_walk_enter map total header shard named link fuel node, ← returns_burst]
  cases aligns : allocatorAlignUp (add64 40 x) alignment with
  | none =>
    refine Or.inr ⟨?_, returns_allocExit (by simp)⟩
    rintro ⟨_, _, aligned, _, some, _⟩
    simp [aligns] at some
  | some aligned =>
    dsimp only
    cases rounds : allocatorAlignUp (add64 (sub64 aligned x) size) alignofMax with
    | none =>
      refine Or.inr ⟨?_, returns_allocExit (by simp)⟩
      rintro ⟨_, _, other, _, same, some, _⟩
      obtain rfl := Option.some.inj (aligns.symm.trans same)
      exact absurd (rounds.symm.trans some) (by simp)
    | some needed =>
      dsimp only
      by_cases fits : needed ≤ load m x 8
      · rw [if_pos fits]
        refine Or.inr ⟨?_, returns_allocTake _ _ _ _ _⟩
        rintro ⟨_, _, other, least, same, same', small⟩
        obtain rfl := Option.some.inj (aligns.symm.trans same)
        obtain rfl := Option.some.inj (rounds.symm.trans same')
        omega
      · rw [if_neg fits]
        exact Or.inl ⟨⟨node, named, aligned, needed, aligns, rounds, by omega⟩, rfl⟩

/-- The walk goes on to the first node that it does not pass, as far as its fuel lasts. -/
theorem walk_along (map : region.Mapped) (total : region.size = n) (header : HeaderRepr n base m) (shard : s < 4)
    {k : Nat} (skips : ∀ j, j < k → Skips n base s m size alignment (nodeAt m s j)) (link fuel : Nat) :
    ∃ link', burst m (allocWalk region (headerAddress region) s size alignment (k + fuel) link (nodeAt m s 0)) =
      burst m (allocWalk region (headerAddress region) s size alignment fuel link' (nodeAt m s k)) := by
  induction k generalizing fuel with
  | zero => exact ⟨link, by rw [Nat.zero_add]⟩
  | succ k ih =>
    obtain ⟨link', same⟩ := ih (fun j less => skips j (by omega)) (fuel + 1)
    have here := skips k (by omega)
    obtain ⟨_, step⟩ | ⟨stops, _⟩ :=
      walk_node (fun _ _ => True) size alignment map total header shard here.named link' fuel
    · refine ⟨add64 (add64 region.base (nodeAt m s k)) 8, ?_⟩
      rw [Nat.add_right_comm k 1 fuel, Nat.add_assoc, same, step, nodeAt_succ]
    · exact absurd here stops

variable (answers) in
/-- A list that does not keep the walk for ever either ends it with a result or lets it through. -/
theorem walk_returns (map : region.Mapped) (total : region.size = n) (header : HeaderRepr n base m) (shard : s < 4)
    (finite : ¬Endless n base m size alignment s) (link : Nat) : ∃ enough, ∀ fuel, enough ≤ fuel →
    Returns answers (fun found m' => found = none → Exhausted n base m size alignment s ∧ m' = m)
      (allocWalk region (headerAddress region) s size alignment fuel link (nodeAt m s 0)) m := by
  classical
  have leaves : ∃ k, ¬Skips n base s m size alignment (nodeAt m s k) := not_forall.mp finite
  have before : ∀ j, j < Nat.find leaves → Skips n base s m size alignment (nodeAt m s j) :=
    fun j less => not_not.mp (Nat.find_min leaves less)
  refine ⟨Nat.find leaves + 1, fun fuel enough => ?_⟩
  obtain ⟨rest, rfl⟩ := Nat.exists_eq_add_of_le enough
  obtain ⟨link', same⟩ := walk_along map total header shard before link (rest + 1)
  rw [show Nat.find leaves + 1 + rest = Nat.find leaves + (rest + 1) by omega, returns_burst, same, ← returns_burst]
  by_cases null : nodeAt m s (Nat.find leaves) = 0
  · rw [null, allocWalk]
    exact returns_allocExit fun _ => ⟨⟨_, null, before⟩, rfl⟩
  · obtain ⟨skips, _⟩ | ⟨_, stops⟩ := walk_node answers size alignment map total header shard null link' rest
    · exact absurd skips (Nat.find_spec leaves)
    · exact returns_weaken stops fun found m' some none => absurd none some

theorem walk_through (map : region.Mapped) (total : region.size = n) (header : HeaderRepr n base m) (shard : s < 4)
    (exhausted : Exhausted n base m size alignment s) (link fuel : Nat) :
    Ends answers (fun found m' => found = none ∧ m' = m)
      (allocWalk region (headerAddress region) s size alignment fuel link (nodeAt m s 0)) m := by
  obtain ⟨k, null, before⟩ := exhausted
  rcases Nat.lt_or_ge k fuel with less | spent
  · obtain ⟨rest, rfl⟩ := Nat.exists_eq_add_of_le less
    obtain ⟨link', same⟩ := walk_along map total header shard before link (rest + 1)
    rw [show k.succ + rest = k + (rest + 1) by omega, ends_burst, same, ← ends_burst, null, allocWalk]
    exact returns_ends (returns_allocExit ⟨rfl, rfl⟩)
  · obtain ⟨link', same⟩ := walk_along map total header shard (k := fuel) (fun j less => before j (by omega)) link 0
    rw [Nat.add_zero] at same
    rw [ends_burst, same, ← ends_burst]
    exact ends_spin

theorem walk_endless (map : region.Mapped) (total : region.size = n) (header : HeaderRepr n base m) (shard : s < 4)
    (endless : Endless n base m size alignment s) (link fuel : Nat) :
    Ends answers (fun _ _ => False)
      (allocWalk region (headerAddress region) s size alignment fuel link (nodeAt m s 0)) m := by
  obtain ⟨link', same⟩ := walk_along map total header shard (k := fuel) (fun j _ => endless j) link 0
  rw [Nat.add_zero] at same
  rw [ends_burst, same, ← ends_burst]
  exact ends_spin

end Node

section Shards
variable {answers : Sys → Int → Prop} {region : ShmRegion} {m : Mem} {n base size alignment : Nat}

variable (answers) in
/-- The attempts end when each of them ends, as far as the ones before let it be made. -/
theorem shards_return (map : region.Mapped) (total : region.size = n) (header : HeaderRepr n base m) {shard : Nat}
    (Made : Nat → Prop) (step : ∀ left, left < shardCount → Made (left + 1) →
      answers (.mutexLock (shardMutex (triedShard shard (left + 1)))) 0 →
      ¬Endless n base m size alignment (triedShard shard (left + 1)) ∧
        (Exhausted n base m size alignment (triedShard shard (left + 1)) → Made left))
    {left : Nat} (few : left ≤ shardCount) (made : Made left) : ∃ enough, ∀ fuel, enough ≤ fuel →
    Returns answers (fun _ _ => True)
      (allocShards fuel region (headerAddress region) shard size alignment left) m := by
  induction left with
  | zero => exact ⟨0, fun _ _ => returns_fetchAdd (returns_ret trivial)⟩
  | succ left ih =>
    have shardSmall := triedShard_lt shard (left + 1)
    by_cases granted : answers (.mutexLock (shardMutex (triedShard shard (left + 1)))) 0
    swap
    · exact ⟨0, fun fuel _ => returns_allocShards map total header (fun _ _ _ => trivial) fun zero => absurd zero granted⟩
    obtain ⟨finite, through⟩ := step left (by omega) made granted
    obtain ⟨first, walks⟩ := walk_returns answers map total header shardSmall finite
      (add64 (headerAddress region) (AllocatorHeader.shardFreeListHeads + 8 * triedShard shard (left + 1)))
    by_cases exhausted : Exhausted n base m size alignment (triedShard shard (left + 1))
    · obtain ⟨later, rest⟩ := ih (by omega) (through exhausted)
      refine ⟨max first later, fun fuel enough => returns_allocShards map total header (fun _ _ _ => trivial) fun _ => ?_⟩
      refine returns_weaken (walks fuel (by omega)) fun found m' holds => ⟨fun _ _ => trivial, fun none => ?_⟩
      rw [(holds none).2]
      exact rest fuel (by omega)
    · refine ⟨first, fun fuel enough => returns_allocShards map total header (fun _ _ _ => trivial) fun _ => ?_⟩
      exact returns_weaken (walks fuel enough) fun found m' holds =>
        ⟨fun _ _ => trivial, fun none => absurd (holds none).1 exhausted⟩

theorem shards_endless (map : region.Mapped) (total : region.size = n) (header : HeaderRepr n base m) {shard left : Nat}
    {lock : Nat → Int} (few : left ≤ shardCount) (reached : Reached (Exhausted n base m size alignment)
      (Endless n base m size alignment) lock shard (shardCount - left)) (fuel : Nat) :
    Ends (LockAnswers lock) (fun _ _ => False)
      (allocShards fuel region (headerAddress region) shard size alignment left) m := by
  induction left with
  | zero => exact absurd reached reached_last
  | succ left ih =>
    obtain ⟨granted, here⟩ := (reached_step (by omega)).mp reached
    have link : region.offsetOf (add64 (add64 (headerAddress region)
        (AllocatorHeader.shardFreeListHeads + 8 * triedShard shard (left + 1))) 0) = headCell (triedShard shard (left + 1)) :=
      head_link region (triedShard_lt _ _)
    rw [allocShards_succ]
    simp only [request_bind]
    rw [← triedShard] at granted here ⊢
    refine ends_call fun r answered => ends_bind (ends_silent (silent_noteShardLock _ r) m) ?_
    rintro _ m' rfl
    rw [if_neg (by simp [answered _ rfl, granted])]
    unfold allocSection
    refine ends_bind_of_ret (burst_header_valid map total header) ?_
    simp only [Bool.not_true, Bool.false_eq_true, if_false, ShmRegion.load64, loadWord_bind, link]
    refine ends_read ?_
    rcases here with endless | ⟨exhausted, later⟩
    · exact ends_bind (walk_endless map total header (triedShard_lt _ _) endless _ fuel) fun _ _ never => False.elim never
    · refine ends_bind (walk_through map total header (triedShard_lt _ _) exhausted _ fuel) ?_
      rintro _ _ ⟨rfl, rfl⟩
      exact ih (by omega) (by rwa [show shardCount - left = shardCount - (left + 1) + 1 by omega])

end Shards

/-- From the first attempt on, the request comes to a free list that it passes for ever: the locks are granted, and the
    lists before are passed to the end. -/
def Trapped (n base : Nat) (m : Mem) (lock : Nat → Int) (size alignment first : Nat) : Prop :=
  Reached (Exhausted n base m size alignment) (Endless n base m size alignment) lock (allocatorSelectShard size) first

/-- A request of a valid size comes to such a list. -/
def Caught (n base : Nat) (m : Mem) (lock : Nat → Int) (size alignment : Nat) : Prop :=
  0 < size ∧ size ≤ 2 ^ 64 - 16 ∧ Trapped n base m lock (roundUp size 16) (max alignment 16) 0

section Termination
variable {S : Type} {handle : Sys → S → Int × S} {region : ShmRegion} {m : Mem} {n base size alignment : Nat} {lock : Nat → Int}

theorem not_trapped_step {left : Nat} (few : left < shardCount)
    (free : ¬Trapped n base m lock size alignment (shardCount - (left + 1)))
    (granted : LockAnswers lock (.mutexLock (shardMutex (triedShard (allocatorSelectShard size) (left + 1)))) 0) :
    ¬Endless n base m size alignment (triedShard (allocatorSelectShard size) (left + 1)) ∧
      (Exhausted n base m size alignment (triedShard (allocatorSelectShard size) (left + 1)) →
        ¬Trapped n base m lock size alignment (shardCount - left)) := by
  have zero := (granted _ rfl).symm
  unfold Trapped at free
  rw [reached_step (by omega), show shardCount - (left + 1) + 1 = shardCount - left by omega] at free
  exact ⟨fun endless => free ⟨zero, Or.inl endless⟩, fun exhausted later => free ⟨zero, Or.inr ⟨exhausted, later⟩⟩⟩

theorem alloc_returns (map : region.Mapped) (total : region.size = n) (room : 2728 ≤ n) (header : HeaderRepr n base m)
    (free : ¬Caught n base m lock size alignment) : ∃ enough, ∀ fuel, enough ≤ fuel →
    Returns (LockAnswers lock) (fun _ _ => True) (allocatorAlloc fuel region size alignment) m := by
  by_cases good : 0 < size ∧ size ≤ 2 ^ 64 - 16
  swap
  · refine ⟨0, fun fuel _ => ?_⟩
    rw [alloc_refused fuel alignment good]
    exact returns_ret trivial
  obtain ⟨enough, returns⟩ := shards_return (LockAnswers lock) map total header
    (fun left => ¬Trapped n base m lock (roundUp size 16) (max alignment 16) (shardCount - left))
    (fun left few free granted => not_trapped_step few free granted) (Nat.le_refl shardCount)
    (fun trapped => free ⟨good.1, good.2, trapped⟩)
  refine ⟨enough, fun fuel large => returns_burst.mpr ?_⟩
  rw [burst_alloc map total room header good.1 good.2, ← returns_burst]
  exact returns fuel large

/-- Behind a valid header, an allocation ends exactly when it is not caught in a free list. -/
theorem alloc_terminates_iff (map : region.Mapped) (total : region.size = n) (room : 2728 ≤ n)
    (header : HeaderRepr n base m)
    (answered : ∀ mutex s, (handle (.mutexLock mutex) s).1 = lock mutex) (s : S) :
    (∃ enough, ∀ fuel, enough ≤ fuel → ∃ result m' s',
      run handle (allocatorAlloc fuel region size alignment) m s = some (result, m', s')) ↔
        ¬Caught n base m lock size alignment := by
  constructor
  · rintro ⟨enough, ends⟩ ⟨positive, rounds, trapped⟩
    obtain ⟨result, m', s', run⟩ := ends enough (Nat.le_refl _)
    have never : Ends (LockAnswers lock) (fun _ _ => False) (allocatorAlloc enough region size alignment) m := by
      rw [ends_burst, burst_alloc map total room header positive rounds, ← ends_burst]
      exact shards_endless map total header (Nat.le_refl _) trapped enough
    exact ends_run never (lockAnswers_handle answered) run
  · intro free
    obtain ⟨enough, returns⟩ := alloc_returns map total room header free
    refine ⟨enough, fun fuel large => ?_⟩
    obtain ⟨result, m', s', run, _⟩ := returns_run (s := s) (returns fuel large) (lockAnswers_handle answered)
    exact ⟨result, m', s', run⟩

theorem alloc_terminates_small : (∃ enough, ∀ fuel, enough ≤ fuel → ∃ result m' s',
    run (fun (_ : Sys) (s : Unit) => (0, s)) (allocatorAlloc fuel smallRegion 100 16) initialised () =
      some (result, m', s')) ↔ ¬Caught 4096 heapBase initialised (fun _ => 0) 100 16 :=
  alloc_terminates_iff smallRegion_mapped rfl (by decide) initialised_inv.header (fun _ _ => rfl) ()

/-- A fresh heap whose first block has 56 bytes and is linked to itself. -/
def selfLinked : Mem := store (store initialised 2736 8 56) 2744 8 2736

/-- A request of 100 bytes never returns from it. -/
theorem self_linked_endless : HeaderRepr 4096 heapBase selfLinked ∧ ∀ fuel,
    run (fun (_ : Sys) (s : Unit) => (0, s)) (allocatorAlloc fuel smallRegion 100 16) selfLinked () = none := by
  have header : HeaderRepr 4096 heapBase selfLinked := by
    have words : [load selfLinked 2496 8, load selfLinked 2504 4, load selfLinked 2508 4, load selfLinked 2512 8,
        load selfLinked 2520 8] = [allocatorMagic, allocatorVersion, shardCount, heapBase, 4096 - heapBase] := by
      decide +kernel
    simp only [List.cons.injEq, and_true] at words
    exact ⟨words.1, words.2.1, words.2.2.1, words.2.2.2.1, words.2.2.2.2, by decide⟩
  have head : nodeAt selfLinked 0 0 = 2736 := by decide +kernel
  have link : load selfLinked 2744 8 = 2736 := by decide +kernel
  have here : ∀ k, nodeAt selfLinked 0 k = 2736 := by
    intro k
    induction k with
    | zero => exact head
    | succ k ih => rw [nodeAt_succ, ih, link]
  have endless : Endless 4096 heapBase selfLinked (roundUp 100 16) (max 16 16) 0 := by
    intro k
    rw [here]
    exact ⟨⟨by decide, by decide, by decide⟩, by decide, 2784, 160, by decide, by decide, by decide +kernel⟩
  have never : ∀ fuel, Ends (LockAnswers fun _ => 0) (fun _ _ => False) (allocatorAlloc fuel smallRegion 100 16) selfLinked := by
    intro fuel
    rw [ends_burst, burst_alloc smallRegion_mapped rfl (by decide) header (by decide) (by decide), ← ends_burst]
    have trapped : Trapped 4096 heapBase selfLinked (fun _ => 0) (roundUp 100 16) (max 16 16) 0 :=
      ⟨0, by decide, by decide, fun _ _ _ => rfl, fun j _ less => absurd less (by omega), endless⟩
    exact shards_endless smallRegion_mapped rfl header (Nat.le_refl _) trapped fuel
  exact ⟨header, fun fuel => run_none (never fuel) fun c s mutex _ => rfl⟩

end Termination

end OffsetStore
