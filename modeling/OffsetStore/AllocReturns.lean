import OffsetStore.HeapCalls
import OffsetStore.Lib.Total

/- allocator_alloc attempt by attempt, for any content of the region behind a valid
   header: what is left to show is how the walk along each list ends. -/
namespace OffsetStore
open ByteMemory Program Prog Words

section Attempt
variable {answers : Sys → Int → Prop} {region : ShmRegion} {m : Mem} {n base s : Nat}

theorem returns_allocExit {α : Type} {post : α → Mem → Prop} {result : α} (holds : post result m) :
    Returns answers post (allocExit s result) m := by
  unfold allocExit
  simp only [perform_bind]
  exact returns_call fun _ _ => returns_call fun _ _ => returns_ret holds

theorem returns_noteShardLock (r : Int) : Returns answers (fun _ m' => m' = m) (noteShardLock s r) m := by
  unfold noteShardLock
  simp only [request_bind, perform_bind]
  refine returns_call fun held _ => ?_
  split
  · refine returns_call fun _ _ => returns_call fun _ _ => ?_
    split
    · exact returns_call fun _ _ => returns_ret rfl
    · exact returns_ret rfl
  · refine returns_call fun _ _ => ?_
    split
    · exact returns_call fun _ _ => returns_ret rfl
    · exact returns_ret rfl

/-- The shard of the attempt with `left` attempts to go, itself included. -/
def triedShard (shard left : Nat) : Nat := (shard + (shardCount - left)) % shardCount

theorem triedShard_lt (shard left : Nat) : triedShard shard left < 4 := Nat.mod_lt _ (by simp)

/-- One attempt: its lock is refused, or its walk has a result, or the next attempt follows. -/
theorem returns_allocShards (map : region.Mapped) (total : region.size = n) (header : HeaderRepr n base m)
    {post : Except OffsetStoreStatus Nat → Mem → Prop} {fuel shard size alignment left : Nat}
    (refused : ∀ r, answers (.mutexLock (shardMutex (triedShard shard (left + 1)))) r → r ≠ 0 →
      post (.error .systemError) m)
    (walked : answers (.mutexLock (shardMutex (triedShard shard (left + 1)))) 0 →
      Returns answers (fun found m' => (∀ result, found = some result → post result m') ∧
          (found = none → Returns answers post (allocShards fuel region (headerAddress region) shard size alignment left) m'))
        (allocWalk region (headerAddress region) (triedShard shard (left + 1)) size alignment fuel
          (add64 (headerAddress region) (AllocatorHeader.shardFreeListHeads + 8 * triedShard shard (left + 1)))
          (load m (headCell (triedShard shard (left + 1))) 8)) m) :
    Returns answers post (allocShards fuel region (headerAddress region) shard size alignment (left + 1)) m := by
  have link : region.offsetOf (add64 (add64 (headerAddress region)
      (AllocatorHeader.shardFreeListHeads + 8 * triedShard shard (left + 1))) 0) = headCell (triedShard shard (left + 1)) :=
    head_link region (triedShard_lt _ _)
  rw [allocShards_succ]
  simp only [request_bind]
  rw [← triedShard]
  refine returns_call fun r possible => returns_bind (returns_noteShardLock r) ?_
  rintro _ m' rfl
  split
  · rename_i failed
    exact returns_ret (refused r possible failed)
  · rename_i granted
    have zero : r = 0 := not_not.mp granted
    unfold allocSection
    refine returns_bind_of_ret (burst_header_valid map total header) ?_
    simp only [Bool.not_true, Bool.false_eq_true, if_false, ShmRegion.load64, loadWord_bind, link]
    refine returns_read (returns_bind (walked (zero ▸ possible)) ?_)
    intro found m' holds
    cases found with
    | none => exact holds.2 rfl
    | some result => exact returns_ret (holds.1 result rfl)

end Attempt

/-- The answers of an environment that decides each lock once and for all. -/
def LockAnswers (lock : Nat → Int) (c : Sys) (r : Int) : Prop := ∀ mutex, c = .mutexLock mutex → r = lock mutex

theorem lockAnswers_handle {S : Type} {handle : Sys → S → Int × S} {lock : Nat → Int}
    (answered : ∀ mutex s, (handle (.mutexLock mutex) s).1 = lock mutex) (c : Sys) (s : S) :
    LockAnswers lock c (handle c s).1 := by
  rintro mutex rfl
  exact answered mutex s

/-- The attempts from the first one on are let through up to one at a shard that holds, and their locks are granted. -/
def Reached (through holds : Nat → Prop) (lock : Nat → Int) (shard first : Nat) : Prop :=
  ∃ i, first ≤ i ∧ i < shardCount ∧
    (∀ j, first ≤ j → j ≤ i → lock (shardMutex ((shard + j) % shardCount)) = 0) ∧
    (∀ j, first ≤ j → j < i → through ((shard + j) % shardCount)) ∧ holds ((shard + i) % shardCount)

section Reached
variable {through holds : Nat → Prop} {lock : Nat → Int} {shard first : Nat}

theorem reached_last : ¬Reached through holds lock shard shardCount := by
  rintro ⟨i, low, high, _⟩
  omega

theorem reached_step (inside : first < shardCount) : Reached through holds lock shard first ↔
    lock (shardMutex ((shard + first) % shardCount)) = 0 ∧ (holds ((shard + first) % shardCount) ∨
      through ((shard + first) % shardCount) ∧ Reached through holds lock shard (first + 1)) := by
  constructor
  · rintro ⟨i, low, high, granted, before, here⟩
    refine ⟨granted first (Nat.le_refl _) low, ?_⟩
    rcases Nat.eq_or_lt_of_le low with rfl | less
    · exact Or.inl here
    · refine Or.inr ⟨before first (Nat.le_refl _) less, i, less, high, ?_, ?_, here⟩
      · exact fun j more => granted j (by omega)
      · exact fun j more => before j (by omega)
  · rintro ⟨granted, here | ⟨passed, i, low, high, all, before, last⟩⟩
    · refine ⟨first, Nat.le_refl _, inside, fun j less le => ?_, fun j less le => absurd le (by omega), here⟩
      rwa [Nat.le_antisymm le less]
    · refine ⟨i, by omega, high, fun j less le => ?_, fun j less le => ?_, last⟩
      · rcases Nat.eq_or_lt_of_le less with rfl | more
        · exact granted
        · exact all j more le
      · rcases Nat.eq_or_lt_of_le less with rfl | more
        · exact passed
        · exact before j more le

end Reached

end OffsetStore
