import OffsetStore.AllocPaths
import OffsetStore.FreeChecks
import OffsetStore.HeapValidate
import OffsetStore.Lib.Total

/- What a failed call of the allocator leaves behind, for any content of the region. The
   walk stores nothing before it has found a block that it can take, and a release nothing
   before it has passed every check. -/
namespace OffsetStore
open ByteMemory Program Prog Words

/-- The failure counter has grown by one, modulo 2^64, and nothing else has changed. -/
structure Counted (m m' : Mem) : Prop where
  others : SameOff m m' 2720 2728
  count : load m' 2720 8 = (load m 2720 8 + 1) % 2 ^ 64

/-- What a failed allocation leaves. -/
structure Spared (m : Mem) (e : OffsetStoreStatus) (m' : Mem) : Prop where
  exhausted : e = .outOfMemory → Counted m m'
  otherwise : e ≠ .outOfMemory → m' = m

/-- The walk along one list leaves the memory alone unless it takes a block, and is never out of memory. -/
def WalkSpared (m : Mem) : Option (Except OffsetStoreStatus Nat) → Mem → Prop
  | some (.ok _), _ => True
  | some (.error e), m' => e ≠ .outOfMemory ∧ m' = m
  | none, m' => m' = m

section Walk
variable {answers : Sys → Int → Prop} {region : ShmRegion} {m : Mem} {s : Nat}

theorem ends_allocExit {α : Type} {post : α → Mem → Prop} {result : α} (holds : post result m) :
    Ends answers post (allocExit s result) m := by
  unfold allocExit
  simp only [perform_bind]
  exact ends_call fun _ _ => ends_call fun _ _ => ends_ret holds

theorem walkSpared_nothing {found : Option (Except OffsetStoreStatus Nat)} (passed : TakesNothing found) :
    WalkSpared m found m := by
  cases found with
  | none => rfl
  | some result =>
    cases result with
    | ok p => exact passed.elim
    | error e => exact ⟨passed, rfl⟩

theorem ends_allocWalk (header size alignment : Nat) (fuel link x : Nat) :
    Ends answers (WalkSpared m) (allocWalk region header s size alignment fuel link x) m := by
  refine (straight_walk header size alignment fuel link x).along (motive := fun q => Ends answers (WalkSpared m) q m)
    (fun _ _ _ rest => ends_read (rest _)) (fun never => never.elim) ?_
  rintro q (rfl | ⟨found, passed, rfl⟩ | ⟨p, _, taking⟩)
  · exact ends_spin
  · exact ends_allocExit (walkSpared_nothing passed)
  · -- from the first store on the walk is sure of a block
    have served : ∀ m', Ends answers (WalkSpared m) q m' := by
      refine taking.along (motive := fun q => ∀ m', Ends answers (WalkSpared m) q m')
        (fun _ _ _ rest m' => ends_read (rest _ m')) (fun _ _ _ _ _ rest m' => ends_write (rest _)) ?_
      rintro _ rfl m'
      exact ends_allocExit trivial
    exact served m

theorem ends_headerValid (region : ShmRegion) (header : Nat) (m : Mem) :
    Ends answers (fun _ m' => m' = m) (allocatorHeaderValid region header) m :=
  ends_silent (loads_header header).silent m

/-- An allocation that fails spares the heap. -/
def AllocSpared (m : Mem) : Except OffsetStoreStatus Nat → Mem → Prop
  | .ok _, _ => True
  | .error e, m' => Spared m e m'

theorem spared_self {e : OffsetStoreStatus} (other : e ≠ .outOfMemory) : AllocSpared m (.error e) m :=
  ⟨fun same => absurd same other, fun _ => rfl⟩

theorem counted_bump (m : Mem) : Counted m (store m 2720 8 (load m 2720 8 + 1)) :=
  ⟨SameOff.store (Nat.le_refl _) (Nat.le_refl _), load_store_mod _ _ _ _⟩

theorem ends_allocShards (fuel shard size alignment left : Nat) :
    Ends answers (AllocSpared m) (allocShards fuel region (headerAddress region) shard size alignment left) m := by
  induction left with
  | zero =>
    have place : region.offsetOf (add64 (headerAddress region) AllocatorHeader.allocationFailures) = 2720 := by
      unfold headerAddress
      rw [ShmRegion.Mapped.offsetOf_field (by simp)]
      rfl
    unfold allocShards
    rw [place]
    exact ends_fetchAdd (ends_ret ⟨fun _ => counted_bump m, fun other => absurd rfl other⟩)
  | succ left ih =>
    unfold allocShards ShmRegion.load64
    simp only [request_bind, loadWord_bind]
    refine ends_call fun r _ => ends_bind (ends_silent (silent_noteShardLock _ r) m) ?_
    rintro _ _ rfl
    split
    · exact ends_ret (spared_self (by simp))
    refine ends_bind (ends_headerValid region _ _) ?_
    rintro valid _ rfl
    split
    · exact ends_allocExit (spared_self (by simp))
    refine ends_read (ends_bind (ends_allocWalk _ _ _ _ _ _) ?_)
    intro found m' spared
    cases found with
    | none =>
      obtain rfl : m' = _ := spared
      exact ih
    | some result =>
      refine ends_ret ?_
      cases result with
      | ok p => trivial
      | error e =>
        obtain ⟨other, rfl⟩ := spared
        exact spared_self other

theorem ends_allocatorAlloc (fuel size alignment : Nat) :
    Ends answers (AllocSpared m) (allocatorAlloc fuel region size alignment) m := by
  unfold allocatorAlloc
  split
  · exact ends_ret (spared_self (by simp))
  dsimp only
  split
  · exact ends_ret (spared_self (by simp))
  unfold allocatorHeaderMut allocatorHeader
  split
  · exact ends_ret (spared_self (by simp))
  · rename_i header found
    split at found
    · simp at found
    obtain rfl := Option.some.inj found
    refine ends_bind (ends_headerValid region _ _) ?_
    rintro valid _ rfl
    split
    · exact ends_ret (spared_self (by simp))
    · exact ends_allocShards _ _ _ _ _

/-- A release that fails has stored nothing. -/
def FreeSpared (m : Mem) (status : OffsetStoreStatus) (m' : Mem) : Prop := status ≠ .ok → m' = m

theorem ends_freeLocked (header ptr blockOffset shard : Nat) :
    Ends answers (FreeSpared m) (freeLocked region header ptr blockOffset shard) m := by
  unfold freeLocked ShmRegion.load32 ShmRegion.load64 ShmRegion.store32 ShmRegion.store64
  simp only [request_bind, perform_bind, loadWord_bind, storeWord_bind]
  refine ends_call fun r _ => ends_bind (ends_silent (silent_noteShardLock _ r) m) ?_
  rintro _ _ rfl
  split
  · exact ends_ret fun _ => rfl
  refine ends_bind (ends_headerValid region _ _) ?_
  rintro valid _ rfl
  split
  · exact ends_call fun _ _ => ends_ret fun _ => rfl
  split
  · exact ends_call fun _ _ => ends_ret fun _ => rfl
  refine ends_read ?_
  split
  · exact ends_call fun _ _ => ends_ret fun _ => rfl
  · refine ends_write (ends_write (ends_read (ends_write (ends_write ?_))))
    exact ends_call fun _ _ => ends_call fun _ _ => ends_ret fun bad => absurd rfl bad

theorem ends_allocatorFree (ptr : Nat) : Ends answers (FreeSpared m) (allocatorFree region ptr) m := by
  unfold allocatorFree ShmRegion.load32 ShmRegion.load64
  simp only [loadWord_bind]
  split
  · exact ends_ret fun _ => rfl
  split
  · exact ends_ret fun _ => rfl
  refine ends_bind (ends_headerValid region _ _) ?_
  rintro valid _ rfl
  split
  · exact ends_ret fun _ => rfl
  refine ends_read ?_
  split
  · exact ends_ret fun _ => rfl
  refine ends_read ?_
  split
  · exact ends_ret fun _ => rfl
  refine ends_read ?_
  split
  · exact ends_ret fun _ => rfl
  · exact ends_freeLocked _ _ _ _

end Walk

/-- Whatever the region holds and the system answers: a failed allocation changes nothing but the failure counter,
    and that only when it is out of memory; a failed release changes nothing. -/
theorem failed_calls_spare {S : Type} (fuel : Nat) (region : ShmRegion) (m : Mem) (size alignment ptr : Nat)
    (handle : Sys → S → Int × S) (s : S) :
    (∀ e m' s', run handle (allocatorAlloc fuel region size alignment) m s = some (.error e, m', s') → Spared m e m') ∧
    ∀ status m' s', run handle (allocatorFree region ptr) m s = some (status, m', s') → status ≠ .ok → m' = m := by
  constructor
  · intro e m' s' result
    have ends : Ends (fun _ _ => True) (AllocSpared m) (allocatorAlloc fuel region size alignment) m :=
      ends_allocatorAlloc fuel size alignment
    have spared := ends_run ends (fun _ _ => trivial) result
    exact spared
  · intro status m' s' result
    have ends : Ends (fun _ _ => True) (FreeSpared m) (allocatorFree region ptr) m := ends_allocatorFree ptr
    exact ends_run ends (fun _ _ => trivial) result

/-- In a region of 4096 bytes a request of 5000 bytes only counts as a failure, a request with an alignment
    of 24 changes nothing, and neither does the release of an address that was never handed out. -/
theorem failed_calls_spare_small :
    (∃ m', run (fun (_ : Sys) (s : Unit) => (0, s)) (allocatorAlloc 4096 smallRegion 5000 16) initialised () =
      some (.error .outOfMemory, m', ()) ∧ Counted initialised m') ∧
    run (fun (_ : Sys) (s : Unit) => (0, s)) (allocatorAlloc 4096 smallRegion 100 24) initialised () =
      some (.error .invalidArgument, initialised, ()) ∧
    run (fun (_ : Sys) (s : Unit) => (0, s)) (allocatorFree smallRegion (add64 smallRegion.base 2800)) initialised () =
      some (.invalidState, initialised, ()) := by
  let granted := fun (_ : Sys) (s : Unit) => ((0 : Int), s)
  have answers : ((run granted (allocatorAlloc 4096 smallRegion 5000 16) initialised ()).map Prod.fst,
      (run granted (allocatorAlloc 4096 smallRegion 100 24) initialised ()).map Prod.fst,
      (run granted (allocatorFree smallRegion (add64 smallRegion.base 2800)) initialised ()).map Prod.fst) =
      (some (.error .outOfMemory), some (.error .invalidArgument), some .invalidState) := by decide +kernel
  simp only [Prod.mk.injEq, Option.map_eq_some_iff] at answers
  obtain ⟨⟨⟨_, m₁, ⟨⟩⟩, exhausted, rfl⟩, ⟨⟨_, m₂, ⟨⟩⟩, refused, rfl⟩, ⟨_, m₃, ⟨⟩⟩, kept, rfl⟩ := answers
  have first := (failed_calls_spare 4096 smallRegion initialised 5000 16 0 _ ()).1 _ _ _ exhausted
  have second := (failed_calls_spare 4096 smallRegion initialised 100 24 0 _ ()).1 _ _ _ refused
  have third := (failed_calls_spare 4096 smallRegion initialised 0 0 (add64 smallRegion.base 2800) _ ()).2 _ _ _ kept
    (by decide)
  rw [second.otherwise (by decide)] at refused
  rw [third] at kept
  exact ⟨⟨m₁, exhausted, first.exhausted rfl⟩, refused, kept⟩

end OffsetStore
