import OffsetStore.Allocator

/- The walk of allocator_alloc along a free list, path by path: loads lead to an exit that
   takes nothing, or to the stores that take a block and the exit with its payload. -/
namespace OffsetStore
open ByteMemory Program Prog Words

/-- The address of a block at offset x, plus what takes the offset behind its header and prefix to a multiple. -/
def PayloadAddress (region : ShmRegion) (alignment p : Nat) : Prop :=
  ∃ x aligned, x < region.size ∧ allocatorAlignUp (add64 40 x) alignment = some aligned ∧
    p = add64 (add64 region.base x) (sub64 aligned x)

theorem resolve_some {region : ShmRegion} {x span address : Nat}
    (resolved : offsetPtrTryResolve region.base region.size x span = some address) :
    x < region.size ∧ address = add64 region.base x := by
  unfold offsetPtrTryResolve at resolved
  split at resolved
  · simp at resolved
  split at resolved
  · simp at resolved
  · rename_i inside
    refine ⟨?_, (Option.some.inj resolved).symm⟩
    by_contra outside
    unfold offsetPtrIsInBounds at inside
    simp [Nat.not_lt.mp outside] at inside

def TakesNothing : Option (Except OffsetStoreStatus Nat) → Prop
  | none => True
  | some (.error e) => e ≠ .outOfMemory
  | some (.ok _) => False

section Walk
variable {region : ShmRegion} {s : Nat}

/-- The stores that take a block, and its exit. -/
abbrev Taking (s p : Nat) : Code (Option (Except OffsetStoreStatus Nat)) → Prop :=
  Straight True fun q => q = allocExit s (some (.ok p))

theorem taking_mark (x block payloadOffset : Nat) :
    Taking s (add64 block payloadOffset) (allocMark region s x block payloadOffset) := by
  unfold allocMark ShmRegion.store64 ShmRegion.store32
  simp only [storeWord_bind]
  iterate 5 refine .write trivial ?_
  exact .done rfl

/-- Only before the first store can the taking fail. -/
theorem straight_take (link x block payloadOffset requiredSize : Nat) :
    Straight False (fun q => q = allocExit s (some (.error .invalidState)) ∨ Taking s (add64 block payloadOffset) q)
      (allocTake region s link x block payloadOffset requiredSize) := by
  unfold allocTake ShmRegion.load64 ShmRegion.store64 ShmRegion.store32
  simp only [loadWord_bind]
  refine .read fun blockSize => straight_ite (fun _ => ?_) fun _ => ?_
  · split
    · exact .done (Or.inl rfl)
    · simp only [storeWord_bind]
      refine .done (Or.inr (.write trivial (.read fun nextFree => ?_)))
      iterate 6 refine .write trivial ?_
      exact taking_mark _ _ _
  · refine .read fun nextFree => .done (Or.inr ?_)
    simp only [storeWord_bind]
    exact .write trivial (taking_mark _ _ _)

/-- Every way out of the walk along a free list, if its links end. -/
theorem straight_walk (header size alignment fuel link x : Nat) :
    Straight False (fun q => q = spin ∨ (∃ found, TakesNothing found ∧ q = allocExit s found) ∨
        ∃ p, PayloadAddress region alignment p ∧ Taking s p q)
      (allocWalk region header s size alignment fuel link x) := by
  have leaves : ∀ found, TakesNothing found → Straight False (fun q => q = spin ∨
      (∃ found, TakesNothing found ∧ q = allocExit s found) ∨ ∃ p, PayloadAddress region alignment p ∧ Taking s p q)
      (allocExit s found) :=
    fun found passed => .done (Or.inr (Or.inl ⟨found, passed, rfl⟩))
  induction fuel generalizing link x with
  | zero => exact .done (Or.inl rfl)
  | succ fuel ih =>
    unfold allocWalk ShmRegion.load64
    simp only [loadWord_bind]
    refine straight_ite (fun _ => leaves _ trivial) fun _ => .read fun heapOffset => .read fun heapSize => ?_
    refine straight_ite (fun _ => leaves _ (by simp [TakesNothing])) fun _ => ?_
    split
    · exact leaves _ (by simp [TakesNothing])
    rename_i block resolved
    obtain ⟨inside, rfl⟩ := resolve_some resolved
    split
    · exact leaves _ (by simp [TakesNothing])
    rename_i aligned rounded
    split
    · exact leaves _ (by simp [TakesNothing])
    refine .read fun blockSize => straight_ite (fun _ => ?_) fun _ => .read fun nextFree => ih _ _
    refine (straight_take _ _ _ _ _).mono fun q way => Or.inr ?_
    rcases way with rfl | taking
    · exact Or.inl ⟨_, by simp [TakesNothing], rfl⟩
    · exact Or.inr ⟨_, ⟨x, aligned, inside, rounded, rfl⟩, taking⟩

/-- A property that survives loads and stores holds of the walk if it holds of every exit. -/
theorem walk_paths {motive : Code (Option (Except OffsetStoreStatus Nat)) → Prop}
    (loads : ∀ o n next, (∀ v, motive (next v)) → motive (read o n next))
    (writes : ∀ o n v next, motive next → motive (write o n v next)) (stuck : motive spin) {alignment : Nat}
    (exits : ∀ found, (∀ p, found = some (.ok p) → PayloadAddress region alignment p) → motive (allocExit s found))
    (header size fuel link x : Nat) : motive (allocWalk region header s size alignment fuel link x) := by
  refine (straight_walk header size alignment fuel link x).along loads (fun never => never.elim) ?_
  rintro q (rfl | ⟨found, passed, rfl⟩ | ⟨p, address, taking⟩)
  · exact stuck
  · refine exits found fun p served => ?_
    subst served
    exact passed.elim
  · refine taking.along loads (fun _ => writes) ?_
    rintro _ rfl
    refine exits _ fun p' same => ?_
    obtain rfl : p = p' := by simpa using same
    exact address

end Walk

end OffsetStore
