import OffsetStore.AllocPaths
import OffsetStore.AllocatorPool
import OffsetStore.HeapValidate
import OffsetStore.Lib.Total

/- The answers that decide what a call of the allocator does are those to its lock
   requests. Where these are 0, it runs against every system as it runs alone. -/
namespace OffsetStore
open ByteMemory Program Prog Words

section Steady
variable {region : ShmRegion} {s : Nat}

theorem steady_noteShardLock (r : Int) : Steady lockGranted (noteShardLock s r) := by
  have last : Steady lockGranted (if r = eownerdead then Prog.perform (Sys.mutexConsistent (shardMutex s)) else pure ()) :=
    steady_ite (steady_perform steady_ret) steady_ret
  have same : ∀ (held : Int) (m : Mem), exec (if held ≠ -1 ∧ held ≠ s then
      call (.logDeadlockWarning s held) fun _ => call (.setHeldShard s) fun _ =>
        if r = eownerdead then Prog.perform (Sys.mutexConsistent (shardMutex s)) else pure ()
      else call (.setHeldShard s) fun _ =>
        if r = eownerdead then Prog.perform (Sys.mutexConsistent (shardMutex s)) else pure ()) m =
      exec (if r = eownerdead then Prog.perform (Sys.mutexConsistent (shardMutex s)) else pure ()) m := by
    intro held m
    split
    · rfl
    · rfl
  unfold noteShardLock
  simp only [request_bind, perform_bind]
  intro held _
  refine ⟨steady_ite (steady_perform (steady_perform last)) (steady_perform last), fun m => ?_⟩
  exact (same held m).trans (same 0 m).symm

theorem steady_allocExit {α : Type} (result : α) : Steady lockGranted (allocExit s result) := by
  unfold allocExit
  simp only [perform_bind]
  exact steady_perform (steady_perform steady_ret)

theorem steady_allocWalk (header size alignment fuel link x : Nat) :
    Steady lockGranted (allocWalk region header s size alignment fuel link x) :=
  walk_paths (fun _ _ _ rest => steady_read rest) (fun _ _ _ _ rest => steady_write rest) steady_spin
    (fun found _ => steady_allocExit found) header size fuel link x

theorem steady_allocShards (fuel header shard size alignment left : Nat) :
    Steady lockGranted (allocShards fuel region header shard size alignment left) := by
  induction left with
  | zero => exact steady_fetchAdd fun _ => steady_ret
  | succ left ih =>
    unfold allocShards ShmRegion.load64
    simp only [request_bind, loadWord_bind]
    refine steady_fixed rfl (steady_bind (steady_noteShardLock _) fun _ => steady_ite steady_ret ?_)
    refine steady_bind (loads_header _).steady fun valid => steady_ite (steady_allocExit _) ?_
    refine steady_read fun head => steady_bind (steady_allocWalk _ _ _ _ _ _) fun found => ?_
    cases found with
    | none => exact ih
    | some result => exact steady_ret

theorem steady_allocatorAlloc (fuel size alignment : Nat) :
    Steady lockGranted (allocatorAlloc fuel region size alignment) := by
  unfold allocatorAlloc
  refine steady_ite steady_ret ?_
  dsimp only
  split
  · exact steady_ret
  split
  · exact steady_ret
  · exact steady_bind (loads_header _).steady fun valid => steady_ite steady_ret (steady_allocShards _ _ _ _ _ _)

theorem steady_freeLocked (header ptr blockOffset shard : Nat) :
    Steady lockGranted (freeLocked region header ptr blockOffset shard) := by
  unfold freeLocked ShmRegion.load32 ShmRegion.load64 ShmRegion.store32 ShmRegion.store64
  simp only [request_bind, perform_bind, loadWord_bind, storeWord_bind]
  refine steady_fixed rfl (steady_bind (steady_noteShardLock _) fun _ => steady_ite steady_ret ?_)
  refine steady_bind (loads_header _).steady fun valid => steady_ite (steady_perform steady_ret) ?_
  split
  · exact steady_perform steady_ret
  · refine steady_read fun payloadOffset => steady_ite (steady_perform steady_ret) ?_
    refine steady_write (steady_write (steady_read fun head => steady_write (steady_write ?_)))
    exact steady_perform (steady_perform steady_ret)

theorem steady_allocatorFree (ptr : Nat) : Steady lockGranted (allocatorFree region ptr) := by
  unfold allocatorFree ShmRegion.load32 ShmRegion.load64
  simp only [loadWord_bind]
  refine steady_ite steady_ret ?_
  split
  · exact steady_ret
  · refine steady_bind (loads_header _).steady fun valid => steady_ite steady_ret (steady_read fun blockOffset => ?_)
    split
    · exact steady_ret
    · refine steady_read fun flags => steady_ite steady_ret (steady_read fun shard => steady_ite steady_ret ?_)
      exact steady_freeLocked _ _ _ _

end Steady

section Run
variable {S : Type} {handle : Sys → S → Int × S} {region : ShmRegion} {m m' : Mem}

/-- A system that answers every lock request by 0. -/
def Grants (handle : Sys → S → Int × S) : Prop := ∀ mutex s, (handle (.mutexLock mutex) s).1 = 0

theorem Grants.zero (grants : Grants handle) (c : Sys) (s : S) (kind : lockGranted c = true) : (handle c s).1 = 0 := by
  cases c with
  | mutexLock mutex => exact grants mutex s
  | _ => simp [lockGranted] at kind

theorem run_of_alloc (grants : Grants handle) {fuel size alignment : Nat} {result : Except OffsetStoreStatus Nat}
    (alone : exec (allocatorAlloc fuel region size alignment) m = some (result, m')) (s : S) :
    ∃ s', run handle (allocatorAlloc fuel region size alignment) m s = some (result, m', s') :=
  steady_run (steady_allocatorAlloc fuel size alignment) grants.zero alone s

theorem run_of_free (grants : Grants handle) {ptr : Nat} {status : OffsetStoreStatus}
    (alone : exec (allocatorFree region ptr) m = some (status, m')) (s : S) :
    ∃ s', run handle (allocatorFree region ptr) m s = some (status, m', s') :=
  steady_run (steady_allocatorFree ptr) grants.zero alone s

end Run

end OffsetStore
