import OffsetStore.AllocPaths
import OffsetStore.HeapCalls
import OffsetStore.HeapInit

/- The addresses that allocator_alloc returns. It rounds offsets from the base of the
   mapping, not addresses, so that an address is aligned no better than the base. -/
namespace OffsetStore
open ByteMemory Program Prog Words

/-- Every address among the results satisfies P. -/
def Addresses (P : Nat → Prop) (result : Except OffsetStoreStatus Nat) : Prop := ∀ p, result = .ok p → P p

section Results
variable {region : ShmRegion}

theorem results_allocExit {α : Type} {Q : α → Prop} {s : Nat} {result : α} (holds : Q result) :
    Results Q (allocExit s result) := by
  unfold allocExit
  simp only [perform_bind]
  exact results_call fun _ => results_call fun _ => results_ret holds

theorem results_allocWalk (header s size alignment : Nat) (fuel link x : Nat) :
    Results (fun found => ∀ result ∈ found, Addresses (PayloadAddress region alignment) result)
      (allocWalk region header s size alignment fuel link x) := by
  refine walk_paths (fun _ _ _ rest => results_read rest) (fun _ _ _ _ rest => results_write rest) trivial ?_ _ _ _ _ _
  intro found address
  refine results_allocExit fun result mem p ok => address p ?_
  rw [Option.mem_def.mp mem, ok]

theorem results_allocShards (fuel header shard size alignment left : Nat) :
    Results (Addresses (PayloadAddress region alignment))
      (allocShards fuel region header shard size alignment left) := by
  have failed : ∀ e, Addresses (PayloadAddress region alignment) (.error e) := fun e p ok => by simp at ok
  induction left with
  | zero => exact results_fetchAdd fun _ => results_ret (failed _)
  | succ left ih =>
    unfold allocShards ShmRegion.load64
    simp only [request_bind, loadWord_bind]
    refine results_call fun r => results_bind _ fun _ => results_ite (results_ret (failed _)) ?_
    refine results_bind _ fun valid => results_ite (results_allocExit (failed _)) ?_
    refine results_read fun head => results_then (results_allocWalk _ _ _ _ _ _ _) fun found holds => ?_
    cases found with
    | none => exact ih
    | some result => exact results_ret (holds result rfl)

theorem results_allocatorAlloc (fuel size alignment : Nat) :
    Results (Addresses (PayloadAddress region (max alignment 16))) (allocatorAlloc fuel region size alignment) := by
  have failed : ∀ e, Addresses (PayloadAddress region (max alignment 16)) (.error e) := fun e p ok => by simp at ok
  unfold allocatorAlloc
  refine results_ite (results_ret (failed _)) ?_
  simp only [effective_alignment]
  split
  · exact results_ret (failed _)
  split
  · exact results_ret (failed _)
  · exact results_bind _ fun valid => results_ite (results_ret (failed _)) (results_allocShards _ _ _ _ _ _)

end Results

section Alignment
variable {S : Type} {handle : Sys → S → Int × S} {s s' : S} {region : ShmRegion} {m m' : Mem}
  {fuel size alignment p : Nat}

/-- Whatever the region holds, a returned address is a multiple of the alignment exactly when the base is. -/
theorem payload_aligned_iff (map : region.Mapped) (power : ∃ k, alignment = 2 ^ k) (word : alignment < 2 ^ 64)
    (served : run handle (allocatorAlloc fuel region size alignment) m s = some (.ok p, m', s')) :
    max alignment 16 ∣ p ↔ max alignment 16 ∣ region.base := by
  have user := map.user
  have ends : Ends (fun _ _ => True) (fun result _ => Addresses (PayloadAddress region (max alignment 16)) result)
      (allocatorAlloc fuel region size alignment) m := ends_results (results_allocatorAlloc fuel size alignment) m
  obtain ⟨x, aligned, inside, rounded, rfl⟩ := ends_run ends (fun _ _ => trivial) served p rfl
  obtain ⟨j, small, effective⟩ : ∃ j, j < 64 ∧ max alignment 16 = 2 ^ j := by
    obtain ⟨k, rfl⟩ := power
    rcases Nat.le_total (2 ^ k) 16 with less | more
    · exact ⟨4, by omega, Nat.max_eq_right less⟩
    · exact ⟨k, (Nat.pow_lt_pow_iff_right (by omega)).mp word, Nat.max_eq_left more⟩
  rw [effective] at rounded ⊢
  have half : 2 ^ j ≤ 2 ^ 63 := Nat.pow_le_pow_right (by omega) (by omega)
  have positive := Nat.two_pow_pos j
  rw [add64_eq (by omega), align_up_pow (by omega) small] at rounded
  obtain rfl := Option.some.inj rounded
  have low : 40 + x ≤ roundUp (40 + x) (2 ^ j) := roundUp_le positive
  have high : roundUp (40 + x) (2 ^ j) < 40 + x + 2 ^ j := roundUp_lt positive
  have address : add64 (add64 region.base x) (sub64 (roundUp (40 + x) (2 ^ j)) x) =
      region.base + roundUp (40 + x) (2 ^ j) := by
    rw [sub64_eq (by omega) (by omega), add64_add64, add64_eq (by omega)]
    omega
  rw [address]
  exact (Nat.dvd_add_left (dvd_roundUp (40 + x) (2 ^ j)))

/-- An allocation aligned to 16 bytes in a mapping at 65536. -/
theorem payload_aligned_small : max 16 16 ∣ smallRegion.base + 2784 ↔ max 16 16 ∣ smallRegion.base := by
  have status : (run (fun (_ : Sys) (s : Unit) => (0, s)) (allocatorAlloc 4096 smallRegion 100 16) initialised
      ()).map Prod.fst = some (.ok (smallRegion.base + 2784)) := by decide +kernel
  obtain ⟨⟨result, m', s'⟩, served, same⟩ := Option.map_eq_some_iff.mp status
  have ok : result = .ok (smallRegion.base + 2784) := same
  rw [ok] at served
  exact payload_aligned_iff smallRegion_mapped ⟨4, rfl⟩ (by decide) served

/-- A mapping at the third page of 4096 bytes: an allocation aligned to 8192 bytes is returned at 20480. -/
theorem third_page_misaligned : ∃ m m', 4096 ∣ 12288 ∧
    exec (allocatorInit ⟨3, 12288, 65536, true⟩) (fun _ => 0) = some (.ok, m) ∧
    exec (allocatorAlloc 65536 ⟨3, 12288, 65536, true⟩ 16 8192) m = some (.ok 20480, m') ∧ ¬8192 ∣ 20480 := by
  have both : (exec (allocatorInit ⟨3, 12288, 65536, true⟩ >>= fun status =>
      allocatorAlloc 65536 ⟨3, 12288, 65536, true⟩ 16 8192 >>= fun result => ret (status, result)) (fun _ => 0)).map
        Prod.fst = some (.ok, .ok 20480) := by decide +kernel
  obtain ⟨⟨out, m'⟩, result, same⟩ := Option.map_eq_some_iff.mp both
  obtain ⟨status, m, init, rest⟩ := exec_bind_some result
  obtain ⟨found, m₁, alloc, last⟩ := exec_bind_some rest
  simp only [exec_ret, Option.some.injEq, Prod.mk.injEq] at last
  obtain ⟨rfl, rfl⟩ := last
  obtain ⟨rfl, rfl⟩ := Prod.mk.inj same
  exact ⟨m, m₁, by decide, init, alloc, by decide⟩

end Alignment

end OffsetStore
