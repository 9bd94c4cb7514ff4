import OffsetStore.Store
import OffsetStore.ObjectStore
import OffsetStore.HeapValidate
import OffsetStore.AllocatorRuns

/- The life of a store: what offset_store_bootstrap leaves when it reports success, and
   when offset_store_open_existing accepts a region. -/
namespace OffsetStore
open ByteMemory Program Prog Words Pool

/-- The documented answers of mmap: -1, or the address of a mapping of the given size. -/
def mapAnswers : Sys → Int → Prop
  | .mmap size, r => r = -1 ∨ (0 < r ∧ r + size ≤ 2 ^ 56)
  | _, _ => True

structure Attached (size : Nat) (region : ShmRegion) (m : Mem) : Prop where
  mapped : region.Mapped
  total : region.size = size
  header : RegionRepr size m

/-- A store: a valid region header and a fresh heap. -/
structure Bootstrapped (size : Nat) (region : ShmRegion) (m : Mem) : Prop where
  attached : Attached size region m
  heap : HeapInv size m (freshView size)

section Bootstrap

theorem mapping_mapped {size : Nat} {fd r : Int} {creator : Bool} (answer : mapAnswers (.mmap size) r)
    (mapped : r ≠ -1) : ShmRegion.Mapped ⟨fd, r.toNat, size, creator⟩ := by
  rcases answer with failed | ⟨positive, user⟩
  · exact absurd failed mapped
  · exact ⟨by simp only; omega, by simp only; omega⟩

theorem ends_create (size : Nat) (m : Mem) :
    Ends mapAnswers (fun r m' => r.1 = .ok → Attached size r.2 m' ∧ TablesClear m') (shmRegionCreate size) m := by
  have failed : ∀ (status : OffsetStoreStatus) (region : ShmRegion) (m : Mem), status ≠ .ok →
      Ends mapAnswers (fun r m' => r.1 = .ok → Attached size r.2 m' ∧ TablesClear m') (ret (status, region)) m :=
    fun _ _ _ bad => ends_ret fun ok => absurd ok bad
  unfold shmRegionCreate shmRegionMapFd
  split
  · exact failed _ _ _ (by simp)
  rename_i valid
  simp only [request_bind, perform_bind]
  refine ends_call fun fd _ => ?_
  split
  · refine ends_call fun errno _ => ?_
    split <;> exact failed _ _ _ (by simp)
  refine ends_call fun truncated _ => ?_
  split
  · exact ends_call fun _ _ => ends_call fun _ _ => failed _ _ _ (by simp)
  simp only [call_bind]
  refine ends_call fun mapping answer => ?_
  by_cases unmapped : mapping = -1
  · simp only [unmapped, if_true, pure_eq, ret_bind, Bool.not_false]
    exact ends_call fun _ _ => ends_call fun _ _ => failed _ _ _ (by simp)
  simp only [unmapped, if_false, pure_eq, ret_bind, Bool.not_true, Bool.false_eq_true]
  have map : ShmRegion.Mapped ⟨fd, mapping.toNat, size, true⟩ := mapping_mapped answer unmapped
  have user := map.user
  simp only at user
  generalize same : (⟨fd, mapping.toNat, size, true⟩ : ShmRegion) = region at map
  have total : region.size = size := by rw [← same]
  have base : mapping.toNat = region.base := by rw [← same]
  have word : region.size < 2 ^ 64 := by omega
  rw [base]
  refine ends_bind (ends_writeRegionHeader word m) fun _ m₁ built => ?_
  refine ends_bind (ends_silent silent_initMutexes m₁) ?_
  rintro status _ rfl
  split
  · rename_i bad
    refine ends_bind (ends_silent (silent_close region) _) ?_
    rintro closed _ rfl
    exact ends_call fun _ _ => failed _ _ _ bad
  · rw [total] at built
    exact ends_finishHeader _ built.1 fun m' repr same _ => ⟨⟨map, total, repr⟩, built.2.congr same⟩

/-- Whatever the system answers, as long as mmap returns mappings: success means a store. -/
theorem ends_bootstrap (size : Nat) (m : Mem) :
    Ends mapAnswers (fun r m' => r.1 = .ok → Bootstrapped size r.2 m') (offsetStoreBootstrap size) m := by
  unfold offsetStoreBootstrap
  refine ends_bind (ends_create size m) ?_
  rintro ⟨status, region⟩ m₁ created
  simp only at created ⊢
  split
  · exact ends_ret fun ok => absurd ok ‹_›
  rename_i success
  have attached := (created (not_not.mp success)).1
  refine ends_bind (ends_allocatorInit attached.mapped attached.total m₁) ?_
  intro status' m₂ ready
  split
  · rename_i bad
    refine ends_bind (ends_silent (silent_close region) _) ?_
    rintro closed _ rfl
    refine ends_bind (ends_silent silent_unlink _) ?_
    rintro unlinked _ rfl
    exact ends_ret fun ok => absurd ok bad
  · rename_i ok
    have built := (ready (not_not.mp ok)).1
    exact ends_ret fun _ => ⟨⟨attached.mapped, attached.total, attached.header.congr built.below⟩, built.inv⟩

end Bootstrap

/-- A system in which a process can attach: the object opens, has the size of the region
    and is mapped at its base. -/
structure AttachReply (reply : Sys → Int) (region : ShmRegion) : Prop where
  opened : reply .shmOpen = region.fd
  descriptor : 0 ≤ region.fd
  stat : reply .fstat = 0
  sized : reply .statSize = region.size
  mapping : reply (.mmap region.size) = region.base
  attacher : region.creator = false

/-- What an attaching process needs of a region of n bytes: validation and statistics
    return, with success, and so does offset_store_open_existing. -/
structure Attachable (n : Nat) (m : Mem) : Prop where
  validates : ∀ region : ShmRegion, region.Mapped → region.size = n →
    Yields (fun fuel => allocatorValidate fuel region) m .ok m
  stats : ∀ region : ShmRegion, region.Mapped → region.size = n →
    ∃ stats, Yields (fun fuel => allocatorGetStats fuel region) m (.ok stats) m
  opens : ∀ (reply : Sys → Int) (region : ShmRegion), region.Mapped → region.size = n →
    AttachReply reply region → ∃ enough, ∀ fuel, enough ≤ fuel →
      run (fun c (_ : Unit) => (reply c, ())) (offsetStoreOpenExisting fuel) m () =
        some ((.ok, region), m, ())

section Attach
variable {m : Mem} {n : Nat} {region : ShmRegion} {reply : Sys → Int}

theorem run_open (map : region.Mapped) (attach : AttachReply reply region) (room : 2496 ≤ region.size)
    (header : RegionRepr region.size m) :
    run (fun c (_ : Unit) => (reply c, ())) shmRegionOpen m () = some ((.ok, region), m, ()) := by
  have positive := map.base_pos
  obtain ⟨ok, value, valid⟩ := burst_validate_header (m := m) map.base_pos rfl
  rw [valid.mpr header] at value
  have size : shmRegionIsSizeValid region.size = true := by
    simpa [shmRegionIsSizeValid] using room
  have descriptor : ¬reply .shmOpen < 0 := by
    rw [attach.opened]
    exact Int.not_lt.mpr attach.descriptor
  have mapping : ¬reply (.mmap region.size) = -1 := by
    rw [attach.mapping]
    omega
  have sized : ¬((0 : Int) ≠ 0 ∨ reply .statSize ≤ 0) := by
    rw [attach.sized]
    omega
  have bytes : (reply .statSize).toNat = region.size := by
    rw [attach.sized]
    exact Int.toNat_natCast _
  have place : (⟨reply .shmOpen, (reply (.mmap region.size)).toNat, region.size, false⟩ : ShmRegion) =
      region := by
    rw [attach.opened, attach.mapping, Int.toNat_natCast, ← attach.attacher]
  unfold shmRegionOpen shmRegionMapFd
  simp only [request_bind, run, descriptor, if_false, attach.stat, if_true, sized, bytes, size, Bool.not_true,
    Bool.false_eq_true, call_bind, mapping, pure_eq, ret_bind, place]
  rw [run_bind, run_of_ret value]
  rfl

theorem run_open_existing (map : region.Mapped) (attach : AttachReply reply region)
    (room : 2496 ≤ region.size) (header : RegionRepr region.size m) {fuel : Nat}
    (valid : burst m (allocatorValidate fuel region) = ([], ret .ok)) :
    run (fun c (_ : Unit) => (reply c, ())) (offsetStoreOpenExisting fuel) m () =
      some ((.ok, region), m, ()) := by
  unfold offsetStoreOpenExisting
  rw [run_bind, run_open map attach room header]
  simp only [Option.bind_some, ne_eq, not_true_eq_false, if_false]
  rw [run_bind, run_of_ret valid]
  rfl

theorem attachable_iff {V : HeapView} (inv : HeapInv n m V) (header : RegionRepr n m)
    (map : region.Mapped) (total : region.size = n) : Attachable n m ↔ n % 4 = 0 := by
  have room := inv.room
  unfold heapBase at room
  constructor
  · intro attachable
    obtain ⟨enough, returns⟩ := attachable.validates region map total
    have value := returns (max enough (V.allBlocks.length + 1)) (Nat.le_max_left _ _)
    rw [loads_exec (loads_validate _)] at value
    exact (inv.validates_iff map total (by omega)).mp value.2
  · intro aligned
    have valid := inv.valid_heap aligned
    refine ⟨fun region map total => ?_, fun region map total => ?_, fun reply region map total attach => ?_⟩
    · refine ⟨(V.allBlocks.map Block.start).length + 1, fun fuel enough => ?_⟩
      rw [loads_exec (loads_validate _)]
      exact ⟨rfl, burst_validate map total valid (by omega)⟩
    · obtain ⟨stats, value⟩ := burst_stats map total valid
      refine ⟨stats, (V.allBlocks.map Block.start).length + 1, fun fuel enough => ?_⟩
      rw [exec_of_burst (value fuel (by omega))]
      rfl
    · refine ⟨(V.allBlocks.map Block.start).length + 1, fun fuel enough => ?_⟩
      subst total
      exact run_open_existing map attach (by omega) header (burst_validate map rfl valid (by omega))

end Attach

/-- A store can be attached, in every state of every run of allocations and releases, exactly
    when the size of its region is a multiple of four. -/
theorem attachable_iff_aligned {S : Type} {n : Nat} {regions : Nat → ShmRegion} {before m : Mem}
    {handle : Sys → S → Int × S} {env env' : S} {creator : ShmRegion}
    {st : State Sys HeapResult LivePayloads HeapRequest}
    (maps : ∀ c s, mapAnswers c (handle c s).1) (mapped : ∀ p, (regions p).Mapped)
    (sizes : ∀ p, (regions p).size = n)
    (boot : run handle (offsetStoreBootstrap n) before env = some ((.ok, creator), m, env'))
    (runs : Reachable (heapRules n regions) (heapOrigin m) st) : Attachable n st.mem ↔ n % 4 = 0 := by
  have store := ends_run (ends_bootstrap n before) maps boot rfl
  have room := store.heap.room
  unfold heapBase at room
  let notes : Notes Unit := plainNotes (RegionRepr n) fun _ _ same repr =>
    repr.congr (same.narrow (Nat.le_refl 0) (by omega))
  have trivially : ∀ a m, notes.holds a () m := fun _ _ => trivial
  have sound := heap_sound mapped sizes (by omega) trivially
  have origin : Good (HeapTokens notes n) heapOwns (fun p req => heapPost (regions p) req) (heapOrigin m) ∅
      (fun _ => ∅) := heap_origin_good store.heap store.attached.header
  obtain ⟨held, own, good⟩ := good_reachable sound origin runs
  obtain ⟨V, carries⟩ := good.inv
  exact attachable_iff carries.inv carries.base (mapped 0) (sizes 0)

def creates : Sys → Int
  | .shmOpen => 3
  | .mmap size => if size ≤ 2 ^ 32 then 65536 else -1
  | _ => 0

/-- Creating a store of n bytes over zeroed memory. -/
def boot (n : Nat) : Option ((OffsetStoreStatus × ShmRegion) × Mem × Unit) :=
  run (fun c (_ : Unit) => (creates c, ())) (offsetStoreBootstrap n) (fun _ => 0) ()

theorem creates_maps (c : Sys) : mapAnswers c (creates c) := by
  cases c with
  | mmap size =>
    by_cases small : size ≤ 2 ^ 32
    · have answer : creates (.mmap size) = 65536 := if_pos small
      exact Or.inr (by omega)
    · exact Or.inl (if_neg small)
  | _ => trivial

theorem boot_returns {n : Nat} (status : (boot n).map (fun r => r.1.1) = some .ok) :
    ∃ region m, boot n = some ((.ok, region), m, ()) ∧ Bootstrapped n region m := by
  obtain ⟨⟨⟨result, region⟩, m, env⟩, booted, same⟩ := Option.map_eq_some_iff.mp status
  have ok : result = .ok := same
  subst ok
  exact ⟨region, m, booted, ends_run (ends_bootstrap n _) (fun c _ => creates_maps c) booted rfl⟩

set_option maxRecDepth 100000 in
/-- A new store of 4096 bytes, with room for an object or an allocation. -/
theorem boot_small : ((boot 4096).bind fun r => (exec (objectStoreAlloc 4096 smallRegion 1 6) r.2.1).bind fun made =>
    (exec (allocatorAlloc 8 smallRegion 100 64) r.2.1).map fun one => (r.1.1, made.1, one.1)) =
      some (.ok, .ok 2784, .ok (add64 smallRegion.base 2816)) := by decide +kernel

theorem boot_small_returns : ∃ region m m₁ m₂, boot 4096 = some ((.ok, region), m, ()) ∧ Bootstrapped 4096 region m ∧
    exec (objectStoreAlloc 4096 smallRegion 1 6) m = some (.ok 2784, m₁) ∧
    exec (allocatorAlloc 8 smallRegion 100 64) m = some (.ok (add64 smallRegion.base 2816), m₂) := by
  obtain ⟨r, booted, made⟩ := Option.bind_eq_some_iff.mp boot_small
  obtain ⟨⟨object, m₁⟩, allocated, made⟩ := Option.bind_eq_some_iff.mp made
  obtain ⟨⟨one, m₂⟩, served, same⟩ := Option.map_eq_some_iff.mp made
  simp only [Prod.mk.injEq] at same
  obtain ⟨status, rfl, rfl⟩ := same
  obtain ⟨region, m, started, store⟩ := boot_returns (show (boot 4096).map (fun r => r.1.1) = some .ok by
    rw [booted, Option.map_some, status])
  rw [started] at booted
  obtain rfl := Option.some.inj booted
  exact ⟨region, m, m₁, m₂, started, store, allocated, served⟩

/-- A new store in which one process has allocated while another one is about to. -/
theorem attachable_iff_aligned_small :
    ∃ region m st, boot 4096 = some ((.ok, region), m, ()) ∧
      Reachable (heapRules 4096 fun _ => smallRegion) (heapOrigin m) st ∧ st.client = {(2816, 100)} ∧
      st.active 1 ≠ none ∧ Attachable 4096 st.mem := by
  obtain ⟨region, m, _, m', booted, _, _, served⟩ := boot_small_returns
  have may : ∀ live, HeapStart 4096 live (.alloc 8 100 64) live := fun _ => .alloc 8 (by decide) (by decide)
  have origin : Reachable (heapRules 4096 fun _ => smallRegion) (heapOrigin m) (heapOrigin m) := .refl
  have made := reachable_return origin (p := 0) rfl (may _) (exec_bind_of_some served _) (.allocated 8 100 64 _)
  rw [show smallRegion.offsetOf (add64 smallRegion.base 2816) = 2816 by decide] at made
  have runs := reachable_call made (p := 1) (by simp [heapOrigin]) (may _) 0
  exact ⟨region, m, _, booted, runs, by simp [heapOrigin], by simp, (attachable_iff_aligned (fun c _ => creates_maps c)
    (fun _ => smallRegion_mapped) (fun _ => rfl) booted runs).mpr (by decide)⟩

set_option maxRecDepth 100000 in
/-- A store of 2961 bytes is created and never validates. -/
theorem unaligned_store_refused :
    ∃ region m, boot 2961 = some ((.ok, region), m, ()) ∧ region.Mapped ∧ region.size = 2961 ∧
      ∀ fuel m', exec (allocatorValidate fuel region) m ≠ some (.ok, m') := by
  have status : (boot 2961).map (fun r => r.1.1) = some .ok := by decide +kernel
  obtain ⟨region, m, booted, store⟩ := boot_returns status
  refine ⟨region, m, booted, store.attached.mapped, store.attached.total, fun fuel m' returns => ?_⟩
  have value := ((loads_exec (loads_validate fuel)).mp returns).2
  obtain ⟨base, blocks, lists, valid⟩ := valid_of_burst store.attached.mapped store.attached.total value
  exact absurd (store.heap.aligned_of_valid valid) (by decide)

end OffsetStore
