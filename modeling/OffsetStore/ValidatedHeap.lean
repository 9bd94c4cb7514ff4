import OffsetStore.EndlessLists
import OffsetStore.HeapSpan

/- What allocator_validate promises about the loops of the allocator, for any content of the
   region. It always ends itself, because its walks count; what it accepts has free lists
   that end, and blocks whose sizes lead to the end of the region. -/
namespace OffsetStore
open ByteMemory Program Prog Words Tiling CellChain

section Ends
variable {region : ShmRegion} {m : Mem} {n base : Nat}

/-- The physical walk ends, and its count is no larger than the region. -/
theorem burst_blocks_ends (map : region.Mapped) (total : region.size = n) (header : HeaderRepr n base m) {t c fuel : Nat}
    (inside : base + t ≤ n) (enough : n < fuel + (base + t)) :
    ∃ count, burst m (validateBlocks region (headerAddress region) fuel t c) = ([], ret count) := by
  have user := map.user
  induction fuel generalizing t c with
  | zero => omega
  | succ fuel ih =>
    rcases Nat.lt_or_eq_of_le inside with before | finish
    · obtain ⟨valid, step⟩ | ⟨_, step⟩ := burst_blocks_step (c := c) map total header fuel before
      · have bound := valid.fits
        have least := valid.least
        rw [step, add64_eq (by omega)]
        exact ih (by omega) (by omega)
      · exact ⟨none, step⟩
    · exact ⟨some c, burst_blocks_end header fuel finish⟩

/-- The walk along a free list ends when its count is spent at the latest. -/
theorem burst_list_ends (map : region.Mapped) (total : region.size = n) (inside : base < n) {s : Nat} (shard : s < 4)
    {x count fuel : Nat} (enough : count < fuel) :
    ∃ rest, burst m (validateFreeList region s (shardStart base n s) (shardSize base n) fuel x count) = ([], ret rest) ∧
      ∀ left, rest = some left → left ≤ count := by
  induction fuel generalizing x count with
  | zero => omega
  | succ fuel ih =>
    by_cases null : x = 0
    · rw [null, validateFreeList]
      exact ⟨some count, rfl, fun left same => Nat.le_of_eq (Option.some.inj same).symm⟩
    by_cases empty : count = 0
    · rw [validateFreeList, if_neg (by simpa using null), if_pos empty]
      exact ⟨none, rfl, fun left same => by simp at same⟩
    obtain ⟨_, step⟩ | ⟨_, step⟩ := burst_list_step (m := m) map total inside shard fuel null empty
    · obtain ⟨rest, value, bound⟩ := ih (show count - 1 < fuel by omega) (x := load m (x + 8) 8)
      refine ⟨rest, step.trans value, fun left same => ?_⟩
      have le := bound left same
      omega
    · exact ⟨none, step, fun left same => by simp at same⟩

theorem burst_shards_ends (map : region.Mapped) (total : region.size = n) (header : HeaderRepr n base m)
    (word : n < 2 ^ 64) {fuel left count : Nat} (few : left ≤ 4) (enough : count < fuel) :
    ∃ status, burst m (validateShards fuel region (headerAddress region) left count) = ([], ret status) := by
  induction left generalizing count with
  | zero => exact ⟨.ok, rfl⟩
  | succ left ih =>
    obtain ⟨rest, value, bound⟩ := burst_list_ends (m := m) (x := load m (headCell (4 - (left + 1))) 8) map total
      header.inside (show 4 - (left + 1) < 4 by omega) enough
    rw [burst_shards_step header word fuel left count (by omega), burst_bind_of_ret value]
    cases rest with
    | none => exact ⟨.invalidState, rfl⟩
    | some rest =>
      have le := bound rest rfl
      exact ih (by omega) (by omega)

variable (m) in
theorem burst_validate_ends (map : region.Mapped) (total : region.size = n) {fuel : Nat} (enough : n < fuel) :
    ∃ status, burst m (allocatorValidate fuel region) = ([], ret status) := by
  have user := map.user
  unfold allocatorValidate
  by_cases room : 2728 ≤ n
  swap
  · have none : allocatorHeader region = none := by
      unfold allocatorHeader
      rw [if_pos (by simp only [allocatorMetadataOffset, RegionHeader.sizeof, AllocatorHeader.sizeof]; omega)]
    simp only [none]
    exact ⟨.invalidState, rfl⟩
  simp only [allocatorHeader_eq map (total ▸ room)]
  obtain ⟨ok, checked, valid⟩ := burst_header_check (m := m) map total
  rw [burst_bind_of_ret checked]
  cases ok with
  | false => exact ⟨.invalidState, rfl⟩
  | true =>
    obtain ⟨base, header⟩ := valid.mp rfl
    have inside := header.inside
    simp only [Bool.not_true, Bool.false_eq_true, if_false]
    obtain ⟨count, walked⟩ := burst_blocks_ends (t := 0) (c := 0) map total header (by omega) (show n < fuel + (base + 0) by omega)
    rw [burst_bind_of_ret walked]
    cases count with
    | none => exact ⟨.invalidState, rfl⟩
    | some count =>
      obtain ⟨blocks, walk, same⟩ := walk_of_burst (t := 0) (c := 0) map total header (by omega) (Nat.le_refl 0) walked
      have short := tiles_length_bound walk.tiles fun b mem => (walk.valid b mem).least
      exact burst_shards_ends map total header (by omega) (Nat.le_refl 4) (by omega)

/-- The walk for a span ends at a block or behind the last one. -/
theorem burst_span_answers (map : region.Mapped) (total : region.size = n) (header : HeaderRepr n base m) (ptr : Nat)
    {blocks : List Nat} {t fuel : Nat} (walk : Walk n m (base + t) blocks) (enough : blocks.length < fuel) :
    ∃ result, burst m (spanWalk region (headerAddress region) ptr fuel t) = ([], ret result) ∧
      result ≠ .error .invalidState := by
  induction blocks generalizing t fuel with
  | nil =>
    obtain ⟨fuel, rfl⟩ := Nat.exists_eq_succ_of_ne_zero (Nat.ne_of_gt enough)
    exact ⟨.error .notFound, burst_span_end map total header ptr fuel (Nat.le_of_eq walk.tiles.symm), by simp⟩
  | cons b rest ih =>
    rw [List.length_cons] at enough
    obtain ⟨fuel, rfl⟩ := Nat.exists_eq_succ_of_ne_zero (show fuel ≠ 0 by omega)
    obtain ⟨first, _, tail⟩ := walk.tiles
    have here : b = base + t := first
    subst here
    rw [Nat.add_assoc] at tail
    rw [burst_span_visit map total header ptr fuel (walk.valid _ (by simp))]
    by_cases named : AddressMatch region m ptr (base + t)
    · rw [if_pos named]
      exact ⟨_, rfl, by simp⟩
    · rw [if_neg named]
      exact ih ⟨tail, fun c mem => walk.valid c (List.mem_cons_of_mem _ mem)⟩ (by omega)

end Ends

namespace ValidHeap
variable {region : ShmRegion} {m : Mem} {n base : Nat} {blocks : List Nat} {lists : Nat → List Nat}

/-- A walk along a list that ends comes to null. -/
theorem finite (valid : ValidHeap n base m blocks lists) {s : Nat} (shard : s < 4) (size alignment : Nat) :
    ¬Endless n base m size alignment s := by
  intro endless
  have null : nodeAt m s (lists s).length = 0 := by
    have last := chain_iterate (valid.free s shard).chain
    beta_reduce at last
    unfold nodeAt
    exact last
  exact (endless (lists s).length).named null

theorem alloc_ends (valid : ValidHeap n base m blocks lists) (map : region.Mapped) (total : region.size = n)
    (answers : Sys → Int → Prop) (size alignment : Nat) : ∃ enough, ∀ fuel, enough ≤ fuel →
    Returns answers (fun _ _ => True) (allocatorAlloc fuel region size alignment) m := by
  by_cases good : 0 < size ∧ size ≤ 2 ^ 64 - 16
  swap
  · refine ⟨0, fun fuel _ => ?_⟩
    rw [alloc_refused fuel alignment good]
    exact returns_ret trivial
  obtain ⟨enough, returns⟩ := shards_return answers map total valid.header (fun _ => True)
    (fun left _ _ _ => ⟨valid.finite (triedShard_lt _ _) (roundUp size 16) (max alignment 16), fun _ => trivial⟩)
    (Nat.le_refl shardCount) trivial
  refine ⟨enough, fun fuel large => returns_burst.mpr ?_⟩
  rw [burst_alloc map total valid.room valid.header good.1 good.2, ← returns_burst]
  exact returns fuel large

theorem span_ends (valid : ValidHeap n base m blocks lists) (map : region.Mapped) (total : region.size = n)
    (ptr : Nat) {fuel : Nat} (enough : blocks.length < fuel) :
    ∃ result, burst m (allocatorGetAllocationSpan fuel region ptr) = ([], ret result) ∧
      result ≠ .error .invalidState := by
  unfold allocatorGetAllocationSpan
  by_cases null : ptr = 0
  · rw [if_pos null]
    exact ⟨_, rfl, by simp⟩
  rw [if_neg null]
  simp only [allocatorHeader_eq map (total ▸ valid.room)]
  rw [burst_bind_of_ret (burst_header_valid map total valid.header)]
  exact burst_span_answers (t := 0) map total valid.header ptr valid.walk enough

end ValidHeap

/-- With enough fuel the call has a result, and the result has the given property. -/
def Completes {S α : Type} (handle : Sys → S → Int × S) (call : Nat → Code α) (m : Mem) (s : S) (holds : α → Prop) : Prop :=
  ∃ enough, ∀ fuel, enough ≤ fuel → ∃ a m' s', run handle (call fuel) m s = some (a, m', s') ∧ holds a

section Accepted
variable {S : Type} {handle : Sys → S → Int × S} {region : ShmRegion} {m : Mem} {n : Nat} {s : S}

theorem completes_of_burst {α : Type} {call : Nat → Code α} {holds : α → Prop} {enough : Nat}
    (value : ∀ fuel, enough ≤ fuel → ∃ a, burst m (call fuel) = ([], ret a) ∧ holds a) :
    Completes handle call m s holds := by
  refine ⟨enough, fun fuel large => ?_⟩
  obtain ⟨a, same, good⟩ := value fuel large
  have returns : Returns (fun _ _ => True) (fun a _ => holds a) (call fuel) m := by
    rw [returns_burst, same]
    exact returns_ret good
  exact returns_run returns fun _ _ => trivial

/-- Validation always ends. What it accepts has free lists that end, each with distinct free blocks of its shard and
    together no longer than the physical walk; then every allocation ends, statistics are returned, and a span is looked
    up without complaint about the heap. -/
theorem validated_walks_end (map : region.Mapped) (total : region.size = n) :
    Completes handle (fun fuel => allocatorValidate fuel region) m s (fun _ => True) ∧
    ∀ fuel m' s', run handle (allocatorValidate fuel region) m s = some (.ok, m', s') →
      (∃ base blocks lists, ValidHeap n base m blocks lists ∧ ∀ s, s < 4 → (lists s).Nodup) ∧
      (∀ size alignment, Completes handle (fun fuel => allocatorAlloc fuel region size alignment) m s fun _ => True) ∧
      Completes handle (fun fuel => allocatorGetStats fuel region) m s (fun result => ∃ stats, result = .ok stats) ∧
      ∀ ptr, Completes handle (fun fuel => allocatorGetAllocationSpan fuel region ptr) m s
        fun result => result ≠ .error .invalidState := by
  refine ⟨completes_of_burst fun fuel (enough : n + 1 ≤ fuel) => ?_, fun fuel m' s' accepted => ?_⟩
  · obtain ⟨status, value⟩ := burst_validate_ends m map total enough
    exact ⟨status, value, trivial⟩
  · obtain ⟨base, blocks, lists, valid⟩ := valid_of_burst map total ((loads_validate fuel).ret_of_run accepted)
    refine ⟨⟨base, blocks, lists, valid, fun s shard => chain_nodup (valid.free s shard).chain⟩, ?_, ?_, ?_⟩
    · intro size alignment
      obtain ⟨enough, returns⟩ := valid.alloc_ends map total (fun _ _ => True) size alignment
      exact ⟨enough, fun fuel large => returns_run (returns fuel large) fun _ _ => trivial⟩
    · obtain ⟨stats, value⟩ := burst_stats map total valid
      exact completes_of_burst fun fuel (enough : blocks.length + 1 ≤ fuel) => ⟨.ok stats, value fuel enough, stats, rfl⟩
    · exact fun ptr => completes_of_burst fun fuel (enough : blocks.length + 1 ≤ fuel) =>
        valid.span_ends map total ptr enough

/-- A heap with a live allocation and a released one is accepted. -/
theorem validated_walks_end_small : ∃ m m',
    run (fun (_ : Sys) (s : Unit) => (0, s)) (allocatorValidate 4097 smallRegion) m () = some (.ok, m', ()) ∧
    (∃ base blocks lists, ValidHeap 4096 base m blocks lists ∧ ∀ s, s < 4 → (lists s).Nodup) ∧
    (∀ size alignment, Completes (fun (_ : Sys) (s : Unit) => (0, s))
      (fun fuel => allocatorAlloc fuel smallRegion size alignment) m () fun _ => True) ∧
    Completes (fun (_ : Sys) (s : Unit) => (0, s)) (fun fuel => allocatorGetStats fuel smallRegion) m ()
      (fun result => ∃ stats, result = .ok stats) ∧
    ∀ ptr, Completes (fun (_ : Sys) (s : Unit) => (0, s)) (fun fuel => allocatorGetAllocationSpan fuel smallRegion ptr)
      m () fun result => result ≠ .error .invalidState := by
  have served : ((exec (allocatorAlloc 8 smallRegion 100 64) initialised).bind fun one =>
      (exec (allocatorAlloc 8 smallRegion 200 16) one.2).bind fun two =>
        (exec (allocatorFree smallRegion (add64 smallRegion.base 2816)) two.2).bind fun out =>
          (run (fun (_ : Sys) (s : Unit) => (0, s)) (allocatorValidate 4097 smallRegion) out.2 ()).map fun asked =>
            (two.1, out.1, asked.1)) = some (.ok (add64 smallRegion.base 3120), .ok, .ok) := by decide +kernel
  obtain ⟨⟨_, m₁⟩, _, served⟩ := Option.bind_eq_some_iff.mp served
  obtain ⟨⟨_, m₂⟩, _, served⟩ := Option.bind_eq_some_iff.mp served
  obtain ⟨⟨_, m⟩, _, served⟩ := Option.bind_eq_some_iff.mp served
  obtain ⟨⟨status, m', ⟨⟩⟩, accepted, same⟩ := Option.map_eq_some_iff.mp served
  simp only [Prod.mk.injEq] at same
  obtain ⟨_, _, rfl⟩ := same
  exact ⟨m, m', accepted, (validated_walks_end smallRegion_mapped rfl).2 4097 m' () accepted⟩

end Accepted

end OffsetStore
