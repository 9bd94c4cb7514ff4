import OffsetStore.FirstFit
import OffsetStore.HeapReleases
import OffsetStore.HeapSpan

/- What can be done with an allocation: it is measured, it is given back, and the same
   request made again undoes the release byte by byte. -/
namespace OffsetStore
open ByteMemory Program Prog Words Tiling CellChain

section Measure
variable {n : Nat} {m : Mem} {V : HeapView}

theorem HeapInv.size_le_span (inv : HeapInv n m V) {a : Alloc} (live : V.Live a) : a.size ≤ spanOf m a := by
  obtain ⟨s, shard, b, mem, kind, fits, _⟩ := inv.live_block live
  have width := ((inv.shards s shard).repr b mem).size
  have low := fits.ptr_ge
  have high := fits.ptr_le
  unfold spanOf
  rw [fits.block, width]
  omega

end Measure

/-- An allocation can be measured, with room for its size, and given back. -/
structure Usable {S : Type} (fuel : Nat) (region : ShmRegion) (handle : Sys → S → Int × S) (s : S) (m : Mem)
    (p size : Nat) : Prop where
  measured : ∃ span, size ≤ span ∧
    run handle (allocatorGetAllocationSpan fuel region p) m s = some (.ok span, m, s)
  released : ∃ m' s', run handle (allocatorFree region p) m s = some (.ok, m', s')

section Usability
variable {S : Type} {handle : Sys → S → Int × S} {region : ShmRegion} {n : Nat} {m m' : Mem} {V : HeapView}
  {fuel size alignment p : Nat}

theorem served_fit (inv : HeapInv n m V) (map : region.Mapped) (total : region.size = n) (enough : n ≤ fuel)
    (positive : 0 < size) (small : size ≤ n) {k : Nat} (power : k < 64) (effective : max alignment 16 = 2 ^ k)
    (grants : Grants handle) {s s' : S}
    (served : run handle (allocatorAlloc fuel region size alignment) m s = some (.ok p, m', s')) :
    ∃ i pre x V', FirstFit m V size (2 ^ k) i pre x ∧ p = add64 region.base (payloadPtr x (2 ^ k)) ∧
      m' = carvedFrom m (shardOfAttempt size i) pre x size (2 ^ k) ∧
      Taken n m m' V V' (carved (shardOfAttempt size i) x size (2 ^ k)) := by
  obtain ⟨i, pre, x, V', first, taken, alone⟩ | ⟨_, alone⟩ :=
    exec_alloc_fit inv map total enough positive small power effective
  · obtain ⟨t, run⟩ := run_of_alloc grants alone s
    obtain ⟨result, memory, _⟩ := run_unique served run
    rw [← memory] at taken
    exact ⟨i, pre, x, V', first, Except.ok.inj result, memory, taken⟩
  · obtain ⟨t, run⟩ := run_of_alloc grants alone s
    exact absurd (run_unique served run).1 (by simp)

/-- A served request of a power-of-two alignment is usable exactly when the payload begins less than 2^32 bytes
    behind the start of the first block that it fits. -/
theorem allocation_usable_iff (inv : HeapInv n m V) (map : region.Mapped) (total : region.size = n) (enough : n ≤ fuel)
    (positive : 0 < size) (small : size ≤ n) (power : ∃ k, alignment = 2 ^ k) (word : alignment < 2 ^ 64)
    (grants : Grants handle) {s s' : S}
    (served : run handle (allocatorAlloc fuel region size alignment) m s = some (.ok p, m', s')) :
    Usable fuel region handle s' m' p size ↔ ∀ i pre x, FirstFit m V size (max alignment 16) i pre x →
      payloadPtr x (max alignment 16) - x < 2 ^ 32 := by
  obtain ⟨k, exponent, effective⟩ := effective_power power word
  rw [effective]
  obtain ⟨i, pre, x, V', first, rfl, _, taken⟩ :=
    served_fit inv map total enough positive small exponent effective grants served
  have live : V'.Live (carved (shardOfAttempt size i) x size (2 ^ k)) := (taken.live _).mpr (Or.inr rfl)
  constructor
  · intro usable j pre' y second
    obtain ⟨_, _, rfl⟩ := first.unique second
    by_contra far
    obtain ⟨m₂, s₂, freed⟩ := usable.released
    obtain ⟨t, run⟩ := run_of_free grants (exec_free_far taken.inv map total live (Nat.not_lt.mp far)) s'
    exact absurd (run_unique freed run).1 (by simp)
  · intro all
    have near := all i pre x first
    refine ⟨⟨_, taken.inv.size_le_span live, ?_⟩, ?_⟩
    · exact run_of_ret (taken.inv.burst_span_live map total live near enough) s'
    · obtain ⟨_, _, alone⟩ := exec_free_near taken.inv map total live near
      obtain ⟨t, run⟩ := run_of_free grants alone s'
      exact ⟨_, t, run⟩

theorem allocation_usable_small : ∃ m', Usable 4096 smallRegion (fun (_ : Sys) (s : Unit) => (0, s)) () m'
    (smallRegion.base + 2784) 100 ↔ ∀ i pre x, FirstFit initialised (freshView 4096) 100 (max 16 16) i pre x →
      payloadPtr x (max 16 16) - x < 2 ^ 32 := by
  have status : (run (fun (_ : Sys) (s : Unit) => (0, s)) (allocatorAlloc 4096 smallRegion 100 16) initialised
      ()).map Prod.fst = some (.ok (smallRegion.base + 2784)) := by decide +kernel
  obtain ⟨⟨result, m', s'⟩, served, same⟩ := Option.map_eq_some_iff.mp status
  have ok : result = .ok (smallRegion.base + 2784) := same
  rw [ok] at served
  exact ⟨m', allocation_usable_iff initialised_inv smallRegion_mapped rfl (Nat.le_refl _) (by decide) (by decide)
    ⟨4, rfl⟩ (by decide) (fun _ _ => rfl) served⟩

def wideRegion : ShmRegion := ⟨3, 65536, 2 ^ 35, true⟩

/-- There the first request, of 16 bytes aligned to 2^33, is served at offset 2^33, and its release is refused. -/
theorem wide_allocation_stuck : ∃ m m' m'', exec (allocatorInit wideRegion) (fun _ => 0) = some (.ok, m) ∧
    exec (allocatorAlloc (2 ^ 35) wideRegion 16 (2 ^ 33)) m = some (.ok (65536 + 2 ^ 33), m') ∧
    exec (allocatorFree wideRegion (65536 + 2 ^ 33)) m' = some (.invalidArgument, m'') := by
  have three : (exec (allocatorInit wideRegion >>= fun status =>
      allocatorAlloc (2 ^ 35) wideRegion 16 (2 ^ 33) >>= fun result =>
      allocatorFree wideRegion (65536 + 2 ^ 33) >>= fun freed => ret (status, result, freed)) (fun _ => 0)).map
        Prod.fst = some (.ok, .ok (65536 + 2 ^ 33), .invalidArgument) := by decide +kernel
  obtain ⟨⟨out, m₃⟩, result, same⟩ := Option.map_eq_some_iff.mp three
  obtain ⟨status, m, init, rest⟩ := exec_bind_some result
  obtain ⟨found, m', alloc, rest⟩ := exec_bind_some rest
  obtain ⟨freed, m'', free, last⟩ := exec_bind_some rest
  simp only [exec_ret, Option.some.injEq, Prod.mk.injEq] at last same
  obtain ⟨rfl, rfl⟩ := last
  simp only [Prod.mk.injEq] at same
  obtain ⟨rfl, rfl, rfl⟩ := same
  exact ⟨m, m', m'', init, alloc, free⟩

end Usability

section Undo
variable {n s t : Nat} {m m' m'' : Mem} {V V' : HeapView}

theorem ShardFrame.trans (first : ShardFrame n s m m') (second : ShardFrame n s m' m'') : ShardFrame n s m m'' :=
  fun a range head => (second a range head).trans (first a range head)

/-- The list of a shard that is left alone, and the sizes of its blocks, stay the same. -/
theorem HeapInv.framed_list (inv : HeapInv n m V) (inv' : HeapInv n m' V') (frame : ShardFrame n s m m') (shard : s < 4)
    (small : t < 4) (other : t ≠ s) : (V' t).free = (V t).free ∧ ∀ y ∈ (V t).free, load m' y 8 = load m y 8 := by
  have framed := (inv.shards t small).framed frame shard small other
  have same : (V' t).free = (V t).free := chain_unique (inv'.shards t small).chain framed.chain
  refine ⟨same, fun y listed => ?_⟩
  obtain ⟨b, mem, rfl, _⟩ := (inv.shards t small).block_of_free listed
  rw [((inv.shards t small).repr b mem).size, (framed.repr b mem).size]

/-- Taking a released block whole again restores every byte. -/
theorem take_released {x p : Nat} (low : 40 ≤ p) (cell : headCell s + 8 ≤ x) (word : x < 2 ^ 64)
    (link : load m (x + 8) 8 = 0) (flags : load m (x + 16) 4 = 0) (shard : load m (x + 20) 4 = s)
    (offset : load m (x + 24) 4 = p % 2 ^ 32) (named : load m (x + p - 8) 8 = x) :
    applyStores (applyStores m (releaseStores x (load m (headCell s) 8) ++ [(headCell s, 8, x)]))
      ((headCell s, 8, load m (headCell s) 8) :: markStores x s p) = m := by
  have head := load_eight_lt m (headCell s)
  have shardWord := load_four_lt m (x + 20)
  rw [← applyStores_append]
  simp only [releaseStores, markStores, List.cons_append, List.nil_append, applyStores_cons, applyStores_nil]
  -- outside the six words nothing is stored, and each of them has its value again
  funext c
  by_cases inHead : headCell s ≤ c ∧ c < headCell s + 8
  · refine sameOn_of_load ?_ c inHead.1 inHead.2
    simp (disch := omega) only [load_store_apart, load_store_mod]
    omega
  by_cases inLink : x + 8 ≤ c ∧ c < x + 8 + 8
  · refine sameOn_of_load ?_ c inLink.1 inLink.2
    simp (disch := omega) only [load_store_apart, load_store_mod]
    omega
  by_cases inFlags : x + 16 ≤ c ∧ c < x + 16 + 4
  · refine sameOn_of_load ?_ c inFlags.1 inFlags.2
    simp (disch := omega) only [load_store_apart, load_store_mod]
    omega
  by_cases inShard : x + 20 ≤ c ∧ c < x + 20 + 4
  · refine sameOn_of_load ?_ c inShard.1 inShard.2
    simp (disch := omega) only [load_store_apart, load_store_mod]
    omega
  by_cases inOffset : x + 24 ≤ c ∧ c < x + 24 + 4
  · refine sameOn_of_load ?_ c inOffset.1 inOffset.2
    simp (disch := omega) only [load_store_apart, load_store_mod]
    omega
  by_cases inPrefix : x + p - 8 ≤ c ∧ c < x + p - 8 + 8
  · refine sameOn_of_load ?_ c inPrefix.1 inPrefix.2
    simp (disch := omega) only [load_store_mod]
    omega
  simp (disch := omega) only [store_outside]

theorem takeStores_link {cell x payload width : Nat} (low : 40 ≤ payload) :
    load (applyStores m (takeStores m s cell x payload width)) (x + 8) 8 = 0 := by
  unfold takeStores
  split
  · rw [applyStores_append]
    simp only [markStores, applyStores_cons, applyStores_nil]
    simp (disch := omega) only [load_store_apart, load_store_mod, Nat.zero_mod]
  · simp only [markStores, applyStores_cons, applyStores_nil]
    simp (disch := omega) only [load_store_apart, load_store_mod, Nat.zero_mod]

theorem HeapInv.head_listed (inv : HeapInv n m V) {x : Nat} (shard : s < 4) (head : load m (headCell s) 8 = x)
    (named : x ≠ 0) : ∃ post, (V s).free = x :: post := by
  have chain := (inv.shards s shard).chain
  cases listed : (V s).free with
  | nil =>
    rw [listed] at chain
    exact absurd (head.symm.trans chain) named
  | cons y post =>
    rw [listed] at chain
    have first : load m (headCell s) 8 = y := chain.1
    exact ⟨post, by rw [← head, first]⟩

theorem shardOfAttempt_ne {size i j : Nat} (less : j < i) (inside : i < 4) : shardOfAttempt size j ≠ shardOfAttempt size i := by
  unfold shardOfAttempt OffsetStore.shardCount
  omega

section Again
variable {size k i x : Nat} {pre : List Nat} {m₁ m₂ : Mem} {V₁ V₂ : HeapView} (inv : HeapInv n m V) (least : 4 ≤ k)
  (positive : 0 < size) (first : FirstFit m V size (2 ^ k) i pre x)
  (taking : m₁ = carvedFrom m (shardOfAttempt size i) pre x size (2 ^ k))
  (freeing : m₂ = applyStores m₁ (freeStores m₁ (carved (shardOfAttempt size i) x size (2 ^ k))))
include inv least positive first taking

theorem carved_width : 56 ≤ required x size (2 ^ k) ∧ load m₁ x 8 =
    if required x size (2 ^ k) + 56 ≤ load m x 8 then required x size (2 ^ k) else load m x 8 := by
  obtain ⟨post, listed⟩ := first.listed
  have sixteen : 2 ^ 4 ≤ 2 ^ k := Nat.pow_le_pow_right (by omega) least
  have large : 56 ≤ required x size (2 ^ k) := required_ge positive sixteen
  have low : x + 40 ≤ payloadPtr x (2 ^ k) := payloadPtr_ge sixteen
  have fits := first.fits
  have word := load_eight_lt m x
  refine ⟨large, ?_⟩
  rw [taking]
  exact takeStores_width (by omega) (by omega) (inv.cell_apart (shardOfAttempt_lt size i) listed) large

theorem carved_frame : ShardFrame n (shardOfAttempt size i) m m₁ := by
  obtain ⟨post, listed⟩ := first.listed
  have shardInv := inv.shards _ (shardOfAttempt_lt size i)
  obtain ⟨b, mb, rfl, free⟩ := shardInv.block_of_free (x := x) (by simp [listed])
  have sixteen : 2 ^ 4 ≤ 2 ^ k := Nat.pow_le_pow_right (by omega) least
  have large : 56 ≤ required b.start size (2 ^ k) := required_ge positive sixteen
  have low : b.start + 40 ≤ payloadPtr b.start (2 ^ k) := payloadPtr_ge sixteen
  have ends := payload_end_le_required b.start size (2 ^ k)
  have width := (shardInv.repr b mb).size
  have fits := first.fits
  rw [taking]
  refine Touches.frame (takeStores_touch width ?_ ?_ large ?_) inv (shardOfAttempt_lt size i) mb
    (shardInv.free_cell listed)
  all_goals omega

include freeing

theorem again_first (word : n < 2 ^ 64) (taken : Taken n m m₁ V V₁ (carved (shardOfAttempt size i) x size (2 ^ k)))
    (released : Released n m₁ m₂ V₁ V₂ (carved (shardOfAttempt size i) x size (2 ^ k))) :
    FirstFit m₂ V₂ size (2 ^ k) i [] x := by
  have shard := shardOfAttempt_lt size i
  have live := (taken.live _).mpr (Or.inr rfl)
  obtain ⟨s, _, rfl, low, _⟩ := taken.inv.live_header live (SameOn.refl m₁ _ _)
  obtain ⟨large, width⟩ := carved_width inv least positive first taking
  have start := shardStart_ge n (shardOfAttempt size i)
  have frees : m₂ = store (store (store (store m₁ (x + 16) 4 1) (x + 24) 4 0) (x + 8) 8 (load m₁ (headCell (shardOfAttempt size i)) 8))
      (headCell (shardOfAttempt size i)) 8 x := freeing
  have cell := headCell_eq (shardOfAttempt size i)
  simp only [carved] at low
  have kept : load m₂ x 8 = load m₁ x 8 := by
    rw [frees]
    simp (disch := omega) only [load_store_apart]
  have fits := first.fits
  have inside := (inv.nodes shard x (by obtain ⟨post, listed⟩ := first.listed; simp [listed])).header
  refine ⟨first.attempt, fun j less y mem => ?_, by simp, released.inv.head_listed shard ?_ (by omega), ?_⟩
  · have frame : ShardFrame n (shardOfAttempt size i) m m₂ := by
      refine (carved_frame inv least positive first taking).trans ?_
      obtain ⟨t, ht, b, mb, kind, fits, _⟩ := taken.inv.live_block live
      have own : shardOfAttempt size i = t := fits.owner
      have named : x = b.start := fits.block
      subst own named
      exact freeing ▸ Touches.frame (releaseStores_touch (taken.inv.shards _ ht) mb) taken.inv ht mb (Or.inl rfl)
    have other := shardOfAttempt_lt size j
    have same := inv.framed_list released.inv frame shard other (shardOfAttempt_ne less first.attempt)
    rw [same.1] at mem
    rw [same.2 y mem]
    exact first.earlier j less y mem
  · rw [frees]
    exact load_store_eight (by omega)
  · rw [kept, width]
    split
    · exact Nat.le_refl _
    · exact fits

/-- Taking the block again then takes it whole, and every byte is as it was. -/
theorem again_same (word : n < 2 ^ 64) (taken : Taken n m m₁ V V₁ (carved (shardOfAttempt size i) x size (2 ^ k))) :
    carvedFrom m₂ (shardOfAttempt size i) [] x size (2 ^ k) = m₁ := by
  have live := (taken.live _).mpr (Or.inr rfl)
  obtain ⟨s, _, own, low, ptrLow, ptrHigh, flags, shard, offset, named⟩ :=
    taken.inv.live_header live (SameOn.refl m₁ _ _)
  obtain ⟨large, width⟩ := carved_width inv least positive first taking
  have frees : m₂ = store (store (store (store m₁ (x + 16) 4 1) (x + 24) 4 0) (x + 8) 8 (load m₁ (headCell (shardOfAttempt size i)) 8))
      (headCell (shardOfAttempt size i)) 8 x := freeing
  have start := shardStart_ge n s
  have cell := headCell_eq (shardOfAttempt size i)
  have head := load_eight_lt m₁ (headCell (shardOfAttempt size i))
  simp only [carved] at low ptrLow ptrHigh flags shard offset named own
  have kept : load m₂ x 8 = load m₁ x 8 := by
    rw [frees]
    simp (disch := omega) only [load_store_apart]
  have link : load m₂ (x + 8) 8 = load m₁ (headCell (shardOfAttempt size i)) 8 := by
    rw [frees]
    simp (disch := omega) only [load_store_apart, load_store_mod]
    omega
  have whole : ¬required x size (2 ^ k) + 56 ≤ load m₂ x 8 := by
    rw [kept, width]
    split
    · omega
    · assumption
  unfold carvedFrom takeStores
  rw [if_neg whole, link, freeing]
  refine take_released (s := shardOfAttempt size i) (x := x) (p := payloadPtr x (2 ^ k) - x) (by omega) (by omega)
    (by omega) ?_ flags (by omega) offset ?_
  · rw [taking]
    exact takeStores_link (by omega)
  · have place : x + (payloadPtr x (2 ^ k) - x) - 8 = payloadPtr x (2 ^ k) - 8 := by omega
    rw [place]
    exact named

end Again

end Undo

section Repeat
variable {S : Type} {handle : Sys → S → Int × S} {region : ShmRegion} {n : Nat} {m m' : Mem} {V : HeapView}
  {fuel size alignment p : Nat}

theorem served_sound (inv : HeapInv n m V) (map : region.Mapped) (total : region.size = n) (enough : n ≤ fuel)
    (word : alignment < 2 ^ 64) (grants : Grants handle) {s s' : S}
    (served : run handle (allocatorAlloc fuel region size alignment) m s = some (.ok p, m', s')) :
    0 < size ∧ ∃ k, k < 64 ∧ max alignment 16 = 2 ^ k := by
  obtain ⟨result, m'', alone, outcome⟩ := exec_alloc size alignment inv map total enough word
  obtain ⟨t, run⟩ := run_of_alloc grants alone s
  have wide : max alignment 16 < 2 ^ 64 := by omega
  have small : ∀ k, max alignment 16 = 2 ^ k → k < 64 := fun k power =>
    (Nat.pow_lt_pow_iff_right (a := 2) (by omega)).mp (power ▸ wide)
  cases outcome with
  | @taken V' _ a taken sized aligned _ =>
    obtain ⟨_, _, b, _, _, fits, _⟩ := taken.inv.live_block ((taken.live a).mpr (Or.inr rfl))
    have positive := fits.positive
    obtain ⟨k, power⟩ := fits.power
    rw [aligned] at power
    exact ⟨by omega, k, small k power, power⟩
  | wrapped excess _ _ _ _ _ _ =>
    obtain ⟨k, power⟩ := excess.power
    exact ⟨excess.positive, k, small k power, power⟩
  | failed _ _ => exact absurd (run_unique served run).1 (by simp)

/-- In a region of less than 2^32 bytes a served request can be undone and repeated: the release succeeds, and the
    same request is served at the same address with the memory as it was. -/
theorem alloc_free_alloc (inv : HeapInv n m V) (map : region.Mapped) (total : region.size = n) (below : n < 2 ^ 32)
    (enough : n ≤ fuel) (small : size ≤ n) (word : alignment < 2 ^ 64) (grants : Grants handle) {s s' : S}
    (served : run handle (allocatorAlloc fuel region size alignment) m s = some (.ok p, m', s')) :
    ∃ m₂ s₂ s₃, run handle (allocatorFree region p) m' s' = some (.ok, m₂, s₂) ∧
      run handle (allocatorAlloc fuel region size alignment) m₂ s₂ = some (.ok p, m', s₃) := by
  obtain ⟨positive, k, power, effective⟩ := served_sound inv map total enough word grants served
  obtain ⟨i, pre, x, V', first, rfl, taking, taken⟩ :=
    served_fit inv map total enough positive small power effective grants served
  have least : 4 ≤ k := (Nat.pow_le_pow_iff_right (a := 2) (by omega)).mp (effective ▸ Nat.le_max_right alignment 16)
  have live : V'.Live (carved (shardOfAttempt size i) x size (2 ^ k)) := (taken.live _).mpr (Or.inr rfl)
  have inside := (taken.inv.live_bounds live).2.2
  obtain ⟨V₂, released, freed⟩ := exec_free_near taken.inv map total live (by omega)
  obtain ⟨s₂, free⟩ := run_of_free grants freed s'
  have again := again_first inv least positive first taking rfl (by omega) taken released
  have same := again_same inv least positive first taking rfl (by omega) taken
  obtain ⟨j, pre', y, V₃, second, _, alone⟩ | ⟨none, _⟩ :=
    exec_alloc_fit released.inv map total enough positive small power effective
  · obtain ⟨rfl, rfl, rfl⟩ := again.unique second
    rw [same] at alone
    obtain ⟨s₃, run⟩ := run_of_alloc grants alone s₂
    exact ⟨_, s₂, s₃, free, run⟩
  · obtain ⟨post, listed⟩ := again.listed
    have less := none _ (shardOfAttempt_lt size i) x (by simp [listed])
    have fits := again.fits
    omega

theorem alloc_free_alloc_small : ∃ m' m₂ s₂ s₃,
    run (fun (_ : Sys) (s : Unit) => (0, s)) (allocatorFree smallRegion (smallRegion.base + 2784)) m' () =
      some (.ok, m₂, s₂) ∧
    run (fun (_ : Sys) (s : Unit) => (0, s)) (allocatorAlloc 4096 smallRegion 100 16) m₂ s₂ =
      some (.ok (smallRegion.base + 2784), m', s₃) := by
  have status : (run (fun (_ : Sys) (s : Unit) => (0, s)) (allocatorAlloc 4096 smallRegion 100 16) initialised
      ()).map Prod.fst = some (.ok (smallRegion.base + 2784)) := by decide +kernel
  obtain ⟨⟨result, m', s'⟩, served, same⟩ := Option.map_eq_some_iff.mp status
  have ok : result = .ok (smallRegion.base + 2784) := same
  rw [ok] at served
  exact ⟨m', alloc_free_alloc initialised_inv smallRegion_mapped rfl (by decide) (Nat.le_refl _) (by decide) (by decide)
    (fun _ _ => rfl) served⟩

end Repeat

end OffsetStore
