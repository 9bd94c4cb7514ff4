import OffsetStore.RequestSizes
import OffsetStore.SteadyCalls

/- allocator_alloc on requests no larger than the region. It serves the first free block that
   the request fits, in the order of the lists and of the shards behind the preferred one. -/
namespace OffsetStore
open ByteMemory Program Prog Words Tiling CellChain

def shardOfAttempt (size i : Nat) : Nat := (allocatorSelectShard (roundUp size 16) + i) % shardCount

/-- Block x, behind those of pre on the list of attempt i, is the first that the request fits. -/
structure FirstFit (m : Mem) (V : HeapView) (size alignment i : Nat) (pre : List Nat) (x : Nat) : Prop where
  attempt : i < shardCount
  earlier : ∀ j, j < i → ∀ y ∈ (V (shardOfAttempt size j)).free, load m y 8 < required y size alignment
  before : ∀ y ∈ pre, load m y 8 < required y size alignment
  listed : ∃ post, (V (shardOfAttempt size i)).free = pre ++ x :: post
  fits : required x size alignment ≤ load m x 8

theorem shardOfAttempt_lt (size i : Nat) : shardOfAttempt size i < 4 := Nat.mod_lt _ (by simp)

theorem FirstFit.unique {m : Mem} {V : HeapView} {size alignment i j : Nat} {xs ys : List Nat} {x y : Nat}
    (first : FirstFit m V size alignment i xs x) (second : FirstFit m V size alignment j ys y) : i = j ∧ xs = ys ∧ x = y := by
  have fitX := first.fits
  have fitY := second.fits
  obtain ⟨us, listX⟩ := first.listed
  obtain ⟨vs, listY⟩ := second.listed
  rcases Nat.lt_trichotomy i j with less | rfl | more
  · have small := second.earlier i less x (by simp [listX])
    omega
  · exact ⟨rfl, first_unique (listX.symm.trans listY) first.before second.before (by omega) (by omega)⟩
  · have small := first.earlier j more y (by simp [listY])
    omega

/-- Where a position in the scan lies: in the list of some attempt, behind those of the earlier ones. -/
theorem scanOrder_split {V : HeapView} {shard x : Nat} {before after : List Nat} {left : Nat} (some : left ≤ 4)
    (split : scanOrder V shard left = before ++ x :: after) :
    ∃ i pre post, 4 - left ≤ i ∧ i < 4 ∧ (V ((shard + i) % shardCount)).free = pre ++ x :: post ∧
      (∀ y ∈ pre, y ∈ before) ∧ ∀ j, 4 - left ≤ j → j < i → ∀ y ∈ (V ((shard + j) % shardCount)).free, y ∈ before := by
  induction left generalizing before with
  | zero => simp [scanOrder] at split
  | succ left ih =>
    rw [scanOrder, show shardCount - (left + 1) = 4 - (left + 1) from rfl] at split
    rcases List.append_eq_append_iff.mp split with ⟨mid, rfl, rest⟩ | ⟨mid, here, rest⟩
    · obtain ⟨i, pre, post, low, high, listed, front, earlier⟩ := ih (by omega) rest
      refine ⟨i, pre, post, by omega, high, listed, fun y mem => List.mem_append_right _ (front y mem), ?_⟩
      intro j first less y mem
      by_cases same : j = 4 - (left + 1)
      · rw [same] at mem
        exact List.mem_append_left _ mem
      · exact List.mem_append_right _ (earlier j (by omega) less y mem)
    · cases mid with
      | nil =>
        have later : scanOrder V shard left = [] ++ x :: after := rest.symm
        obtain ⟨i, pre, post, low, high, listed, front, earlier⟩ := ih (by omega) later
        refine ⟨i, pre, post, by omega, high, listed, fun y mem => absurd (front y mem) (by simp), ?_⟩
        intro j first less y mem
        by_cases same : j = 4 - (left + 1)
        · rw [same, here, List.append_nil] at mem
          exact mem
        · exact absurd (earlier j (by omega) less y mem) (by simp)
      | cons z mid =>
        obtain ⟨rfl, _⟩ := List.cons.inj rest
        exact ⟨4 - (left + 1), before, mid, Nat.le_refl _, by omega, here, fun y mem => mem, by omega⟩

theorem mem_scanOrder {V : HeapView} {shard y : Nat} {left : Nat} (some : left ≤ 4) :
    y ∈ scanOrder V shard left ↔ ∃ i, 4 - left ≤ i ∧ i < 4 ∧ y ∈ (V ((shard + i) % shardCount)).free := by
  induction left with
  | zero =>
    simp only [scanOrder, List.not_mem_nil, false_iff]
    rintro ⟨i, low, high, _⟩
    omega
  | succ left ih =>
    rw [scanOrder, List.mem_append, ih (by omega)]
    constructor
    · rintro (here | ⟨i, low, high, mem⟩)
      · exact ⟨4 - (left + 1), Nat.le_refl _, by omega, here⟩
      · exact ⟨i, by omega, high, mem⟩
    · rintro ⟨i, low, high, mem⟩
      by_cases same : i = 4 - (left + 1)
      · rw [same] at mem
        exact Or.inl mem
      · exact Or.inr ⟨i, by omega, high, mem⟩

theorem attempt_of_shard (size : Nat) {s : Nat} (small : s < 4) : ∃ i, i < 4 ∧ shardOfAttempt size i = s := by
  have bound : allocatorSelectShard (roundUp size 16) < 4 := by
    unfold allocatorSelectShard
    exact Nat.lt_of_le_of_lt (Nat.mod_le _ _) (Nat.lt_of_le_of_lt Nat.and_le_right (by simp))
  unfold shardOfAttempt OffsetStore.shardCount
  generalize allocatorSelectShard (roundUp size 16) = shard at bound ⊢
  exact ⟨(s + 4 - shard) % 4, Nat.mod_lt _ (by omega), by omega⟩

section Scan
variable {n : Nat} {m : Mem} {V : HeapView} {size k : Nat}

theorem HeapInv.shard_unique (inv : HeapInv n m V) {s t x : Nat} (hs : s < 4) (ht : t < 4) (listS : x ∈ (V s).free)
    (listT : x ∈ (V t).free) : s = t := by
  have left := inv.nodes hs x listS
  have right := inv.nodes ht x listT
  have lowS := left.left
  have highS := left.right
  have lowT := right.left
  have highT := right.right
  rcases Nat.lt_trichotomy s t with less | same | more
  · have order := @shardStart_mono heapBase n s t less
    omega
  · exact same
  · have order := @shardStart_mono heapBase n t s more
    omega

theorem passed_iff {x : Nat} (sum : payloadPtr x (2 ^ k) - x + roundUp size 16 ≤ 2 ^ 64 - 16) :
    Passed m size (2 ^ k) x ↔ load m x 8 < required x size (2 ^ k) := by
  have same : sumAt x size (2 ^ k) = payloadPtr x (2 ^ k) - x + roundUp size 16 := add64_eq (by omega)
  unfold Passed required
  rw [same]
  omega

theorem sum_small {x : Nat} (word : n ≤ 2 ^ 56) (small : size ≤ n) (power : k < 64) :
    payloadPtr x (2 ^ k) - x + roundUp size 16 ≤ 2 ^ 64 - 16 := by
  have half : 2 ^ k ≤ 2 ^ 63 := Nat.pow_le_pow_right (by omega) (by omega)
  have ptrHigh : payloadPtr x (2 ^ k) < x + 40 + 2 ^ k := roundUp_lt (Nat.two_pow_pos k)
  have rounded : roundUp size 16 < size + 16 := roundUp_lt (by omega)
  omega

theorem Stops.first_fit (inv : HeapInv n m V) (word : n ≤ 2 ^ 56) (small : size ≤ n) (power : k < 64)
    {s x : Nat} {pre : List Nat}
    (stops : Stops m V (scanOrder V (allocatorSelectShard (roundUp size 16)) shardCount) size (2 ^ k) s x pre) :
    ∃ i, shardOfAttempt size i = s ∧ FirstFit m V size (2 ^ k) i pre x := by
  obtain ⟨post, listed⟩ := stops.listed
  obtain ⟨front, back, split, passed⟩ := stops.order
  obtain ⟨i, pre', post', _, high, listed', before, earlier⟩ := scanOrder_split (Nat.le_refl 4) split
  have here : shardOfAttempt size i = s :=
    inv.shard_unique (shardOfAttempt_lt size i) stops.shard (x := x) (listed' ▸ by simp) (by simp [listed])
  have list : (V s).free = pre' ++ x :: post' := here ▸ listed'
  have distinct := (inv.shards s stops.shard).nodup
  rw [list] at distinct
  have parts := List.nodup_append.mp distinct
  have same := (List.append_cons_inj_of_notMem (fun mem => parts.2.2 x mem x (by simp) rfl)
    (List.nodup_cons.mp parts.2.1).1).mp (list.symm.trans listed)
  have below : ∀ t, t < 4 → ∀ y ∈ (V t).free, y ∈ front → load m y 8 < required y size (2 ^ k) :=
    fun t shard y free mem => (passed_iff (sum_small word small power)).mp (passed y mem)
  refine ⟨i, here, high, fun j less y mem => ?_, fun y mem => ?_, ⟨post, ?_⟩, ?_⟩
  · exact below _ (shardOfAttempt_lt size j) y mem (earlier j (by omega) less y mem)
  · rw [← same.1] at mem
    exact below s stops.shard y (by simp [list, mem]) (before y mem)
  · rw [here, listed]
  · by_contra less
    exact stops.stopped ((passed_iff (sum_small word small power)).mpr (by omega))

/-- The memory after an allocation from block x of shard s, listed behind the blocks of pre. -/
def carvedFrom (m : Mem) (s : Nat) (pre : List Nat) (x size alignment : Nat) : Mem :=
  applyStores m (takeStores m s (cellAfter 8 (headCell s) pre) x (payloadPtr x alignment - x)
    (required x size alignment))

theorem exec_alloc_fit {region : ShmRegion} {fuel alignment : Nat} (inv : HeapInv n m V) (map : region.Mapped)
    (total : region.size = n) (enough : n ≤ fuel) (positive : 0 < size) (small : size ≤ n) (power : k < 64)
    (effective : max alignment 16 = 2 ^ k) :
    (∃ i pre x V', FirstFit m V size (2 ^ k) i pre x ∧
      Taken n m (carvedFrom m (shardOfAttempt size i) pre x size (2 ^ k)) V V'
        (carved (shardOfAttempt size i) x size (2 ^ k)) ∧
      exec (allocatorAlloc fuel region size alignment) m = some (.ok (add64 region.base (payloadPtr x (2 ^ k))),
        carvedFrom m (shardOfAttempt size i) pre x size (2 ^ k))) ∨
    ((∀ s, s < 4 → ∀ y ∈ (V s).free, load m y 8 < required y size (2 ^ k)) ∧
      exec (allocatorAlloc fuel region size alignment) m =
        some (.error .outOfMemory, store m 2720 8 (load m 2720 8 + 1))) := by
  have user := map.user
  have least : 4 ≤ k := (Nat.pow_le_pow_iff_right (a := 2) (by omega)).mp (effective ▸ Nat.le_max_right alignment 16)
  obtain ⟨s, pre, x, link, stops, at', runs⟩ | ⟨none, same⟩ :=
    exec_alloc_scan map total enough inv positive (by omega) power effective
  · obtain ⟨i, rfl, first⟩ := stops.first_fit inv (by omega) small power
    obtain ⟨post, listed⟩ := stops.listed
    have sum := sum_small (x := x) (show n ≤ 2 ^ 56 by omega) small power
    obtain ⟨_, V', taken, run⟩ := exec_stop_taken inv map total stops.shard positive least listed at' sum stops.stopped
    exact Or.inl ⟨i, pre, x, V', first, taken, runs _ _ run⟩
  · refine Or.inr ⟨fun s shard y free => ?_, same⟩
    obtain ⟨i, inside, rfl⟩ := attempt_of_shard size shard
    refine (passed_iff (sum_small (by omega) small power)).mp (none y ?_)
    exact (mem_scanOrder (Nat.le_refl 4)).mpr ⟨i, by omega, inside, free⟩

theorem HeapInv.fit_iff (inv : HeapInv n m V) (alignment : Nat) :
    (∃ s, s < 4 ∧ ∃ b ∈ (V s).blocks, b.use = .free ∧ required b.start size alignment ≤ b.size) ↔
      ∃ s, s < 4 ∧ ∃ y ∈ (V s).free, required y size alignment ≤ load m y 8 := by
  constructor
  · rintro ⟨s, shard, b, mem, free, fits⟩
    refine ⟨s, shard, b.start, ((inv.shards s shard).free_iff _).mpr ⟨b, mem, rfl, free⟩, ?_⟩
    rwa [((inv.shards s shard).repr b mem).size]
  · rintro ⟨s, shard, y, listed, fits⟩
    obtain ⟨b, mem, rfl, free⟩ := (inv.shards s shard).block_of_free listed
    refine ⟨s, shard, b, mem, free, ?_⟩
    rwa [((inv.shards s shard).repr b mem).size] at fits

end Scan

section Completeness
variable {S : Type} {handle : Sys → S → Int × S} {region : ShmRegion} {n : Nat} {m : Mem} {V : HeapView}
  {fuel size alignment : Nat}

theorem effective_power (power : ∃ k, alignment = 2 ^ k) (word : alignment < 2 ^ 64) :
    ∃ k, k < 64 ∧ max alignment 16 = 2 ^ k := by
  obtain ⟨k, rfl⟩ := power
  rcases Nat.le_total (2 ^ k) 16 with less | more
  · exact ⟨4, by omega, Nat.max_eq_right less⟩
  · exact ⟨k, (Nat.pow_lt_pow_iff_right (by omega)).mp word, Nat.max_eq_left more⟩

/-- What allocator_alloc makes of a request: the first fit becomes the allocation, and the request fails when
    nothing fits. -/
structure Complete (n : Nat) (region : ShmRegion) (m : Mem) (V : HeapView) (size alignment : Nat)
    (result : Except OffsetStoreStatus Nat) (m' : Mem) : Prop where
  iff : (∃ p, result = .ok p) ↔
    ∃ s, s < 4 ∧ ∃ b ∈ (V s).blocks, b.use = .free ∧ required b.start size alignment ≤ b.size
  first : ∀ p, result = .ok p → ∃ i pre x V', FirstFit m V size alignment i pre x ∧
    p = add64 region.base (payloadPtr x alignment) ∧
    Taken n m m' V V' (carved (shardOfAttempt size i) x size alignment)
  otherwise : (∀ p, result ≠ .ok p) → result = .error .outOfMemory

/-- Where every lock is granted, a request no larger than the region is served exactly when some free block is
    large enough for it, and then from the first such block. -/
theorem alloc_complete (inv : HeapInv n m V) (map : region.Mapped) (total : region.size = n) (enough : n ≤ fuel)
    (positive : 0 < size) (small : size ≤ n) (power : ∃ k, alignment = 2 ^ k) (word : alignment < 2 ^ 64)
    (grants : Grants handle) (s : S) :
    ∃ result m' s', run handle (allocatorAlloc fuel region size alignment) m s = some (result, m', s') ∧
      Complete n region m V size (max alignment 16) result m' := by
  obtain ⟨k, exponent, effective⟩ := effective_power power word
  rw [effective]
  obtain ⟨i, pre, x, V', first, taken, alone⟩ | ⟨none, alone⟩ :=
    exec_alloc_fit inv map total enough positive small exponent effective
  · obtain ⟨s', run⟩ := run_of_alloc grants alone s
    refine ⟨_, _, s', run, ⟨iff_of_true ⟨_, rfl⟩ ?_, fun p same => ?_, fun failed => absurd rfl (failed _)⟩⟩
    · obtain ⟨post, listed⟩ := first.listed
      exact (inv.fit_iff _).mpr ⟨_, shardOfAttempt_lt size i, x, by simp [listed], first.fits⟩
    · exact ⟨i, pre, x, V', first, (Except.ok.inj same).symm, taken⟩
  · obtain ⟨s', run⟩ := run_of_alloc grants alone s
    refine ⟨_, _, s', run, ⟨iff_of_false (by simp) ?_, fun p same => by simp at same, fun _ => rfl⟩⟩
    rw [inv.fit_iff]
    rintro ⟨t, shard, y, listed, fits⟩
    have less := none t shard y listed
    omega

theorem alloc_complete_small : ∃ result m' s', run (fun (_ : Sys) (s : Unit) => (0, s))
    (allocatorAlloc 4096 smallRegion 100 32) initialised () = some (result, m', s') ∧
      Complete 4096 smallRegion initialised (freshView 4096) 100 (max 32 16) result m' :=
  alloc_complete initialised_inv smallRegion_mapped rfl (Nat.le_refl _) (by decide) (by decide) ⟨5, rfl⟩ (by decide)
    (fun _ _ => rfl) ()

end Completeness

end OffsetStore
