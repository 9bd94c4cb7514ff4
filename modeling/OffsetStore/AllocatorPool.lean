import OffsetStore.HeapCustody

/- allocator_alloc and allocator_free among other processes. A token is a live
   allocation with a note on its payload; the invariant of all tokens is that the
   heap carries exactly these allocations, and that every note holds. A process that
   died inside a call may leave the header of its last allocation half written; its
   tokens stay, and the memory agrees off that header with one that carries them all. -/
namespace OffsetStore
open ByteMemory Program Prog Words Tiling CellChain Pool

/-- What users of the heap say about payloads and about the memory below the heap:
   facts about the bytes in question only. -/
structure Notes (K : Type) where
  holds : Alloc → K → Mem → Prop
  base : Mem → Prop
  local_payload : ∀ a k m m', SameOn m m' a.ptr (a.ptr + a.size) → holds a k m → holds a k m'
  local_base : ∀ m m', SameOn m m' 0 2688 → base m → base m'

structure Carries {K : Type} (notes : Notes K) (n : Nat) (V : HeapView) (A : Set (Alloc × K))
    (m : Mem) : Prop where
  inv : HeapInv n m V
  intact : V.Intact
  live : ∀ a, V.Live a ↔ ∃ k, (a, k) ∈ A
  single : ∀ a k k', (a, k) ∈ A → (a, k') ∈ A → k = k'
  holds : ∀ a k, (a, k) ∈ A → notes.holds a k m
  base : notes.base m

def HeapTokens {K : Type} (notes : Notes K) (n : Nat) (A : Set (Alloc × K)) (m : Mem) : Prop :=
  ∃ V, Carries notes n V A m

/-- The memory is m₀ but for the headers of the allocations of B. -/
def Veil {K : Type} (B : Set (Alloc × K)) (m₀ m : Mem) : Prop :=
  ∀ x, (∀ t ∈ B, x < t.1.block ∨ t.1.ptr ≤ x) → m x = m₀ x

/-- The tokens A beside those of B, which dead processes left with headers of any content. -/
def Behind {K : Type} (notes : Notes K) (n : Nat) (B A : Set (Alloc × K)) (m : Mem) : Prop :=
  Disjoint A B ∧ ∃ m₀ V, Carries notes n V (A ∪ B) m₀ ∧ Veil B m₀ m

/-- The result of an allocation: a new token with the note `fresh`, or nothing. -/
def allocPost {K : Type} (fresh : K) (region : ShmRegion) (size alignment : Nat) :
    Except OffsetStoreStatus Nat → Set (Alloc × K) → Prop
  | .ok ptr, own => ∃ a, own = {(a, fresh)} ∧ ptr = add64 region.base a.ptr ∧ a.size = size ∧
      a.align = max alignment 16
  | .error _, own => own = ∅

/-- Without a result nothing is taken, and the walk had too little fuel. -/
def attemptPost {K : Type} (n fuel : Nat) (fresh : K) (region : ShmRegion) (size alignment : Nat) :
    Option (Except OffsetStoreStatus Nat) → Set (Alloc × K) → Prop
  | some result, own => allocPost fresh region size alignment result own
  | none, own => own = ∅ ∧ fuel < n

/-- The result of a release: the token is gone, or kept when the release fails. -/
def freePost {K : Type} (token : Alloc × K) : OffsetStoreStatus → Set (Alloc × K) → Prop
  | .ok, own => own = ∅
  | _, own => own = {token}

section Tokens
variable {K : Type} {notes : Notes K} {n : Nat} {A : Set (Alloc × K)} {m m' : Mem} {V V' : HeapView}
  {a : Alloc} {k : K}

theorem Carries.take (c : Carries notes n V A m) (taken : Taken n m m' V V' a)
    (fresh : ∀ m, notes.holds a k m) : Carries notes n V' ({(a, k)} ∪ A) m' := by
  have old : ∀ k', (a, k') ∉ A := fun k' mem => taken.fresh ((c.live a).mpr ⟨k', mem⟩)
  refine ⟨taken.inv, taken.intact c.intact, ?_, ?_, ?_, notes.local_base _ _ taken.below c.base⟩
  · intro d
    rw [taken.live d, c.live d]
    constructor
    · rintro (⟨k', mem⟩ | same)
      · exact ⟨k', Or.inr mem⟩
      · exact ⟨k, Or.inl (by rw [same]; rfl)⟩
    · rintro ⟨k', new | mem⟩
      · exact Or.inr (Prod.mk.inj new).1
      · exact Or.inl ⟨k', mem⟩
  · rintro d k₁ k₂ (new₁ | mem₁) (new₂ | mem₂)
    · rw [(Prod.mk.inj new₁).2, (Prod.mk.inj new₂).2]
    · rw [(Prod.mk.inj new₁).1] at mem₂
      exact absurd mem₂ (old k₂)
    · rw [(Prod.mk.inj new₂).1] at mem₁
      exact absurd mem₁ (old k₁)
    · exact c.single d k₁ k₂ mem₁ mem₂
  · rintro d k' (new | mem)
    · rw [(Prod.mk.inj new).1, (Prod.mk.inj new).2]
      exact fresh m'
    · exact notes.local_payload d k' m m' (taken.payload d ((c.live d).mpr ⟨k', mem⟩)) (c.holds d k' mem)

theorem Carries.release {frame : Set (Alloc × K)} (c : Carries notes n V ({(a, k)} ∪ frame) m)
    (apart : Disjoint {(a, k)} frame) (released : Released n m m' V V' a) :
    Carries notes n V' frame m' := by
  have gone : ∀ k', (a, k') ∉ frame := by
    intro k' mem
    have same := c.single a k k' (Or.inl rfl) (Or.inr mem)
    rw [← same] at mem
    exact Set.disjoint_left.mp apart rfl mem
  refine ⟨released.inv, released.intact c.intact, ?_, ?_, ?_,
    notes.local_base _ _ released.below c.base⟩
  · intro d
    rw [released.live d, c.live d]
    constructor
    · rintro ⟨⟨k', same | mem⟩, other⟩
      · exact absurd (Prod.mk.inj same).1 other
      · exact ⟨k', mem⟩
    · rintro ⟨k', mem⟩
      refine ⟨⟨k', Or.inr mem⟩, ?_⟩
      intro same
      rw [same] at mem
      exact gone k' mem
  · exact fun d k₁ k₂ mem₁ mem₂ => c.single d k₁ k₂ (Or.inr mem₁) (Or.inr mem₂)
  · intro d k' mem
    have other : d ≠ a := by
      intro same
      rw [same] at mem
      exact gone k' mem
    have live := (c.live d).mpr ⟨k', Or.inr mem⟩
    exact notes.local_payload d k' m m' (released.payload d live other) (c.holds d k' (Or.inr mem))

/-- A change of memory that neither the heap nor a note sees. -/
theorem Carries.congr (c : Carries notes n V A m) (inv : HeapInv n m' V)
    (payload : ∀ d k, (d, k) ∈ A → notes.holds d k m') (base : notes.base m') :
    Carries notes n V A m' := ⟨inv, c.intact, c.live, c.single, payload, base⟩

theorem Carries.failures (c : Carries notes n V A m) (v : Nat) :
    Carries notes n V A (store m 2720 8 v) := by
  have low : SameOn m (store m 2720 8 v) 0 2720 := SameOn.store (by omega)
  have high : SameOn m (store m 2720 8 v) 2736 n := SameOn.store (by omega)
  refine c.congr (c.inv.congr (low.narrow (by omega) (by omega)) high) ?_
    (notes.local_base _ _ (low.narrow (by omega) (by omega)) c.base)
  intro d k mem
  have bounds := c.inv.live_bounds ((c.live d).mpr ⟨k, mem⟩)
  unfold heapBase at bounds
  exact notes.local_payload d k _ _ (high.narrow (by omega) (by omega)) (c.holds d k mem)

theorem behind_none : Behind notes n ∅ = HeapTokens notes n := by
  funext A m
  refine propext ⟨?_, ?_⟩
  · rintro ⟨_, m₀, V, carries, veil⟩
    have same : m = m₀ := funext fun x => veil x fun t mem => absurd mem (Set.notMem_empty t)
    rw [Set.union_empty] at carries
    exact ⟨V, same ▸ carries⟩
  · rintro ⟨V, carries⟩
    exact ⟨Set.disjoint_empty A, m, V, by rwa [Set.union_empty], fun _ _ => rfl⟩

section Veil
variable {B : Set (Alloc × K)} {m₀ : Mem}

theorem Veil.store (veil : Veil B m₀ m) (o w v : Nat) : Veil B (store m₀ o w v) (store m o w v) := by
  intro x out
  simp only [ByteMemory.store, veil x out]

theorem Veil.stores (veil : Veil B m₀ m) (ws : List Store) : Veil B (applyStores m₀ ws) (applyStores m ws) := by
  induction ws generalizing m m₀ with
  | nil => exact veil
  | cons w ws ih => exact ih (veil.store w.1 w.2.1 w.2.2)

/-- What is veiled lies in the blocks of the dead allocations, before their payloads. -/
theorem Veil.same (veil : Veil B m₀ m) {lo hi : Nat} (apart : ∀ t ∈ B, hi ≤ t.1.block ∨ t.1.ptr ≤ lo) :
    SameOn m₀ m lo hi := fun x low high => veil x fun t mem => (apart t mem).imp (Nat.lt_of_lt_of_le high) (fun below => by omega)

theorem Carries.shows (c : Carries notes n V (A ∪ B) m₀) (veil : Veil B m₀ m) : Shows n V m₀ m := by
  have dead : ∀ t ∈ B, ∃ s, s < 4 ∧ ∃ b ∈ (V s).blocks, b.use = .live t.1 ∧ t.1.InBlock s b.start b.size ∧
      shardStart heapBase n s ≤ b.start ∧ b.start + b.size ≤ shardStart heapBase n s + shardSize heapBase n :=
    fun t mem => c.inv.live_block ((c.live t.1).mpr ⟨t.2, Or.inr mem⟩)
  refine ⟨veil.same fun t mem => ?_, fun s shard b mb free => veil.same fun t mem => ?_⟩
  · obtain ⟨s, shard, b, mb, kind, fits, low, _⟩ := dead t mem
    have start := shardStart_ge n s
    have block := fits.block
    omega
  · obtain ⟨t', shard', d, md, kind, fits, _⟩ := dead t mem
    have block := fits.block
    have high := fits.ptr_le
    rcases c.inv.blocks_apart shard shard' mb md with ⟨_, same⟩ | before | after
    · rw [same, kind] at free
      exact absurd free (by simp)
    · omega
    · omega

/-- The block of a token in front is not veiled, up to the end of its payload. -/
theorem Carries.front (c : Carries notes n V (A ∪ B) m₀) (apart : Disjoint A B) (veil : Veil B m₀ m) (mem : (a, k) ∈ A) :
    SameOn m₀ m a.block (a.ptr + a.size) := by
  refine veil.same fun t dead => ?_
  obtain ⟨s, shard, b, mb, kind, fits, _⟩ := c.inv.live_block ((c.live a).mpr ⟨k, Or.inl mem⟩)
  obtain ⟨s', shard', d, md, kind', fits', _⟩ := c.inv.live_block ((c.live t.1).mpr ⟨t.2, Or.inr dead⟩)
  have block := fits.block
  have block' := fits'.block
  have high := fits.ptr_le
  have high' := fits'.ptr_le
  rcases c.inv.blocks_apart shard shard' mb md with ⟨_, same⟩ | before | after
  · rw [← same, kind] at kind'
    have eq : a = t.1 := by simpa using kind'
    have note : k = t.2 := c.single a k t.2 (Or.inl mem) (Or.inr (by rw [eq]; exact dead))
    have twin : (a, k) = t := Prod.ext eq note
    rw [twin] at mem
    exact absurd dead (Set.disjoint_left.mp apart mem)
  · omega
  · omega

end Veil

end Tokens

section Calls
variable {K : Type} {notes : Notes K} {n : Nat} {region : ShmRegion}

section Behind
variable {B : Set (Alloc × K)}

theorem behind_lends (word : n < 2 ^ 64) {k : K} (fresh : ∀ a m, notes.holds a k m) :
    Lends n (Behind notes n B) (fun a own => own = {(a, k)}) (fun own => own = ∅) where
  takes := by
    rintro A m ⟨away, m₀, V, carries, veil⟩
    refine ⟨m₀, V, carries.inv, carries.shows veil, ?_⟩
    intro s x pre post a shard list fits
    obtain ⟨V', taken⟩ := carries.inv.taken word shard list fits
    have carried := carries.take taken (fresh a)
    rw [← Set.union_assoc] at carried
    have new : (a, k) ∉ A ∪ B := fun mem => taken.fresh ((carries.live a).mpr ⟨k, mem⟩)
    refine ⟨{(a, k)}, ?_, rfl, ?_, _, V', carried, veil.stores _⟩
    · exact Set.disjoint_singleton_left.mpr fun mem => new (Or.inl mem)
    · exact Set.disjoint_union_left.mpr ⟨Set.disjoint_singleton_left.mpr fun mem => new (Or.inr mem), away⟩
  fails := by
    rintro A m ⟨away, m₀, V, carries, veil⟩
    refine ⟨∅, Set.empty_disjoint _, rfl, ?_⟩
    rw [Set.empty_union]
    exact ⟨away, _, V, carries.failures _, veil.store 2720 8 _⟩

theorem behind_pledge (word : n < 2 ^ 64) (a : Alloc) (k : K) : Pledge n (Behind notes n B) a {(a, k)} where
  redeems := by
    rintro frame m apart ⟨away, m₀, V, carries, veil⟩
    have mine : (a, k) ∈ {(a, k)} ∪ frame := Or.inl rfl
    have live : V.Live a := (carries.live a).mpr ⟨k, Or.inl mine⟩
    have own := (carries.front away veil mine).narrow (Nat.le_refl _) (Nat.le_add_right a.ptr a.size)
    refine ⟨m₀, V, carries.inv, carries.shows veil, live, own, fun _ => ?_⟩
    obtain ⟨s, shard, b, mb, kind, fits, _⟩ := carries.inv.live_block live
    obtain ⟨V', released⟩ := carries.inv.released word shard mb kind
    rw [← fits.owner, ← fits.block] at released
    rw [Set.union_assoc] at carries
    rw [Set.disjoint_union_left] at away
    have carried := carries.release (Set.disjoint_union_right.mpr ⟨apart, away.1⟩) released
    exact ⟨away.2, _, V', carried, veil.stores _⟩

/-- allocator_alloc returns a payload nobody else holds, or leaves the heap alone. -/
theorem ready_alloc_behind (map : region.Mapped) (total : region.size = n) (large : 2728 ≤ n) {k : K}
    (fresh : ∀ a m, notes.holds a k m) {fuel size alignment : Nat}
    (sized : size < 2 ^ 62 ∨ size + alignment + 96 ≤ 2 ^ 64) (word : alignment < 2 ^ 64) :
    Ready (Behind notes n B) (attemptPost n fuel k region size alignment) ∅
      (attempt (allocatorAlloc fuel region size alignment)) := by
  have user := map.user
  have lends : Lends n (Behind notes n B) _ _ := behind_lends (by omega) fresh
  refine ready_weaken (ready_alloc_lent lends map total large sized word) ?_
  intro r own holds
  match r with
  | none => exact holds
  | some (.error status) => cases status <;> exact holds
  | some (.ok ptr) => exact holds

/-- allocator_free of a held allocation gives it back, or leaves it held. -/
theorem ready_free_behind (map : region.Mapped) (total : region.size = n) (token : Alloc × K) :
    Ready (Behind notes n B) (freePost token) {token}
      (allocatorFree region (add64 region.base token.1.ptr)) := by
  have user := map.user
  have pledge : Pledge n (Behind notes n B) token.1 {token} := behind_pledge (by omega) token.1 token.2
  refine ready_weaken (ready_free_pledged pledge map total) ?_
  intro status own holds
  cases status <;> exact holds

end Behind

/- Without dead allocations. -/

theorem ready_alloc_attempt (map : region.Mapped) (total : region.size = n) (large : 2728 ≤ n) {k : K}
    (fresh : ∀ a m, notes.holds a k m) {fuel size alignment : Nat}
    (sized : size < 2 ^ 62 ∨ size + alignment + 96 ≤ 2 ^ 64) (word : alignment < 2 ^ 64) :
    Ready (HeapTokens notes n) (attemptPost n fuel k region size alignment) ∅
      (attempt (allocatorAlloc fuel region size alignment)) :=
  behind_none ▸ ready_alloc_behind map total large fresh sized word

theorem ready_free_granted (map : region.Mapped) (total : region.size = n) {a : Alloc} {k : K}
    (near : a.ptr - a.block < 2 ^ 32) :
    Ready (HeapTokens notes n) (fun result own => result = some .ok ∧ own = ∅) {(a, k)}
      (assume lockGranted (attempt (allocatorFree region (add64 region.base a.ptr)))) := by
  have user := map.user
  have pledge : Pledge n (Behind notes n ∅) a {(a, k)} := behind_pledge (by omega) a k
  rw [← behind_none]
  exact ready_free_pledged_granted pledge map total near

end Calls

end OffsetStore
