import OffsetStore.AllocatorPool

/- One user of the heap in terms of what it owns: a set of live allocations and the
   bytes of their payloads. What the others do between two of its lock operations
   changes neither. Locks are granted, and walks have enough fuel. -/
namespace OffsetStore
open ByteMemory Program Prog Words Pool

/-- The note on a payload: its bytes are those of μ, or nobody keeps track of them. -/
def byteNotes : Notes (Option Mem) where
  holds a k m := ∀ μ, k = some μ → SameOn μ m a.ptr (a.ptr + a.size)
  base _ := True
  local_payload _ _ _ _ same holds μ eq := (holds μ eq).trans same
  local_base _ _ _ _ := trivial

abbrev ByteToken := Alloc × Option Mem

/-- The allocations of L, with payload bytes as in μ. -/
def owned (L : Set Alloc) (μ : Mem) : Set ByteToken := {t | t.1 ∈ L ∧ t.2 = some μ}

/-- What the heap promises about allocations that are live together. -/
structure Footprint (n : Nat) (L : Set Alloc) : Prop where
  bounds : ∀ a ∈ L, heapBase + 40 ≤ a.ptr ∧ 0 < a.size ∧ a.ptr + a.size ≤ n
  apart : ∀ a ∈ L, ∀ b ∈ L, a = b ∨ a.ptr + a.size ≤ b.ptr ∨ b.ptr + b.size ≤ a.ptr
  near : ∀ a ∈ L, a.ptr < a.block + 40 + a.align
  aligned : ∀ a ∈ L, 16 ∣ a.ptr

theorem Footprint.mono {n : Nat} {L L' : Set Alloc} (foot : Footprint n L) (sub : L' ⊆ L) : Footprint n L' :=
  ⟨fun a mem => foot.bounds a (sub mem), fun a ma b mb => foot.apart a (sub ma) b (sub mb),
    fun a mem => foot.near a (sub mem), fun a mem => foot.aligned a (sub mem)⟩

theorem Footprint.disjoint {n : Nat} {L : Set Alloc} (foot : Footprint n L) {a b : Alloc} (ma : a ∈ L) (mb : b ∈ L)
    (other : a ≠ b) : a.ptr + a.size ≤ b.ptr ∨ b.ptr + b.size ≤ a.ptr := (foot.apart a ma b mb).resolve_left other

/-- The program, with locks granted and a lack of fuel made visible. -/
def sure {α : Type} (p : Code α) : Code (Option α) := assume lockGranted (attempt p)

section Tokens
variable {n : Nat} {L : Set Alloc} {μ m : Mem} {frame : Set ByteToken}

theorem mem_owned {t : ByteToken} : t ∈ owned L μ ↔ t.1 ∈ L ∧ t.2 = some μ := Iff.rfl

@[simp] theorem owned_empty (μ : Mem) : owned ∅ μ = ∅ := by
  ext t
  simp [mem_owned]

theorem owned_insert (a : Alloc) (L : Set Alloc) (μ : Mem) :
    owned (insert a L) μ = {(a, some μ)} ∪ owned L μ := by
  ext t
  simp only [mem_owned, Set.mem_insert_iff, Set.mem_union, Set.mem_singleton_iff, Prod.ext_iff]
  tauto

theorem live_of_owned {V : HeapView} (carries : Carries byteNotes n V (owned L μ ∪ frame) m) {a : Alloc}
    (mem : a ∈ L) : V.Live a := (carries.live a).mpr ⟨some μ, Or.inl ⟨mem, rfl⟩⟩

theorem footprint_of_tokens (tokens : HeapTokens byteNotes n (owned L μ ∪ frame) m) : Footprint n L := by
  obtain ⟨V, carries⟩ := tokens
  refine ⟨?_, ?_, ?_, ?_⟩
  · exact fun a mem => carries.inv.live_bounds (live_of_owned carries mem)
  · exact fun a ma b mb => carries.inv.live_apart (live_of_owned carries ma) (live_of_owned carries mb)
  · intro a mem
    obtain ⟨s, _, b, _, _, fits, _⟩ := carries.inv.live_block (live_of_owned carries mem)
    have least := fits.least
    have high : payloadPtr b.start a.align < b.start + 40 + a.align := roundUp_lt (by omega)
    rw [fits.place, fits.block]
    exact high
  · intro a mem
    obtain ⟨s, _, b, _, _, fits, _⟩ := carries.inv.live_block (live_of_owned carries mem)
    obtain ⟨k, power⟩ := fits.power
    have least := fits.least
    rw [fits.place]
    exact Dvd.dvd.trans (power ▸ sixteen_dvd_two_pow (power ▸ least)) (dvd_roundUp _ _)

theorem owned_bytes (tokens : HeapTokens byteNotes n (owned L μ ∪ frame) m) {a : Alloc} (mem : a ∈ L) :
    SameOn μ m a.ptr (a.ptr + a.size) := by
  obtain ⟨V, carries⟩ := tokens
  exact carries.holds a (some μ) (Or.inl ⟨mem, rfl⟩) μ rfl

/-- The payloads of L keep their allocations when their bytes become those of μ'. -/
theorem owned_change {μ' m' : Mem} (apart : Disjoint (owned L μ) frame)
    (tokens : HeapTokens byteNotes n (owned L μ ∪ frame) m)
    (heap : ∀ V, HeapInv n m V → (∀ a ∈ L, V.Live a) → HeapInv n m' V)
    (mine : ∀ a ∈ L, SameOn μ' m' a.ptr (a.ptr + a.size))
    (others : ∀ V, HeapInv n m V → (∀ a ∈ L, V.Live a) → ∀ c, V.Live c → c ∉ L →
      SameOn m m' c.ptr (c.ptr + c.size)) :
    Disjoint (owned L μ') frame ∧ HeapTokens byteNotes n (owned L μ' ∪ frame) m' := by
  obtain ⟨V, carries⟩ := tokens
  have all : ∀ a ∈ L, V.Live a := fun a mem => live_of_owned carries mem
  -- an allocation of L has no token among those of the others
  have fresh : ∀ a ∈ L, ∀ k, (a, k) ∉ frame := by
    intro a mem k other
    have same := carries.single a (some μ) k (Or.inl ⟨mem, rfl⟩) (Or.inr other)
    rw [← same] at other
    exact Set.disjoint_left.mp apart ⟨mem, rfl⟩ other
  refine ⟨?_, V, heap V carries.inv all, carries.intact, ?_, ?_, ?_, trivial⟩
  · rw [Set.disjoint_left]
    exact fun t mem other => fresh t.1 mem.1 t.2 other
  · intro a
    rw [carries.live a]
    constructor
    · rintro ⟨k, mem | mem⟩
      · exact ⟨some μ', Or.inl ⟨mem.1, rfl⟩⟩
      · exact ⟨k, Or.inr mem⟩
    · rintro ⟨k, mem | mem⟩
      · exact ⟨some μ, Or.inl ⟨mem.1, rfl⟩⟩
      · exact ⟨k, Or.inr mem⟩
  · rintro a k k' (mem | mem) (mem' | mem')
    · exact mem.2.trans mem'.2.symm
    · exact absurd mem' (fresh a mem.1 k')
    · exact absurd mem (fresh a mem'.1 k)
    · exact carries.single a k k' (Or.inr mem) (Or.inr mem')
  · rintro a k (mem | mem) ν eq
    · have same : some μ' = some ν := mem.2.symm.trans eq
      rw [← Option.some.inj same]
      exact mine a mem.1
    · have live := (carries.live a).mpr ⟨k, Or.inr mem⟩
      have other : a ∉ L := fun here => fresh a here k mem
      exact (carries.holds a k (Or.inr mem) ν eq).trans (others V carries.inv all a live other)

/-- A store into an owned payload. -/
theorem owned_store {a : Alloc} {o k v : Nat} (apart : Disjoint (owned L μ) frame)
    (tokens : HeapTokens byteNotes n (owned L μ ∪ frame) m) (mem : a ∈ L) (left : a.ptr ≤ o)
    (right : o + k ≤ a.ptr + a.size) :
    Disjoint (owned L (store μ o k v)) frame ∧
      HeapTokens byteNotes n (owned L (store μ o k v) ∪ frame) (store m o k v) := by
  have inside : SameOff m (store m o k v) a.ptr (a.ptr + a.size) := SameOff.store left right
  refine owned_change apart tokens ?_ ?_ ?_
  · exact fun V inv all => inv.write_payload (all a mem) inside
  · intro b mb x low high
    have before := owned_bytes tokens mb x low high
    by_cases here : o ≤ x ∧ x < o + k
    · simp only [store, here, and_self, if_true]
    · simp only [store, here, if_false]
      exact before
  · intro V inv all c live other
    rcases inv.live_apart (all a mem) live with same | before | after
    · rw [← same] at other
      exact absurd mem other
    · exact inside.on (Or.inr before)
    · exact inside.on (Or.inl after)

/-- A new allocation joins the owned ones with the bytes found in its payload. -/
theorem owned_join {a : Alloc} (apart : Disjoint ({(a, none)} ∪ owned L μ) frame)
    (tokens : HeapTokens byteNotes n ({(a, none)} ∪ owned L μ ∪ frame) m) :
    a ∉ L ∧ Disjoint (owned (insert a L) m) frame ∧
      HeapTokens byteNotes n (owned (insert a L) m ∪ frame) m := by
  obtain ⟨V, carries⟩ := tokens
  have fresh : a ∉ L := by
    intro mem
    have same := carries.single a none (some μ) (Or.inl (Or.inl rfl)) (Or.inl (Or.inr ⟨mem, rfl⟩))
    exact absurd same (by simp)
  have known : ∀ b, b ∈ insert a L → ∃ k, (b, k) ∈ {((a, none) : ByteToken)} ∪ owned L μ := by
    rintro b (rfl | mem)
    · exact ⟨none, Or.inl rfl⟩
    · exact ⟨some μ, Or.inr ⟨mem, rfl⟩⟩
  have outside : ∀ b, b ∈ insert a L → ∀ k, (b, k) ∉ frame := by
    intro b mem k other
    obtain ⟨k', mine⟩ := known b mem
    have same := carries.single b k' k (Or.inl mine) (Or.inr other)
    rw [← same] at other
    exact Set.disjoint_left.mp apart mine other
  refine ⟨fresh, ?_, V, carries.inv, carries.intact, ?_, ?_, ?_, trivial⟩
  · rw [Set.disjoint_left]
    exact fun t mem other => outside t.1 mem.1 t.2 other
  · intro b
    rw [carries.live b]
    constructor
    · rintro ⟨k, (new | old) | mem⟩
      · exact ⟨some m, Or.inl ⟨Or.inl (Prod.mk.inj new).1, rfl⟩⟩
      · exact ⟨some m, Or.inl ⟨Or.inr old.1, rfl⟩⟩
      · exact ⟨k, Or.inr mem⟩
    · rintro ⟨k, mem | mem⟩
      · obtain ⟨k', mine⟩ := known b mem.1
        exact ⟨k', Or.inl mine⟩
      · exact ⟨k, Or.inr mem⟩
  · rintro b k k' (mem | mem) (mem' | mem')
    · exact mem.2.trans mem'.2.symm
    · exact absurd mem' (outside b mem.1 k')
    · exact absurd mem (outside b mem'.1 k)
    · exact carries.single b k k' (Or.inr mem) (Or.inr mem')
  · rintro b k (mem | mem) ν eq
    · have same : some m = some ν := mem.2.symm.trans eq
      rw [Option.some.inj same]
      exact SameOn.refl ν _ _
    · exact carries.holds b k (Or.inr mem) ν eq

end Tokens

/-- From the owned allocations L with bytes μ the program reaches a result, and the
    result, what is owned then and its bytes are as stated. -/
structure Does {α : Type} (n : Nat) (L : Set Alloc) (μ : Mem) (p : Code α)
    (post : α → Set Alloc → Mem → Prop) : Prop where
  ready : Ready (HeapTokens byteNotes n)
    (fun r own => ∃ a L' μ', r = some a ∧ own = owned L' μ' ∧ post a L' μ') (owned L μ) (sure p)

/-- The outcome of an allocation: one more payload, its bytes unknown, or nothing new. -/
def allocated (region : ShmRegion) (size alignment : Nat) (L : Set Alloc) (μ : Mem) :
    Except OffsetStoreStatus Nat → Set Alloc → Mem → Prop
  | .ok ptr, L', μ' => ∃ a, a ∉ L ∧ L' = insert a L ∧ (∀ b ∈ L, SameOn μ μ' b.ptr (b.ptr + b.size)) ∧
      ptr = add64 region.base a.ptr ∧ a.size = size ∧ a.align = max alignment 16
  | .error _, L', μ' => L' = L ∧ μ' = μ

section Does
variable {α β : Type} {n : Nat} {L : Set Alloc} {μ : Mem} {region : ShmRegion}
  {post : α → Set Alloc → Mem → Prop}

theorem does_ret {a : α} (holds : post a L μ) : Does n L μ (ret a) post :=
  ⟨ready_ret ⟨a, L, μ, rfl, rfl, holds⟩⟩

/-- What the heap promises about the owned allocations may be used anywhere. -/
theorem does_foot {p : Code α} (rest : Footprint n L → Does n L μ p post) : Does n L μ p post :=
  ⟨⟨fun frame m apart tokens => (rest (footprint_of_tokens tokens)).ready.safe frame m apart tokens⟩⟩

/-- A program may be replaced by one with the same burst, which may depend on the memory. -/
theorem does_skip {p : Code α}
    (same : ∀ frame m, HeapTokens byteNotes n (owned L μ ∪ frame) m → ∃ q, burst m p = burst m q ∧ Does n L μ q post) :
    Does n L μ p post := by
  refine ⟨⟨fun frame m apart tokens => ?_⟩⟩
  obtain ⟨q, equal, does⟩ := same frame m tokens
  have sure_same : burst m (sure p) = burst m (sure q) := by
    simp only [sure, burst_assume, burst_attempt, equal]
  have safe := (safe_burst (sure q) frame m).mp (does.ready.safe frame m apart tokens)
  rw [← sure_same] at safe
  exact (safe_burst (sure p) frame m).mpr safe

theorem does_read {a : Alloc} {o k : Nat} {next : Nat → Code α} (mem : a ∈ L) (left : a.ptr ≤ o)
    (right : o + k ≤ a.ptr + a.size) (rest : Does n L μ (next (load μ o k)) post) :
    Does n L μ (read o k next) post := by
  refine ⟨ready_read fun frame m apart tokens => ?_⟩
  have same : load m o k = load μ o k := load_congr ((owned_bytes tokens mem).narrow left right)
  rw [same]
  exact rest.ready

theorem does_write {a : Alloc} {o k v : Nat} {next : Code α} (mem : a ∈ L) (left : a.ptr ≤ o)
    (right : o + k ≤ a.ptr + a.size) (rest : Does n L (store μ o k v) next post) :
    Does n L μ (write o k v next) post :=
  ⟨ready_store (fun _ _ apart tokens => owned_store apart tokens mem left right) rest.ready⟩

theorem does_call {c : Sys} {next : Int → Code α} (all : ∀ r, Does n L μ (next r) post) :
    Does n L μ (call c next) post := ⟨ready_call fun _ => (all _).ready⟩

theorem does_lock {mutex : Nat} {next : Int → Code α} (rest : Does n L μ (next 0) post) :
    Does n L μ (call (.mutexLock mutex) next) post := ⟨ready_call fun _ => rest.ready⟩

theorem does_bind {p : Code β} {f : β → Code α} {mid : β → Set Alloc → Mem → Prop}
    (first : Does n L μ p mid) (second : ∀ b L' μ', mid b L' μ' → Does n L' μ' (f b) post) :
    Does n L μ (p >>= f) post := by
  constructor
  have parts : sure (p >>= f) = sure p >>= fun r => assume lockGranted (onward (fun b => attempt (f b)) r) := by
    rw [sure, attempt_bind, assume_bind]
    rfl
  rw [parts]
  refine ready_bind first.ready ?_
  rintro r own ⟨b, L', μ', rfl, rfl, holds⟩
  exact (second b L' μ' holds).ready

theorem does_weaken {post' : α → Set Alloc → Mem → Prop} {p : Code α} (does : Does n L μ p post)
    (weaker : ∀ a L' μ', post a L' μ' → post' a L' μ') : Does n L μ p post' := by
  have bound := does_bind (f := ret) does fun a L' μ' holds => does_ret (weaker a L' μ' holds)
  rwa [bind_ret] at bound

theorem does_alloc (map : region.Mapped) (total : region.size = n) (large : 2728 ≤ n) {fuel size alignment : Nat}
    (enough : n ≤ fuel) (sized : size < 2 ^ 62 ∨ size + alignment + 96 ≤ 2 ^ 64) (word : alignment < 2 ^ 64) :
    Does n L μ (allocatorAlloc fuel region size alignment) (allocated region size alignment L μ) := by
  constructor
  have fresh : ∀ (a : Alloc) m, byteNotes.holds a none m := fun a m ν eq => absurd eq (by simp)
  have ready := @ready_alloc_attempt _ byteNotes n region map total large none fresh fuel size alignment sized word
  have framed := ready_frame ready (Set.empty_disjoint (owned L μ))
  rw [Set.empty_union] at framed
  have bound : Ready (HeapTokens byteNotes n) (fun r own => ∃ a L' μ', r = some a ∧ own = owned L' μ' ∧
      allocated region size alignment L μ a L' μ') (owned L μ)
      (attempt (allocatorAlloc fuel region size alignment) >>= ret) := by
    refine ready_bind framed ?_
    rintro r held ⟨own, holds, apart, rfl⟩
    cases r with
    | none => exact absurd holds.2 (by omega)
    | some result =>
      cases result with
      | error status =>
        rw [show own = ∅ from holds, Set.empty_union]
        exact ready_ret ⟨_, L, μ, rfl, rfl, rfl, rfl⟩
      | ok ptr =>
        obtain ⟨a, new, address, sizeEq, alignEq⟩ := holds
        subst new
        refine ready_exchange fun frame m out tokens => ?_
        obtain ⟨fresh, out', tokens'⟩ := owned_join out tokens
        have bytes : ∀ b ∈ L, SameOn μ m b.ptr (b.ptr + b.size) := by
          intro b mem
          have tokens : HeapTokens byteNotes n (owned L μ ∪ ({(a, none)} ∪ frame)) m := by
            rw [← Set.union_assoc, Set.union_comm (owned L μ)]
            exact tokens
          exact owned_bytes tokens mem
        exact ⟨_, out', tokens', ready_ret ⟨_, insert a L, m, rfl, rfl, a, fresh, rfl, bytes, address,
          sizeEq, alignEq⟩⟩
  rw [bind_ret] at bound
  exact ready_assume bound

theorem does_free (map : region.Mapped) (total : region.size = n) {a : Alloc} (mem : a ∈ L)
    (plain : a.align = 16) :
    Does n L μ (allocatorFree region (add64 region.base a.ptr))
      (fun status L' μ' => status = .ok ∧ L' = L \ {a} ∧ μ' = μ) := by
  refine does_foot fun foot => ⟨?_⟩
  have near := foot.near a mem
  rw [plain] at near
  have whole : owned L μ = {(a, some μ)} ∪ owned (L \ {a}) μ := by
    rw [← owned_insert, Set.insert_sdiff_singleton, Set.insert_eq_of_mem mem]
  have apart : Disjoint {((a, some μ) : ByteToken)} (owned (L \ {a}) μ) := by
    rw [Set.disjoint_left]
    rintro t rfl other
    exact other.1.2 rfl
  have ready := @ready_free_granted _ byteNotes n region map total a (some μ) (by omega)
  rw [whole]
  refine ready_weaken (ready_frame ready apart) ?_
  rintro r held ⟨own, ⟨rfl, rfl⟩, _, rfl⟩
  rw [Set.empty_union]
  exact ⟨.ok, L \ {a}, μ, rfl, rfl, rfl, rfl, rfl⟩

theorem does_readBytes {a : Alloc} {o k : Nat} (mem : a ∈ L) (left : a.ptr ≤ o)
    (right : o + k ≤ a.ptr + a.size) :
    Does n L μ (readBytes o k) (fun bs L' μ' => bs = loadBytes μ o k ∧ L' = L ∧ μ' = μ) := by
  induction k generalizing o with
  | zero => exact does_ret ⟨rfl, rfl, rfl⟩
  | succ k ih =>
    refine does_read mem left (by omega) (does_bind (ih (by omega) (by omega)) ?_)
    rintro bs L' μ' ⟨rfl, rfl, rfl⟩
    refine does_ret ⟨?_, rfl, rfl⟩
    simp [loadBytes, load]

theorem does_writeBytes {a : Alloc} {o : Nat} {bs : List UInt8} (mem : a ∈ L) (left : a.ptr ≤ o)
    (right : o + bs.length ≤ a.ptr + a.size) :
    Does n L μ (writeBytes o bs) (fun _ L' μ' => L' = L ∧ μ' = storeBytes μ o bs) := by
  induction bs generalizing o μ with
  | nil => exact does_ret ⟨rfl, rfl⟩
  | cons b bs ih =>
    rw [List.length_cons] at right
    exact does_write mem left (by omega) (ih (by omega) (by omega))

section Access
variable {a : Alloc} {off field : Nat} (map : region.Mapped) (total : region.size = n) (mem : a ∈ L)
  (left : a.ptr ≤ off + field)
include map total mem left

theorem does_load32 {f : Nat → Code α} {v : Nat} (right : off + field + 4 ≤ a.ptr + a.size)
    (value : load μ (off + field) 4 = v) (rest : Does n L μ (f v) post) :
    Does n L μ (region.load32 (add64 region.base off) field >>= f) post := by
  refine does_foot fun foot => ?_
  have bounds := foot.bounds a mem
  have user := map.user
  rw [load32_field (by omega), loadWord_bind]
  exact does_read mem left right (value ▸ rest)

theorem does_load64 {f : Nat → Code α} {v : Nat} (right : off + field + 8 ≤ a.ptr + a.size)
    (value : load μ (off + field) 8 = v) (rest : Does n L μ (f v) post) :
    Does n L μ (region.load64 (add64 region.base off) field >>= f) post := by
  refine does_foot fun foot => ?_
  have bounds := foot.bounds a mem
  have user := map.user
  rw [load64_field (by omega), loadWord_bind]
  exact does_read mem left right (value ▸ rest)

theorem does_store32 {f : Unit → Code α} {v : Nat} (right : off + field + 4 ≤ a.ptr + a.size)
    (rest : Does n L (store μ (off + field) 4 v) (f ()) post) :
    Does n L μ (region.store32 (add64 region.base off) field v >>= f) post := by
  refine does_foot fun foot => ?_
  have bounds := foot.bounds a mem
  have user := map.user
  rw [store32_field (by omega), storeWord_bind]
  exact does_write mem left right rest

theorem does_store64 {f : Unit → Code α} {v : Nat} (right : off + field + 8 ≤ a.ptr + a.size)
    (rest : Does n L (store μ (off + field) 8 v) (f ()) post) :
    Does n L μ (region.store64 (add64 region.base off) field v >>= f) post := by
  refine does_foot fun foot => ?_
  have bounds := foot.bounds a mem
  have user := map.user
  rw [store64_field (by omega), storeWord_bind]
  exact does_write mem left right rest

theorem does_store8 {f : Unit → Code α} {v : Nat} (right : off + field + 1 ≤ a.ptr + a.size)
    (rest : Does n L (store μ (off + field) 1 v) (f ()) post) :
    Does n L μ (region.store8 (add64 region.base off) field v >>= f) post := by
  refine does_foot fun foot => ?_
  have bounds := foot.bounds a mem
  have user := map.user
  rw [store8_field (by omega), storeWord_bind]
  exact does_write mem left right rest

theorem does_store64_last {v : Nat} (right : off + field + 8 ≤ a.ptr + a.size) :
    Does n L μ (region.store64 (add64 region.base off) field v)
      (fun _ L' μ' => L' = L ∧ μ' = store μ (off + field) 8 v) := by
  rw [← bind_ret (region.store64 (add64 region.base off) field v)]
  exact does_store64 map total mem left right (does_ret ⟨rfl, rfl⟩)

theorem does_copyOut {f : List UInt8 → Code α} {k : Nat} (right : off + field + k ≤ a.ptr + a.size)
    (rest : Does n L μ (f (loadBytes μ (off + field) k)) post) :
    Does n L μ (region.copyOut (add64 region.base off) field k >>= f) post := by
  refine does_foot fun foot => ?_
  have bounds := foot.bounds a mem
  have user := map.user
  rw [copyOut_field (by omega)]
  refine does_bind (does_readBytes mem left right) ?_
  rintro bs L' μ' ⟨rfl, rfl, rfl⟩
  exact rest

theorem does_copyIn {bs : List UInt8} (right : off + field + bs.length ≤ a.ptr + a.size) :
    Does n L μ (region.copyIn (add64 region.base off) field bs)
      (fun _ L' μ' => L' = L ∧ μ' = storeBytes μ (off + field) bs) := by
  refine does_foot fun foot => ?_
  have bounds := foot.bounds a mem
  have user := map.user
  rw [copyIn_field (by omega)]
  exact does_writeBytes mem left right

end Access

/-- An uninterrupted run ends, with the tokens of the others untouched. -/
theorem does_exec {p : Code α} (does : Does n L μ p post) {frame : Set ByteToken} {m : Mem}
    (apart : Disjoint (owned L μ) frame) (tokens : HeapTokens byteNotes n (owned L μ ∪ frame) m) :
    ∃ a m' L' μ', p.exec m = some (a, m') ∧ Disjoint (owned L' μ') frame ∧
      HeapTokens byteNotes n (owned L' μ' ∪ frame) m' ∧ post a L' μ' := by
  obtain ⟨r, m', run⟩ := exec_attempt_ends p m
  have ran : (sure p).exec m = some (r, m') := by rw [sure, exec_assume, run]
  obtain ⟨own, apart', tokens', a, L', μ', rfl, rfl, holds⟩ :=
    safe_exec (does.ready.safe frame m apart tokens) ran
  exact ⟨a, m', L', μ', exec_attempt run, apart', tokens', holds⟩

end Does

end OffsetStore
