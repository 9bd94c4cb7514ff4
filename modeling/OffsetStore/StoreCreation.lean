import OffsetStore.StoreLife
import OffsetStore.Lib.Interleaving

/- Creating a store, store by store. Until the owner of the last block is written the region
   is a draft: the words an attaching process decides on have a few values only, and those it
   relies on stay. From then on the creating process changes no byte. -/
namespace OffsetStore
open ByteMemory Program Prog Words

/-- The words of a store that decide whether an attach succeeds. -/
inductive Cell where
  | total
  | place
  | extent
  | head
  | size (s : Fin 4)
  | owner
  | ahead
  deriving DecidableEq

def Cell.offset (n : Nat) : Cell → Nat
  | total => RegionHeader.totalSize
  | place => allocatorMetadataOffset + AllocatorHeader.heapOffset
  | extent => allocatorMetadataOffset + AllocatorHeader.heapSize
  | head => headCell 3
  | size s => shardStart heapBase n s
  | owner => shardStart heapBase n 3 + BlockHeader.shard
  | ahead => shardStart heapBase n 3 + BlockHeader.payloadOffset

def Cell.width : Cell → Nat
  | owner => 4
  | ahead => 4
  | _ => 8

theorem Cell.offset_eq (n : Nat) (c : Cell) : c.offset n = match c with
    | total => 24
    | place => 2512
    | extent => 2520
    | head => 2712
    | size s => shardStart heapBase n s
    | owner => shardStart heapBase n 3 + 20
    | ahead => shardStart heapBase n 3 + 24 := by
  cases c <;> rfl

def shown (n : Nat) (m : Mem) (c : Cell) : Nat := load m (c.offset n) c.width

/-- What a store of n bytes shows before the owner of its last block is written. -/
structure Draft (n : Nat) (f : Cell → Nat) : Prop where
  total : f .total = 0 ∨ f .total = n
  place : f .place = 0 ∨ f .place = heapBase
  extent : f .extent ≠ 0 → f .extent = n - heapBase ∧ f .place = heapBase ∧ heapBase + 224 ≤ n
  sizes : ∀ s, f (.size s) = 0 ∨ f (.size s) = shardSize heapBase n
  head : f (.size 3) ≠ 0 → f .head = shardStart heapBase n 3
  owner : f .owner = 0
  ahead : f .ahead = 0

/-- The store moves on, and what an attaching process relies on once it has seen it stays. -/
structure Grows (n : Nat) (f g : Cell → Nat) : Prop where
  draft : Draft n g
  extent : f .extent ≠ 0 → g .extent ≠ 0
  size : f (.size 3) ≠ 0 → g (.size 3) ≠ 0

section Draft
variable {n : Nat} {f g h : Cell → Nat}

theorem Grows.trans (first : Grows n f g) (second : Grows n g h) : Grows n f h :=
  ⟨second.draft, fun seen => second.extent (first.extent seen), fun seen => second.size (first.size seen)⟩

theorem Draft.still (draft : Draft n f) : Grows n f f := ⟨draft, id, id⟩

theorem Draft.placed (draft : Draft n f) (room : heapBase + 224 ≤ n) :
    Grows n f (Function.update f .place heapBase) := by
  refine ⟨⟨draft.total, Or.inr (by simp), ?_, draft.sizes, draft.head, draft.owner, draft.ahead⟩, id, id⟩
  exact fun seen => ⟨(draft.extent seen).1, by simp, room⟩

theorem Draft.extended (draft : Draft n f) (place : f .place = heapBase) (room : heapBase + 224 ≤ n) :
    Grows n f (Function.update f .extent (n - heapBase)) := by
  refine ⟨⟨draft.total, draft.place, ?_, draft.sizes, draft.head, draft.owner, draft.ahead⟩, ?_, id⟩
  · exact fun _ => ⟨by simp, place, room⟩
  · intro _
    simp only [Function.update_self]
    omega

theorem Draft.headed (draft : Draft n f) : Grows n f (Function.update f .head (shardStart heapBase n 3)) :=
  ⟨⟨draft.total, draft.place, draft.extent, draft.sizes, fun _ => by simp, draft.owner, draft.ahead⟩, id, id⟩

/-- The size of the last block follows the head of its list. -/
theorem Draft.sized (draft : Draft n f) (s : Fin 4) (positive : shardSize heapBase n ≠ 0)
    (head : s = 3 → f .head = shardStart heapBase n 3) :
    Grows n f (Function.update f (.size s) (shardSize heapBase n)) := by
  refine ⟨⟨draft.total, draft.place, draft.extent, ?_, ?_, draft.owner, draft.ahead⟩, id, ?_⟩
  · intro t
    by_cases same : t = s
    · rw [same]
      exact Or.inr (by simp)
    · rw [Function.update_of_ne (by simpa using same)]
      exact draft.sizes t
  · intro seen
    by_cases last : s = 3
    · exact head last
    · rw [Function.update_of_ne (by simpa using Ne.symm last)] at seen
      exact draft.head seen
  · intro seen
    by_cases last : s = 3
    · rw [last, Function.update_self]
      exact positive
    · rwa [Function.update_of_ne (by simpa using Ne.symm last)]

end Draft

/- Stores and what they show. -/
section Shown
variable {n o k v : Nat} {m : Mem}

/-- A store of k bytes at o touches none of the words. -/
def Aside (n o k : Nat) : Prop := ∀ c : Cell, c.offset n + c.width ≤ o ∨ o + k ≤ c.offset n

theorem shown_aside (aside : Aside n o k) : shown n (store m o k v) = shown n m :=
  funext fun c => load_store_apart (aside c)

theorem shard_room (room : heapBase + 224 ≤ n) : 56 ≤ shardSize heapBase n := by
  unfold shardSize
  omega

theorem shards_apart (room : heapBase + 224 ≤ n) {s t : Nat} (other : s ≠ t) :
    shardStart heapBase n s + 56 ≤ shardStart heapBase n t ∨ shardStart heapBase n t + 56 ≤ shardStart heapBase n s := by
  have size := shard_room room
  rcases Nat.lt_or_gt_of_ne other with less | more
  · have order := @shardStart_mono heapBase n s t less
    omega
  · have order := @shardStart_mono heapBase n t s more
    omega

/-- A store into the allocator header, apart from place and size of the heap and the last list head. -/
theorem aside_header (low : 2496 ≤ o) (high : o + k ≤ 2728) (fields : o + k ≤ 2512 ∨ 2528 ≤ o)
    (head : o + k ≤ 2712 ∨ 2720 ≤ o) : Aside n o k := by
  have start := fun s => shardStart_ge n s
  intro c
  cases c with
  | size s =>
    have := start s
    simp only [Cell.offset_eq, Cell.width]
    omega
  | _ =>
    have := start 3
    simp only [Cell.offset_eq, Cell.width]
    omega

/-- A store into the header of a block, behind its size. -/
theorem aside_block (room : heapBase + 224 ≤ n) {s : Nat} (low : shardStart heapBase n s + 8 ≤ o)
    (high : o + k ≤ shardStart heapBase n s + 28) (early : s ≠ 3 ∨ o + k ≤ shardStart heapBase n 3 + 20) :
    Aside n o k := by
  have start := shardStart_ge n s
  have apart : ∀ t, t ≠ s → shardStart heapBase n t + 56 ≤ shardStart heapBase n s ∨
      shardStart heapBase n s + 56 ≤ shardStart heapBase n t := fun t other => shards_apart room other
  have last : shardStart heapBase n 3 + 28 ≤ o ∨ o + k ≤ shardStart heapBase n 3 + 20 := by
    by_cases same : s = 3
    · omega
    · have := apart 3 (Ne.symm same)
      omega
  intro c
  cases c with
  | size t =>
    simp only [Cell.offset_eq, Cell.width]
    by_cases same : (t : Nat) = s
    · rw [same]
      omega
    · have := apart t same
      omega
  | _ =>
    simp only [Cell.offset_eq, Cell.width]
    omega

theorem cells_apart (room : heapBase + 224 ≤ n) {c d : Cell} (other : d ≠ c) :
    d.offset n + d.width ≤ c.offset n ∨ c.offset n + c.width ≤ d.offset n := by
  have start := shardStart_ge n 3
  have block : ∀ s : Fin 4, 2736 ≤ shardStart heapBase n s ∧
      (shardStart heapBase n s + 8 ≤ shardStart heapBase n 3 + 20 ∨ shardStart heapBase n 3 + 28 ≤ shardStart heapBase n s) := by
    intro s
    refine ⟨shardStart_ge n s, ?_⟩
    by_cases last : (s : Nat) = 3
    · rw [last]
      omega
    · have := shards_apart room last
      omega
  cases d with
  | size s =>
    cases c with
    | size t =>
      have different : (s : Nat) ≠ t := fun same => other (congrArg Cell.size (Fin.ext same))
      have := shards_apart room different
      simp only [Cell.offset_eq, Cell.width]
      omega
    | _ =>
      have := block s
      simp only [Cell.offset_eq, Cell.width]
      omega
  | _ =>
    cases c with
    | size t =>
      have := block t
      simp only [Cell.offset_eq, Cell.width]
      omega
    | _ =>
      simp only [Cell.offset_eq, Cell.width]
      first | omega | exact absurd rfl other

/-- A store to one of the words shows in this word. -/
theorem shown_cell (room : heapBase + 224 ≤ n) (c : Cell) (fits : v < 256 ^ c.width) :
    shown n (store m (c.offset n) c.width v) = Function.update (shown n m) c v := by
  funext d
  by_cases same : d = c
  · rw [same, Function.update_self]
    exact load_store_same fits
  · rw [Function.update_of_ne same]
    exact load_store_apart (cells_apart room same)

end Shown

/-- The calls that are left when the store is finished: releasing the allocator mutex, and what
    follows when that fails. -/
def Withdraws (c : Sys) : Prop :=
  c = .mutexUnlock RegionHeader.allocatorMutex ∨ c = .munmap ∨ c = .close ∨ c = .shmUnlink ∨ c = .errno

/-- The initialisations of the three locks of the region header, and of all locks of a store. -/
def regionInits : List Sys :=
  [.mutexInit RegionHeader.allocatorMutex, .rwlockInit RegionHeader.rootsRwlock, .rwlockInit RegionHeader.indexRwlock]

def lockInits : List Sys := regionInits ++ (List.range shardCount).map fun s => .mutexInit (shardMutex s)

/-- The calls were made, and succeeded. -/
def Done (calls : List Sys) (heard : Heard Sys) : Prop := ∀ c ∈ calls, (c, 0) ∈ heard

theorem Done.more {calls : List Sys} {heard heard' : Heard Sys} (done : Done calls heard) (more : heard ⊆ heard') :
    Done calls heard' := fun c mem => more (done c mem)

/- The creating process. -/
section Creator
variable {n : Nat} {m : Mem} {heard : Heard Sys} {region : ShmRegion} {R : Mem → Mem → Prop} {answers : Sys → Int → Prop}

theorem store_zero {o k : Nat} (zero : load m o k = 0) : store m o k 0 = m := by
  have value : load (store m o k 0) o k = load m o k := by
    rw [load_store_mod, Nat.zero_mod, zero]
  have inside := sameOn_of_load value
  funext a
  by_cases range : o ≤ a ∧ a < o + k
  · exact inside a range.1 range.2
  · exact store_outside (by omega)

/-- Nothing above the region header is written yet. -/
structure Blank (n : Nat) (m : Mem) : Prop where
  total : load m 24 8 = 0 ∨ load m 24 8 = n
  zero : ∀ a, 2496 ≤ a → m a = 0

theorem Blank.draft (blank : Blank n m) : Draft n (shown n m) := by
  have zero : ∀ a k, 2496 ≤ a → load m a k = 0 := fun a k high => load_zero fun x low _ => blank.zero x (by omega)
  have start := fun s => shardStart_ge n s
  have none : ∀ c : Cell, c ≠ .total → shown n m c = 0 := by
    intro c other
    apply zero
    cases c with
    | total => exact absurd rfl other
    | size s => exact Nat.le_trans (by omega) (start s)
    | _ =>
      have := start 3
      simp only [Cell.offset_eq]
      omega
  refine ⟨blank.total, Or.inl (none _ (by simp)), ?_, fun s => Or.inl (none _ (by simp)), ?_, none _ (by simp),
    none _ (by simp)⟩
  · exact fun seen => absurd (none _ (by simp)) seen
  · exact fun seen => absurd (none _ (by simp)) seen

/-- How the store looks to others moves on. -/
abbrev Advance (n : Nat) (m m' : Mem) : Prop := Grows n (shown n m) (shown n m')

theorem Blank.aside {o k v : Nat} (blank : Blank n m) (below : o + k ≤ 2496) (apart : o + k ≤ 24 ∨ 32 ≤ o) :
    Blank n (store m o k v) := by
  refine ⟨?_, fun a high => ?_⟩
  · rw [load_store_apart (by omega)]
    exact blank.total
  · rw [store_outside (by omega)]
    exact blank.zero a high

theorem Blank.measured (blank : Blank n m) (word : n < 2 ^ 64) : Blank n (store m 24 8 n) := by
  refine ⟨Or.inr (load_store_eight word), fun a high => ?_⟩
  rw [store_outside (by omega)]
  exact blank.zero a high

theorem Blank.advance {m' : Mem} (blank : Blank n m) (later : Blank n m') : Advance n m m' := by
  have start := shardStart_ge n 3
  refine ⟨later.draft, fun seen => absurd ?_ seen, fun seen => absurd ?_ seen⟩
  · exact load_zero fun x low _ => blank.zero x (Nat.le_trans (show 2496 ≤ 2520 by omega) low)
  · exact load_zero fun x low _ => blank.zero x (Nat.le_trans (Nat.le_trans (by omega) start) low)

theorem until_zeroes {k o : Nat} (still : R (fun _ => 0) (fun _ => 0)) :
    Until answers R (Returned fun _ heard' m' => m' = (fun _ => 0) ∧ heard' = heard)
      (writeBytes o (List.replicate k 0)) heard (fun _ => 0) := by
  induction k generalizing o with
  | zero => exact until_ret ⟨rfl, rfl⟩
  | succ k ih =>
    have zero : store (fun _ => 0) o 1 (0 : UInt8).toNat = fun _ => 0 := by
      funext a
      exact keepsZeros_store _ _ _ a rfl
    refine .write ?_ ?_
    · rwa [zero]
    · rw [zero]
      exact ih

/-- The lock is initialised, or the status says that it is not; the memory is as it was. -/
abbrev Locked (lock : Sys) (heard : Heard Sys) (m : Mem) : Code OffsetStoreStatus → Heard Sys → Mem → Prop :=
  Returned fun status heard' m' => m' = m ∧ heard ⊆ heard' ∧ (status = .ok → (lock, 0) ∈ heard')

theorem until_lockFailed {lock : Sys} {heard₁ : Heard Sys} (more : heard ⊆ heard₁) :
    Until answers R (Locked lock heard m) (ret OffsetStoreStatus.systemError) heard₁ m :=
  until_ret ⟨rfl, more, fun ok => by cases ok⟩

theorem until_lockInit {lock destroy : Sys} {heard₁ : Heard Sys} (more : heard ⊆ heard₁) :
    Until answers R (Locked lock heard m)
      (call lock fun init => call destroy fun _ => if init ≠ 0 then ret .systemError else ret .ok) heard₁ m := by
  refine .call fun init _ => .call fun _ _ => ?_
  split
  · exact until_lockFailed (by simp [more])
  · rename_i ok
    refine until_ret ⟨rfl, by simp [more], fun _ => ?_⟩
    simp [not_not.mp ok]

theorem until_initOneMutex (mutex : Nat) :
    Until answers R (Locked (.mutexInit mutex) heard m) (shmRegionInitOneMutex mutex) heard m := by
  unfold shmRegionInitOneMutex
  simp only [request_bind, perform_bind]
  refine .call fun attr _ => ?_
  split
  · exact until_lockFailed (by simp)
  refine .call fun pshared _ => ?_
  split
  · exact .call fun _ _ => until_lockFailed (by simp)
  refine .call fun robust _ => ?_
  split
  · exact .call fun _ _ => until_lockFailed (by simp)
  · exact until_lockInit (by simp)

theorem until_initOneRwlock (rwlock : Nat) :
    Until answers R (Locked (.rwlockInit rwlock) heard m) (shmRegionInitOneRwlock rwlock) heard m := by
  unfold shmRegionInitOneRwlock
  simp only [request_bind, perform_bind]
  refine .call fun attr _ => ?_
  split
  · exact until_lockFailed (by simp)
  refine .call fun pshared _ => ?_
  split
  · exact .call fun _ _ => until_lockFailed (by simp)
  · exact until_lockInit (by simp)

theorem until_initMutexes : Until answers R
    (Returned fun status heard' m' => m' = m ∧ (status = .ok → Done regionInits heard')) shmRegionInitMutexes heard m := by
  unfold shmRegionInitMutexes
  refine until_bind (until_initOneMutex _) ?_
  rintro status heard₁ _ ⟨rfl, _, mutex⟩
  split
  · rename_i bad
    exact until_ret ⟨rfl, fun ok => absurd ok bad⟩
  rename_i first
  refine until_bind (until_initOneRwlock _) ?_
  rintro status heard₂ _ ⟨rfl, more₂, roots⟩
  split
  · rename_i bad
    exact until_ret ⟨rfl, fun ok => absurd ok bad⟩
  rename_i second
  refine until_weaken (until_initOneRwlock _) ?_
  rintro _ heard₃ _ ⟨status, rfl, rfl, more₃, index⟩
  refine ⟨status, rfl, rfl, fun ok c mem => ?_⟩
  simp only [regionInits, List.mem_cons, List.not_mem_nil, or_false] at mem
  rcases mem with rfl | rfl | rfl
  · exact more₃ (more₂ (mutex (not_not.mp first)))
  · exact more₃ (roots (not_not.mp second))
  · exact index ok

theorem until_tables (table : EntryTable) (low : 192 ≤ table.offset) (high : table.offset + 48 * table.capacity ≤ 2496)
    (blank : Blank n m) : Until answers (Advance n) (Returned fun _ heard' m' => Blank n m' ∧ heard ⊆ heard')
      (initTable table region region.base table.capacity) heard m := by
  refine until_confined (confined_initTable table low high (by omega) (Nat.le_refl _)) ?_ blank
  intro m' o k v blank low high
  have later : Blank n (store m' o k v) := blank.aside high (Or.inr (by omega))
  exact ⟨later, blank.advance later⟩

theorem until_writeRegionHeader (total : region.size = n) (word : n < 2 ^ 64) :
    Until answers (Advance n) (Returned fun _ _ m' => Blank n m') (writeRegionHeader region region.base)
      heard (fun _ => 0) := by
  have blank : Blank n (fun _ => 0) := ⟨Or.inl (load_zero fun _ _ _ => rfl), fun _ _ => rfl⟩
  unfold writeRegionHeader shmRegionInitRoots shmRegionInitIndex
  simp (disch := omega) only [RegionHeader.magic, RegionHeader.version, RegionHeader.stateFlags,
    RegionHeader.generation, RegionHeader.totalSize, copyIn_base, store64_base, store32_base, total]
  refine until_bind (until_zeroes (blank.advance blank)) ?_
  rintro _ _ _ ⟨rfl, rfl⟩
  simp only [storeWord_bind]
  generalize (fun _ => 0 : Mem) = m at blank
  have magic : Blank n (store m 0 8 regionMagic) := blank.aside (by omega) (by omega)
  refine .write (blank.advance magic) ?_
  generalize store m 0 8 regionMagic = m₁ at magic
  have version : Blank n (store m₁ 8 4 regionVersion) := magic.aside (by omega) (by omega)
  refine .write (magic.advance version) ?_
  generalize store m₁ 8 4 regionVersion = m₂ at version
  have flags : Blank n (store m₂ 12 4 stateInitializing) := version.aside (by omega) (by omega)
  refine .write (version.advance flags) ?_
  generalize store m₂ 12 4 stateInitializing = m₃ at flags
  have generation : Blank n (store m₃ 16 8 1) := flags.aside (by omega) (by omega)
  refine .write (flags.advance generation) ?_
  generalize store m₃ 16 8 1 = m₄ at generation
  have size : Blank n (store m₄ 24 8 n) := generation.measured word
  refine .write (generation.advance size) ?_
  refine until_bind (until_tables rootTable (by simp) (by simp) size) ?_
  rintro _ _ m₅ ⟨roots, _⟩
  refine until_weaken (until_tables indexTable (by simp) (by simp) roots) ?_
  rintro _ _ _ ⟨_, rfl, index, _⟩
  exact ⟨_, rfl, index⟩

/-- Creating the region moves on within its header. -/
theorem until_create (n : Nat) : Until mapAnswers (Advance n) (Returned fun r heard m => r.1 = .ok →
      (r.2.Mapped ∧ r.2.size = n) ∧ Blank n m ∧ Done regionInits heard) (shmRegionCreate n) [] (fun _ => 0) := by
  have failed : ∀ {status : OffsetStoreStatus} {region : ShmRegion} {heard : Heard Sys} {m : Mem}, status ≠ .ok →
      Until mapAnswers (Advance n) (Returned fun r heard m => r.1 = .ok →
        (r.2.Mapped ∧ r.2.size = n) ∧ Blank n m ∧ Done regionInits heard) (ret (status, region)) heard m :=
    fun bad => until_ret fun ok => absurd ok bad
  unfold shmRegionCreate shmRegionMapFd
  split
  · exact failed (by simp)
  simp only [request_bind, perform_bind]
  refine .call fun fd _ => ?_
  split
  · refine .call fun errno _ => ?_
    split <;> exact failed (by simp)
  refine .call fun truncated _ => ?_
  split
  · exact .call fun _ _ => .call fun _ _ => failed (by simp)
  simp only [call_bind]
  refine .call fun mapping answer => ?_
  by_cases unmapped : mapping = -1
  · simp only [unmapped, if_true, pure_eq, ret_bind, Bool.not_false]
    exact .call fun _ _ => .call fun _ _ => failed (by simp)
  simp only [unmapped, if_false, pure_eq, ret_bind, Bool.not_true, Bool.false_eq_true]
  have map : ShmRegion.Mapped ⟨fd, mapping.toNat, n, true⟩ := mapping_mapped answer unmapped
  have user := map.user
  simp only at user
  generalize same : (⟨fd, mapping.toNat, n, true⟩ : ShmRegion) = region at map
  have total : region.size = n := by rw [← same]
  have base : mapping.toNat = region.base := by rw [← same]
  rw [base]
  refine until_bind (until_writeRegionHeader total (by omega)) ?_
  intro _ _ _ built
  refine until_bind until_initMutexes ?_
  rintro status heard₁ m₁ ⟨rfl, inits⟩
  split
  · rename_i bad
    refine until_bind (until_silent (silent_close region) built.draft.still) ?_
    rintro closed _ _ ⟨rfl, _⟩
    exact .call fun _ _ => failed bad
  · rename_i ok
    unfold shmRegionRefreshHeaderChecksum
    simp (disch := omega) only [RegionHeader.stateFlags, RegionHeader.headerChecksum, store32_base, store64_base]
    simp only [storeWord_bind, bind_assoc]
    have ready : Blank n (store m₁ 12 4 stateReady) := built.aside (by omega) (by omega)
    refine .write (built.advance ready) (until_bind_of_ret (burst_checksum region _) ?_)
    have sealed : Blank n (store (store m₁ 12 4 stateReady) 32 8 (headerChecksum (store m₁ 12 4 stateReady))) :=
      ready.aside (by omega) (by omega)
    exact .write (ready.advance sealed) (until_ret fun _ => ⟨⟨map, total⟩, sealed, inits (not_not.mp ok)⟩)

/-- The fields of the allocator header. -/
theorem until_initFields (map : region.Mapped) (total : region.size = n) (room : heapBase + 224 ≤ n)
    (draft : Draft n (shown n m)) : Until answers (Advance n)
      (Returned fun _ heard' m' => heard' = heard ∧ Draft n (shown n m'))
      (writeAllocatorHeader region (headerAddress region) heapBase (n - heapBase)) heard m := by
  have user := map.user
  unfold writeAllocatorHeader headerAddress allocatorMetadataOffset
  simp (disch := omega) only [RegionHeader.sizeof, AllocatorHeader.magic, AllocatorHeader.version,
    AllocatorHeader.shardCount, AllocatorHeader.heapOffset, AllocatorHeader.heapSize,
    AllocatorHeader.allocationFailures, store64_field, store32_field]
  simp only [storeWord_bind, Nat.reduceAdd]
  have aside : ∀ {o k v : Nat} {m : Mem}, Draft n (shown n m) → 2496 ≤ o → o + k ≤ 2728 →
      (o + k ≤ 2512 ∨ 2528 ≤ o) → (o + k ≤ 2712 ∨ 2720 ≤ o) → Advance n m (store m o k v) := by
    intro o k v m draft low high fields head
    rw [Advance, shown_aside (aside_header low high fields head)]
    exact draft.still
  have magic := aside (v := allocatorMagic) (k := 8) draft (Nat.le_refl _) (by omega) (by omega) (by omega)
  refine .write magic ?_
  have version := aside (o := 2504) (v := allocatorVersion) (k := 4) magic.draft (by omega) (by omega) (by omega) (by omega)
  refine .write version ?_
  have shards := aside (o := 2508) (v := OffsetStore.shardCount) (k := 4) version.draft (by omega) (by omega) (by omega)
    (by omega)
  refine .write shards ?_
  generalize store (store (store m 2496 8 allocatorMagic) 2504 4 allocatorVersion) 2508 4
    OffsetStore.shardCount = m₁ at shards
  have place : shown n (store m₁ 2512 8 heapBase) = Function.update (shown n m₁) .place heapBase :=
    shown_cell room .place (by unfold heapBase; decide)
  have placed : Advance n m₁ (store m₁ 2512 8 heapBase) := by
    rw [Advance, place]
    exact shards.draft.placed room
  refine .write placed ?_
  have extent : shown n (store (store m₁ 2512 8 heapBase) 2520 8 (n - heapBase)) =
      Function.update (shown n (store m₁ 2512 8 heapBase)) .extent (n - heapBase) :=
    shown_cell room .extent (by simp only [Cell.width]; omega)
  have extended : Advance n (store m₁ 2512 8 heapBase) (store (store m₁ 2512 8 heapBase) 2520 8 (n - heapBase)) := by
    rw [Advance, extent]
    exact placed.draft.extended (by rw [place, Function.update_self]) room
  refine .write extended ?_
  have failures := aside (o := 2720) (v := 0) (k := 8) extended.draft (by omega) (by omega) (by omega) (by omega)
  exact .write failures (until_ret ⟨rfl, failures.draft⟩)

theorem until_initShardMutexes {left : Nat} (still : R m m) : Until answers R
    (Returned fun ok heard' m' => m' = m ∧ heard ⊆ heard' ∧
      (ok = true → ∀ s, 4 ≤ s + left → s < 4 → (.mutexInit (shardMutex s), 0) ∈ heard'))
    (initShardMutexes left) heard m := by
  induction left generalizing heard with
  | zero => exact until_ret ⟨rfl, List.Subset.refl _, fun _ s late small => by omega⟩
  | succ left ih =>
    have more : ∀ later : Heard Sys, heard ⊆ heard ++ later := fun later => List.subset_append_left _ _
    rw [initShardMutexes]
    simp only [request_bind]
    refine .call fun r _ => ?_
    split
    · refine until_bind (until_silent (silent_destroy _ _) still) ?_
      rintro _ heard₁ _ ⟨rfl, kept⟩
      exact until_ret ⟨rfl, List.Subset.trans (more _) kept, by simp⟩
    · rename_i ok
      refine until_weaken ih ?_
      rintro _ heard₁ _ ⟨done, rfl, rfl, kept, rest⟩
      refine ⟨done, rfl, rfl, List.Subset.trans (more _) kept, fun all s late small => ?_⟩
      by_cases last : s = 4 - (left + 1)
      · apply kept
        rw [last, not_not.mp ok]
        simp
      · exact rest all s (by omega) small

/-- The six stores of a shard. -/
theorem initShardBlocks_succ (map : region.Mapped) (total : region.size = n) (room : heapBase + 224 ≤ n) {s left : Nat}
    (shard : s + left = 3) :
    initShardBlocks region (headerAddress region) heapBase (n - heapBase) (left + 1) =
      .write (headCell s) 8 (shardStart heapBase n s) (.write (shardStart heapBase n s) 8 (shardSize heapBase n)
        (.write (shardStart heapBase n s + 8) 8 0 (.write (shardStart heapBase n s + 16) 4 1
          (.write (shardStart heapBase n s + 20) 4 s (.write (shardStart heapBase n s + 24) 4 0
            (initShardBlocks region (headerAddress region) heapBase (n - heapBase) left)))))) := by
  have user := map.user
  have few : s < 4 := by omega
  have here : 4 - (left + 1) = s := by omega
  have finish := heap_end_le room few
  have size := shard_room room
  have start := shardStart_ge n s
  have block : allocatorBlockFromOffset region (shardStart heapBase n s) =
      some (add64 region.base (shardStart heapBase n s)) :=
    resolve_eq_some map (by omega) (by omega) (by simp only [BlockHeader.sizeof]; omega)
  rw [initShardBlocks]
  simp only [OffsetStore.shardCount, here, shard_offset (show n < 2 ^ 64 by omega) (show heapBase < n by omega) few, block]
  have cell : 2496 + (192 + 8 * s) = headCell s := by
    rw [headCell_eq]
    omega
  simp (disch := omega) only [headerAddress, allocatorMetadataOffset, RegionHeader.sizeof,
    AllocatorHeader.shardFreeListHeads, BlockHeader.size, BlockHeader.nextFree, BlockHeader.flags,
    BlockHeader.shard, BlockHeader.payloadOffset, store64_field, store32_field]
  rw [cell]
  rfl

theorem Draft.advance_aside {o k v : Nat} (draft : Draft n (shown n m)) (aside : Aside n o k) :
    Advance n m (store m o k v) := by
  rw [Advance, shown_aside aside]
  exact draft.still

theorem Draft.advance_size (draft : Draft n (shown n m)) (room : heapBase + 224 ≤ n) (word : n < 2 ^ 64) {s : Nat}
    (shard : s < 4) (head : s = 3 → shown n m .head = shardStart heapBase n 3) :
    Advance n m (store m (shardStart heapBase n s) 8 (shardSize heapBase n)) := by
  have size := shard_room room
  have finish := heap_end_le room shard
  obtain ⟨t, rfl⟩ : ∃ t : Fin 4, (t : Nat) = s := ⟨⟨s, shard⟩, rfl⟩
  have value : shown n (store m (shardStart heapBase n t) 8 (shardSize heapBase n)) =
      Function.update (shown n m) (.size t) (shardSize heapBase n) :=
    shown_cell room (.size t) (by simp only [Cell.width]; omega)
  rw [Advance, value]
  exact draft.sized t (by omega) fun last => head (congrArg Fin.val last)

/-- Laying out the blocks, up to the owner of the last one. -/
theorem until_shardBlocks {goal : Code (OffsetStoreStatus × ShmRegion) → Heard Sys → Mem → Prop}
    {f : Bool → Code (OffsetStoreStatus × ShmRegion)} (map : region.Mapped) (total : region.size = n)
    (room : heapBase + 224 ≤ n) {s left : Nat} (shard : s + left = 3) (draft : Draft n (shown n m))
    (finish : ∀ m', Draft n (shown n m') → Until answers (Advance n) goal
      (.write (shardStart heapBase n 3 + 20) 4 3 (.write (shardStart heapBase n 3 + 24) 4 0 (f true))) heard m') :
    Until answers (Advance n) goal
      (initShardBlocks region (headerAddress region) heapBase (n - heapBase) (left + 1) >>= f) heard m := by
  have user := map.user
  have word : n < 2 ^ 64 := by omega
  induction left generalizing s m with
  | zero =>
    obtain rfl : s = 3 := by omega
    rw [initShardBlocks_succ map total room shard]
    have limit := heap_end_le room (show 3 < 4 by omega)
    have value : shown n (store m (headCell 3) 8 (shardStart heapBase n 3)) =
        Function.update (shown n m) .head (shardStart heapBase n 3) :=
      shown_cell room .head (by simp only [Cell.width]; omega)
    have head : Advance n m (store m (headCell 3) 8 (shardStart heapBase n 3)) := by
      rw [Advance, value]
      exact draft.headed
    refine .write head ?_
    have size := head.draft.advance_size room word (s := 3) (by omega) fun _ => by rw [value, Function.update_self]
    refine .write size ?_
    have next := size.draft.advance_aside (v := 0) (aside_block room (s := 3) (o := shardStart heapBase n 3 + 8) (k := 8)
      (by omega) (by omega) (Or.inr (by omega)))
    refine .write next ?_
    have flags := next.draft.advance_aside (v := 1) (aside_block room (s := 3) (o := shardStart heapBase n 3 + 16) (k := 4)
      (by omega) (by omega) (Or.inr (by omega)))
    exact .write flags (finish _ flags.draft)
  | succ left ih =>
    have early : s ≠ 3 := by omega
    rw [initShardBlocks_succ map total room shard]
    have head := draft.advance_aside (v := shardStart heapBase n s) (aside_header (n := n) (o := headCell s) (k := 8)
      (by rw [headCell_eq]; omega) (by rw [headCell_eq]; omega) (by rw [headCell_eq]; omega) (by rw [headCell_eq]; omega))
    refine .write head ?_
    have size := head.draft.advance_size room word (s := s) (by omega) fun last => absurd last early
    refine .write size ?_
    have behind : ∀ {o k v : Nat} {m : Mem}, Draft n (shown n m) → shardStart heapBase n s + 8 ≤ o →
        o + k ≤ shardStart heapBase n s + 28 → Advance n m (store m o k v) :=
      fun draft low high => draft.advance_aside (aside_block room low high (Or.inl early))
    have next := behind (k := 8) (v := 0) size.draft (Nat.le_refl _) (by omega)
    refine .write next ?_
    have flags := behind (o := shardStart heapBase n s + 16) (k := 4) (v := 1) next.draft (by omega) (by omega)
    refine .write flags ?_
    have owner := behind (o := shardStart heapBase n s + 20) (k := 4) (v := s) flags.draft (by omega) (by omega)
    refine .write owner ?_
    have offset := behind (o := shardStart heapBase n s + 24) (k := 4) (v := 0) owner.draft (by omega) (by omega)
    exact .write offset (ih (s := s + 1) (by omega) offset.draft)

/-- The end of offset_store_bootstrap. -/
def bootstrapEnd (region : ShmRegion) (status : OffsetStoreStatus) : Code (OffsetStoreStatus × ShmRegion) := do
  if status ≠ .ok then
    let (_, region) ← shmRegionClose region
    let _ ← shmRegionUnlink
    return (status, region)
  return (.ok, region)

/-- The store is finished: the process changes no byte any more, and can report success. -/
structure Settled (p : Code (OffsetStoreStatus × ShmRegion)) (heard : Heard Sys) (m : Mem) : Prop where
  idle : Idle mapAnswers Withdraws p m
  inits : Done lockInits heard
  ends : ∃ region, run (fun c (_ : Unit) => (creates c, ())) p m () = some ((.ok, region), m, ())

theorem idle_close (region : ShmRegion) (m : Mem) : Idle mapAnswers Withdraws (shmRegionClose region) m := by
  have last : Idle mapAnswers Withdraws (if region.fd ≥ 0 then (Prog.call Sys.close fun closed =>
      if closed ≠ 0 then ret (OffsetStoreStatus.systemError, region)
      else ret (OffsetStoreStatus.ok, shmRegionReset))
      else if (0 : Int) ≠ 0 then ret (OffsetStoreStatus.systemError, region)
      else ret (OffsetStoreStatus.ok, shmRegionReset)) m := by
    split
    · refine idle_call (by simp [Withdraws]) fun closed _ => ?_
      split <;> exact idle_ret
    · exact idle_ret
  unfold shmRegionClose
  simp only [request_bind, pure_eq, ret_bind]
  split
  · refine idle_call (by simp [Withdraws]) fun unmapped _ => ?_
    split
    · exact idle_ret
    · exact last
  · exact last

theorem idle_unlink (m : Mem) : Idle mapAnswers Withdraws shmRegionUnlink m := by
  unfold shmRegionUnlink
  simp only [request_bind]
  refine idle_call (by simp [Withdraws]) fun result _ => ?_
  split
  · refine idle_call (by simp [Withdraws]) fun errno _ => ?_
    split <;> exact idle_ret
  · exact idle_ret

theorem idle_bootstrapEnd (region : ShmRegion) (status : OffsetStoreStatus) (m : Mem) :
    Idle mapAnswers Withdraws (bootstrapEnd region status) m := by
  unfold bootstrapEnd
  split
  · exact idle_bind (idle_close region m) fun _ => idle_bind (idle_unlink m) fun _ => idle_ret
  · exact idle_ret

theorem silent_bootstrapEnd (region : ShmRegion) (status : OffsetStoreStatus) : Silent (bootstrapEnd region status) := by
  unfold bootstrapEnd
  split
  · exact confined_bind (silent_close region) fun _ => confined_bind silent_unlink fun _ => confined_ret
  · exact confined_ret

/-- A program that stores nothing more has stopped. -/
theorem until_stops {goal : Code (OffsetStoreStatus × ShmRegion) → Heard Sys → Mem → Prop}
    {p : Code (OffsetStoreStatus × ShmRegion)} (silent : Silent p) (draft : Draft n (shown n m)) :
    Until mapAnswers (Advance n) (Arrived goal) p heard m := by
  refine until_weaken (until_silent silent draft.still) ?_
  rintro _ _ _ ⟨a, rfl, _⟩
  exact .returned

theorem silent_initExit (region : ShmRegion) (status : OffsetStoreStatus) : Silent (initExit region status) :=
  confined_bind (silent_withLock region (silent_lockRequest _)) fun _ => confined_ret

/-- With the owner of the last block the store is finished. -/
theorem settled_last (map : region.Mapped) (draft : Draft n (shown n m)) (inits : Done lockInits heard)
    {q : Code (OffsetStoreStatus × ShmRegion)} (tail : q = (shmRegionAllocatorUnlock region >>= fun unlocked =>
      (if unlocked ≠ .ok then return .systemError else return .ok : Code OffsetStoreStatus) >>= bootstrapEnd region)) :
    Settled (.write (shardStart heapBase n 3 + 24) 4 0 q) heard (store m (shardStart heapBase n 3 + 20) 4 3) := by
  have ahead : load (store m (shardStart heapBase n 3 + 20) 4 3) (shardStart heapBase n 3 + 24) 4 = 0 := by
    rw [load_store_apart (by omega)]
    exact draft.ahead
  generalize store m (shardStart heapBase n 3 + 20) 4 3 = m₁ at ahead
  have same : store m₁ (shardStart heapBase n 3 + 24) 4 0 = m₁ := store_zero ahead
  have unlock : shmRegionAllocatorUnlock region = lockRequest (.mutexUnlock RegionHeader.allocatorMutex) := by
    have positive := map.base_pos
    unfold shmRegionAllocatorUnlock withLock shmRegionHeaderMut shmRegionHeader
    rw [if_neg (by omega)]
    rfl
  unfold lockRequest at unlock
  refine ⟨idle_write same ?_, inits, region, ?_⟩
  · rw [tail, unlock]
    simp only [request_bind, call_bind]
    refine idle_call (by simp [Withdraws]) fun unlocked _ => ?_
    exact idle_bind (by split <;> exact idle_ret) fun _ => idle_bind (by split <;> exact idle_ret)
      fun status => idle_bootstrapEnd region status m₁
  · rw [run, same, tail, unlock]
    rfl

/-- allocator_init under its lock, and the end of offset_store_bootstrap. -/
theorem until_initLocked (map : region.Mapped) (total : region.size = n) (room : heapBase + 224 ≤ n)
    (draft : Draft n (shown n m)) (inits : Done regionInits heard) : Until mapAnswers (Advance n) (Arrived Settled)
      (initLocked region heapBase (n - heapBase) >>= bootstrapEnd region) heard m := by
  have failed : ∀ {status : OffsetStoreStatus} {heard : Heard Sys} {m : Mem}, Draft n (shown n m) →
      Until mapAnswers (Advance n) (Arrived Settled) (initExit region status >>= bootstrapEnd region) heard m :=
    fun draft => until_stops (confined_bind (silent_initExit _ _) fun _ => silent_bootstrapEnd _ _) draft
  have space : 2728 ≤ region.size := by
    unfold heapBase at room
    omega
  unfold initLocked
  simp only [allocatorHeaderMut, allocatorHeader_eq map space]
  rw [Prog.bind_assoc]
  obtain ⟨ok, value, _⟩ := burst_header_check (m := m) map total
  refine until_bind_of_ret value ?_
  split
  · exact failed draft
  simp only [request_bind, perform_bind, call_bind]
  refine .call fun attr _ => ?_
  split
  · exact failed draft
  simp only [call_bind]
  refine .call fun pshared _ => ?_
  split
  · exact .call fun _ _ => failed draft
  simp only [call_bind, Prog.bind_assoc]
  refine .call fun _ _ => until_bind (until_initFields map total room draft) ?_
  rintro _ _ m₁ ⟨rfl, draft₁⟩
  refine until_bind (until_initShardMutexes draft₁.still) ?_
  rintro mutexes heard₂ m₁ ⟨rfl, kept₂, shards⟩
  refine .call fun _ _ => ?_
  split
  · exact failed draft₁
  rename_i done
  rw [Prog.bind_assoc]
  refine until_shardBlocks map total room (Nat.zero_add 3) draft₁ fun m₂ draft₂ => .goal (.arrives ?_)
  refine settled_last map draft₂ ?_ (by simp only [Bool.not_true, Bool.false_eq_true, if_false, Prog.bind_assoc])
  intro c mem
  rcases List.mem_append.mp mem with header | shard
  · exact List.mem_append_left _ (kept₂ (by simpa using Or.inl (inits c header)))
  · obtain ⟨s, small, rfl⟩ := List.mem_map.mp shard
    have ok : mutexes = true := by simpa using done
    exact List.mem_append_left _ (shards ok s (by simp) (List.mem_range.mp small))

theorem until_init (map : region.Mapped) (total : region.size = n) (draft : Draft n (shown n m))
    (inits : Done regionInits heard) : Until mapAnswers (Advance n) (Arrived Settled)
      (allocatorInit region >>= bootstrapEnd region) heard m := by
  have failed : ∀ {status : OffsetStoreStatus} {heard : Heard Sys}, Until mapAnswers (Advance n) (Arrived Settled)
      (initExit region status >>= bootstrapEnd region) heard m :=
    until_stops (confined_bind (silent_initExit _ _) fun _ => silent_bootstrapEnd _ _) draft
  unfold allocatorInit
  rw [Prog.bind_assoc]
  refine until_bind (until_silent (silent_withLock region (silent_lockOne _)) draft.still) ?_
  rintro locked heard₁ m ⟨rfl, kept⟩
  split
  · exact until_stops (confined_bind confined_ret fun _ => silent_bootstrapEnd _ _) draft
  by_cases large : heapBase < n
  swap
  · rw [region_offsets_none total large]
    exact failed
  rw [region_offsets total large]
  simp only
  split
  · exact failed
  · rename_i enough
    have least : allocatorMinBlockSize * OffsetStore.shardCount = 224 := rfl
    exact until_initLocked map total (by omega) draft (inits.more kept)

/-- Creating a store moves on until the owner of its last block is written. -/
theorem until_bootstrap (n : Nat) :
    Until mapAnswers (Advance n) (Arrived Settled) (offsetStoreBootstrap n) [] (fun _ => 0) := by
  unfold offsetStoreBootstrap
  refine until_bind (until_create n) ?_
  rintro ⟨status, region⟩ heard m created
  simp only
  split
  · exact .goal .returned
  · rename_i ok
    obtain ⟨⟨map, total⟩, blank, inits⟩ := created (not_not.mp ok)
    exact until_init map total blank.draft inits

/-- The store is finished: it has its final bytes, and all its locks. -/
structure Finished (n : Nat) (p : Code (OffsetStoreStatus × ShmRegion)) (heard : Heard Sys) (m : Mem) : Prop where
  idle : Idle mapAnswers Withdraws p m
  inits : Done lockInits heard
  header : RegionRepr n m
  heap : HeapInv n m (freshView n)

theorem Settled.finished {p : Code (OffsetStoreStatus × ShmRegion)} (settled : Settled p heard m)
    (ends : Ends mapAnswers (fun r m' => r.1 = .ok → Bootstrapped n r.2 m') p m) : Finished n p heard m := by
  obtain ⟨region, run⟩ := settled.ends
  have store := ends_run ends (fun c _ => creates_maps c) run rfl
  exact ⟨settled.idle, settled.inits, store.attached.header, store.heap⟩

theorem Finished.lasts {p p' : Code (OffsetStoreStatus × ShmRegion)} {later : Heard Sys} {m' : Mem}
    (finished : Finished n p heard m) (move : Move mapAnswers p m later p' m') : Finished n p' (heard ++ later) m' := by
  obtain ⟨rfl, _, idle⟩ := idle_move finished.idle move
  exact ⟨idle, finished.inits.more (List.subset_append_left _ _), finished.header, finished.heap⟩

theorem until_finished (n : Nat) :
    Until mapAnswers (Advance n) (Arrived (Finished n)) (offsetStoreBootstrap n) [] (fun _ => 0) := by
  refine until_weaken (until_ends (until_bootstrap n) (ends_bootstrap n _)) ?_
  rintro p heard m ⟨stops, ends⟩
  cases stops with
  | reached settled => exact .reached (settled.finished ends)
  | arrives settled => exact .arrives (settled.finished (ends_move ends .write))
  | returned => exact .returned

end Creator

end OffsetStore
