import OffsetStore.StoreCreation

/- Attaching to a store that is still being created: whatever an attaching process can find in
   a draft, in between any two stores of the creating process, makes the attach fail. -/
namespace OffsetStore
open ByteMemory Program Prog Words

/- The attaching process. -/
section Attacher
variable {n : Nat} {m : Mem} {region : ShmRegion}

theorem loads_checksumBytes (region : ShmRegion) (data index left checksum : Nat) :
    Loads (shmRegionChecksumBytes region data index left checksum) := by
  induction left generalizing index checksum with
  | zero => exact loads_ret
  | succ left ih =>
    unfold shmRegionChecksumBytes ShmRegion.load8
    exact loads_read fun _ => ih _ _

theorem loads_computeChecksum (header : Nat) : Loads (shmRegionComputeHeaderChecksum region header) := by
  unfold shmRegionComputeHeaderChecksum
  dsimp only
  have span := fun field size checksum => loads_checksumBytes region header field size checksum
  refine loads_bind (span _ _ _) fun _ => loads_bind (span _ _ _) fun _ => loads_bind (span _ _ _) fun _ => ?_
  exact loads_bind (span _ _ _) fun _ => loads_bind (span _ _ _) fun _ => loads_bind (span _ _ _) fun _ => span _ _ _

/-- An accepted header gives the size of the region. -/
theorem sees_validateHeader (positive : 0 < region.base) (least : 0 < region.size) :
    Sees mapAnswers (Advance n) (fun ok _ => ok = true → region.size = n) (shmRegionValidateHeader region) m := by
  unfold shmRegionValidateHeader
  rw [if_neg (by omega)]
  simp (disch := omega) only [RegionHeader.magic, RegionHeader.version, RegionHeader.stateFlags,
    RegionHeader.generation, RegionHeader.totalSize, RegionHeader.headerChecksum, load64_base, load32_base]
  simp only [loadWord_bind, pure_eq]
  have refused : ∀ m : Mem, Sees mapAnswers (Advance n) (fun ok _ => ok = true → region.size = n) (ret false : Code Bool) m :=
    fun m => sees_ret (by simp)
  refine sees_read fun m₁ _ => ?_
  split
  · exact refused _
  refine sees_read fun m₂ _ => ?_
  split
  · exact refused _
  refine sees_read fun m₃ _ => ?_
  split
  · exact refused _
  refine sees_read fun m₄ _ => ?_
  split
  · exact refused _
  refine sees_read fun m₅ moved => ?_
  split
  · exact refused _
  rename_i same
  have total : region.size = n := by
    rcases moved.draft.total with zero | total
    · exact absurd ((not_not.mp same).symm.trans zero) (by omega)
    · exact (not_not.mp same).symm.trans total
  refine sees_read fun m₆ _ => ?_
  refine sees_bind (sees_silent (K := fun _ => True) (loads_computeChecksum _).silent (fun _ _ _ _ => trivial) trivial) ?_
  exact fun _ _ _ => sees_ret fun _ => total

/-- What an attaching process knows once it has seen the header of the allocator. -/
structure HeaderSeen (n : Nat) (m : Mem) : Prop where
  room : heapBase + 224 ≤ n
  place : load m 2512 8 = heapBase
  extent : load m 2520 8 = n - heapBase

theorem Grows.headerSeen {m' : Mem} (moved : Advance n m m') (seen : HeaderSeen n m) : HeaderSeen n m' := by
  have positive : shown n m .extent ≠ 0 := by
    have value : shown n m .extent = n - heapBase := seen.extent
    have room := seen.room
    omega
  obtain ⟨extent, place, room⟩ := moved.draft.extent (moved.extent positive)
  exact ⟨room, place, extent⟩

theorem sees_headerValid (map : region.Mapped) (total : region.size = n) (space : 2728 ≤ n) :
    Sees mapAnswers (Advance n) (fun ok m => ok = true → HeaderSeen n m)
      (allocatorHeaderValid region (headerAddress region)) m := by
  have user := map.user
  unfold allocatorHeaderValid headerAddress allocatorMetadataOffset
  simp (disch := omega) only [RegionHeader.sizeof, AllocatorHeader.magic, AllocatorHeader.version,
    AllocatorHeader.shardCount, AllocatorHeader.heapOffset, AllocatorHeader.heapSize, load64_field,
    load32_field]
  simp only [loadWord_bind, Nat.add_zero, Nat.reduceAdd, total, pure_eq]
  have refused : ∀ m : Mem, Sees mapAnswers (Advance n) (fun ok m => ok = true → HeaderSeen n m) (ret false : Code Bool) m :=
    fun m => sees_ret (by simp)
  refine sees_read fun m₁ _ => ?_
  split
  · exact refused _
  refine sees_read fun m₂ _ => ?_
  split
  · exact refused _
  refine sees_read fun m₃ _ => ?_
  split
  · exact refused _
  refine sees_read fun m₄ placed => sees_read fun m₅ moved => ?_
  split
  · exact refused _
  rename_i bounds
  split
  · exact refused _
  rename_i whole
  refine sees_ret fun _ => ?_
  have positive : shown n m₅ .extent ≠ 0 := by
    intro zero
    have extent : load m₅ 2520 8 = 0 := zero
    rw [extent] at whole bounds
    rw [not_not, add64_eq (by omega)] at whole
    omega
  obtain ⟨extent, place, room⟩ := moved.draft.extent positive
  exact ⟨room, place, extent⟩

/-- What the list of the last shard is read for. -/
structure LastSeen (n : Nat) (m : Mem) : Prop where
  header : HeaderSeen n m
  size : shown n m (.size 3) ≠ 0

theorem Grows.lastSeen {m' : Mem} (moved : Advance n m m') (seen : LastSeen n m) : LastSeen n m' :=
  ⟨Grows.headerSeen moved seen.header, moved.size seen.size⟩

theorem lastSeen_stays (m m' : Mem) (seen : LastSeen n m) (moved : Advance n m m') : LastSeen n m' := moved.lastSeen seen

/-- What the physical walk knows behind the size of a block. -/
def SizeSeen (n s : Nat) (m : Mem) : Prop := HeaderSeen n m ∧ (s = 3 → LastSeen n m)

theorem Grows.sizeSeen {m' : Mem} {s : Nat} (moved : Advance n m m') (seen : SizeSeen n s m) : SizeSeen n s m' :=
  ⟨Grows.headerSeen moved seen.1, fun last => moved.lastSeen (seen.2 last)⟩

/-- A size that is large enough is there; only the last one is relied on. -/
theorem sees_size (map : region.Mapped) (total : region.size = n) {s : Nat} (early : s < 4) (t : Nat) (seen : HeaderSeen n m) :
    Sees mapAnswers (Advance n) (fun fits m => fits = true → SizeSeen n s m)
      (validateSize region (headerAddress region) (add64 region.base (shardStart heapBase n s)) t) m := by
  have user := map.user
  have room := seen.room
  have size := shard_room room
  have finish := heap_end_le room early
  unfold validateSize
  simp (disch := omega) only [headerAddress, allocatorMetadataOffset, RegionHeader.sizeof, AllocatorHeader.heapSize,
    BlockHeader.size, load64_field]
  simp only [loadWord_bind, Nat.add_zero, pure_eq]
  refine sees_read fun m₁ moved₁ => ?_
  split
  · exact sees_ret (by simp)
  rename_i least
  have found : SizeSeen n s m₁ := by
    refine ⟨Grows.headerSeen moved₁ seen, ?_⟩
    rintro rfl
    refine ⟨Grows.headerSeen moved₁ seen, fun zero => least ?_⟩
    rw [show load m₁ (shardStart heapBase n 3) 8 = 0 from zero]
    simp
  exact sees_read fun m₂ moved₂ => sees_read fun m₃ moved₃ => sees_ret fun _ => moved₃.sizeSeen (moved₂.sizeSeen found)

/-- The physical walk gets past the last shard only when the size of its block is there. A size that is still zero
    when it is loaded for the last time lets the walk look at the same block again. -/
theorem sees_blocks (map : region.Mapped) (total : region.size = n) {s : Nat} (early : s < 4) (fuel count : Nat)
    (seen : HeaderSeen n m) : Sees mapAnswers (Advance n) (fun blocks m => blocks ≠ none → LastSeen n m)
      (validateBlocks region (headerAddress region) fuel (s * shardSize heapBase n) count) m := by
  have user := map.user
  have room := seen.room
  have size := shard_room room
  induction fuel generalizing s count m with
  | zero => exact sees_spin
  | succ fuel ih =>
    have finish := heap_end_le room early
    have low := shardStart_ge n s
    have start : shardStart heapBase n s = heapBase + s * shardSize heapBase n := rfl
    have sum : add64 heapBase (s * shardSize heapBase n) = shardStart heapBase n s := add64_eq (by rw [← start]; omega)
    have refused : ∀ m : Mem, Sees mapAnswers (Advance n) (fun blocks m => blocks ≠ none → LastSeen n m)
        (ret none : Code (Option Nat)) m := fun m => sees_ret fun bad => absurd rfl bad
    have heap : ∀ field, field + 8 ≤ 232 → region.load64 (headerAddress region) field = loadWord (2496 + field) 8 := by
      intro field small
      unfold headerAddress allocatorMetadataOffset
      exact load64_field (by simp only [RegionHeader.sizeof]; omega)
    rw [validateBlocks, heap _ (by simp), heap _ (by simp)]
    simp only [loadWord_bind, AllocatorHeader.heapOffset, AllocatorHeader.heapSize, Nat.reduceAdd, pure_eq]
    refine sees_read fun m₁ moved₁ => ?_
    have seen₁ := Grows.headerSeen moved₁ seen
    have inside : s * shardSize heapBase n < n - heapBase := by
      rw [start] at finish
      generalize s * shardSize heapBase n = t at finish
      omega
    rw [seen₁.extent, if_pos inside]
    refine sees_read fun m₂ moved₂ => ?_
    have seen₂ := Grows.headerSeen moved₂ seen₁
    have block : allocatorBlockFromOffset region (shardStart heapBase n s) =
        some (add64 region.base (shardStart heapBase n s)) :=
      resolve_eq_some map (by omega) (by omega) (by simp only [BlockHeader.sizeof]; omega)
    rw [seen₂.place, sum, block]
    refine sees_bind (sees_size map total early _ seen₂) fun fits m₃ sized => ?_
    cases fits with
    | false => exact refused m₃
    | true =>
      have kept : ∀ m m', SizeSeen n s m → Advance n m m' → SizeSeen n s m' := fun m m' seen moved => moved.sizeSeen seen
      refine sees_bind (sees_silent (loads_flags _).silent kept (sized rfl)) fun known m₄ seen₄ => ?_
      cases known with
      | false => exact refused m₄
      | true =>
        simp (disch := omega) only [BlockHeader.size, BlockHeader.shard, load64_field, load32_field]
        simp only [loadWord_bind, Nat.add_zero, Bool.not_true, Bool.false_eq_true, if_false]
        refine sees_read fun m₅ moved₅ => ?_
        split
        · exact refused m₅
        refine sees_read fun m₆ moved₆ => ?_
        have seen₆ := moved₆.sizeSeen (moved₅.sizeSeen seen₄)
        by_cases last : s = 3
        · refine sees_weaken (sees_silent (loads_blocks _ _ _ _).silent lastSeen_stays (seen₆.2 last)) fun _ _ held _ => held
        · rcases moved₆.draft.sizes ⟨s, early⟩ with zero | value
          · have none : load m₆ (shardStart heapBase n s) 8 = 0 := zero
            have again : add64 (s * shardSize heapBase n) 0 = s * shardSize heapBase n := add64_eq (by omega)
            rw [none, again]
            exact ih early _ seen₆.1
          · have value : load m₆ (shardStart heapBase n s) 8 = shardSize heapBase n := value
            have next : add64 (s * shardSize heapBase n) (shardSize heapBase n) = (s + 1) * shardSize heapBase n := by
              rw [Nat.add_mul, Nat.one_mul]
              exact add64_eq (by omega)
            rw [value, next]
            exact ih (by omega) _ seen₆.1

/-- The last list leads to a block without an owner. -/
theorem sees_lastList (map : region.Mapped) (total : region.size = n) {fuel count : Nat} (seen : LastSeen n m) :
    Sees mapAnswers (Advance n) (fun status _ => status ≠ .ok)
      (validateShards fuel region (headerAddress region) 1 count) m := by
  have user := map.user
  have room := seen.header.room
  have size := shard_room room
  have finish := heap_end_le room (show 3 < 4 by omega)
  have start := shardStart_ge n 3
  rw [validateShards]
  simp only [OffsetStore.shardCount, AllocatorHeader.shardFreeListHeads, Nat.reduceAdd, Nat.reduceSub, Nat.reduceMul]
  simp (disch := omega) only [headerAddress, allocatorMetadataOffset, RegionHeader.sizeof,
    AllocatorHeader.heapOffset, AllocatorHeader.heapSize, load64_field]
  simp only [loadWord_bind, Nat.reduceAdd]
  refine sees_read fun m₁ moved₁ => ?_
  have seen₁ := moved₁.lastSeen seen
  refine sees_read fun m₂ moved₂ => ?_
  have seen₂ := moved₂.lastSeen seen₁
  refine sees_read fun m₃ moved₃ => ?_
  have seen₃ := moved₃.lastSeen seen₂
  have head : load m₃ 2712 8 = shardStart heapBase n 3 := moved₃.draft.head seen₃.size
  rw [seen₁.header.place, seen₂.header.extent, head, shard_offset (by omega) (by omega) (show 3 < 4 by omega)]
  have refused : Sees mapAnswers (Advance n) (fun rest _ => rest = none)
      (validateFreeList region 3 (shardStart heapBase n 3) (allocatorShardHeapSize (n - heapBase)) fuel
        (shardStart heapBase n 3) count) m₃ := by
    cases fuel with
    | zero => exact sees_spin
    | succ fuel =>
      rw [validateFreeList]
      split
      · rename_i null
        simp only [offsetPtrIsNull, decide_eq_true_eq] at null
        omega
      split
      · exact sees_ret rfl
      split
      · exact sees_ret rfl
      have block : allocatorBlockFromOffset region (shardStart heapBase n 3) =
          some (add64 region.base (shardStart heapBase n 3)) :=
        resolve_eq_some map (by omega) (by omega) (by simp only [BlockHeader.sizeof]; omega)
      rw [block]
      simp (disch := omega) only [BlockHeader.flags, BlockHeader.shard, BlockHeader.nextFree, load64_field, load32_field]
      simp only [loadWord_bind]
      refine sees_read fun m₄ _ => ?_
      split
      · exact sees_ret rfl
      refine sees_read fun m₅ moved₅ => ?_
      have owner : load m₅ (shardStart heapBase n 3 + 20) 4 = 0 := moved₅.draft.owner
      rw [owner, if_pos (by simp)]
      exact sees_ret rfl
  refine sees_bind refused ?_
  rintro _ m' rfl
  exact sees_ret (by simp)

theorem sees_shards (map : region.Mapped) (total : region.size = n) {fuel left count : Nat} (seen : LastSeen n m) :
    Sees mapAnswers (Advance n) (fun status _ => status ≠ .ok)
      (validateShards fuel region (headerAddress region) (left + 1) count) m := by
  induction left generalizing count m with
  | zero => exact sees_lastList map total seen
  | succ left ih =>
    rw [validateShards]
    unfold ShmRegion.load64
    simp only [loadWord_bind]
    refine sees_read fun m₁ moved₁ => sees_read fun m₂ moved₂ => sees_read fun m₃ moved₃ => ?_
    have seen₃ := moved₃.lastSeen (moved₂.lastSeen (moved₁.lastSeen seen))
    refine sees_bind (sees_silent (loads_list _ _ _ _ _ _).silent lastSeen_stays seen₃) ?_
    intro rest m₄ seen₄
    split
    · exact sees_ret (by simp)
    · exact ih seen₄

theorem sees_validate (map : region.Mapped) (total : region.size = n) (fuel : Nat) :
    Sees mapAnswers (Advance n) (fun status _ => status ≠ .ok) (allocatorValidate fuel region) m := by
  unfold allocatorValidate
  by_cases space : 2728 ≤ region.size
  swap
  · have none : allocatorHeader region = none := by
      unfold allocatorHeader
      rw [if_pos]
      simp only [allocatorMetadataOffset, RegionHeader.sizeof, AllocatorHeader.sizeof]
      omega
    rw [none]
    exact sees_ret (by simp)
  rw [allocatorHeader_eq map space]
  simp only
  refine sees_bind (sees_headerValid map total (by omega)) ?_
  intro ok m₁ seen
  split
  · exact sees_ret (by simp)
  rename_i valid
  have header := seen (by simpa using valid)
  have walk : Sees mapAnswers (Advance n) (fun blocks m => blocks ≠ none → LastSeen n m)
      (validateBlocks region (headerAddress region) fuel 0 0) m₁ := by
    have first := sees_blocks map total (show 0 < 4 by omega) fuel 0 header
    rwa [Nat.zero_mul] at first
  refine sees_bind walk ?_
  intro blocks m₂ found
  split
  · exact sees_ret (by simp)
  · exact sees_shards map total (found (by simp))

theorem loads_validateHeader : Loads (shmRegionValidateHeader region) := by
  unfold shmRegionValidateHeader ShmRegion.load64 ShmRegion.load32
  simp only [loadWord_bind]
  refine loads_ite loads_ret (loads_read fun _ => loads_ite loads_ret (loads_read fun _ => loads_ite loads_ret ?_))
  refine loads_read fun _ => loads_ite loads_ret (loads_read fun _ => loads_ite loads_ret ?_)
  refine loads_read fun _ => loads_ite loads_ret (loads_read fun _ => ?_)
  exact loads_bind (loads_computeChecksum _) fun _ => loads_ret

/-- The end of shm_region_open: mapping the object and checking its header. -/
def openMapped (fd : Int) (size : Nat) : Code (OffsetStoreStatus × ShmRegion) := do
  let (mapped, region) ← shmRegionMapFd shmRegionReset fd size false
  if !mapped then
    Prog.perform .close
    return (.systemError, region)
  let valid ← shmRegionValidateHeader region
  if !valid then
    let (_, region) ← shmRegionClose region
    return (.invalidState, region)
  return (.ok, region)

theorem silent_openMapped (fd : Int) (size : Nat) : Silent (openMapped fd size) := by
  have map : Silent (shmRegionMapFd shmRegionReset fd size false) := by
    unfold shmRegionMapFd
    split
    · exact confined_ret
    simp only [request_bind]
    refine confined_call fun mapping => ?_
    split <;> exact confined_ret
  unfold openMapped
  refine confined_bind map ?_
  rintro ⟨mapped, region⟩
  simp only
  split
  · exact confined_call fun _ => confined_ret
  refine confined_bind loads_validateHeader.silent fun valid => ?_
  split
  · exact confined_bind (silent_close region) fun _ => confined_ret
  · exact confined_ret

theorem silent_open : Silent shmRegionOpen := by
  have sized : ∀ (fd stat size : Int), Silent (if stat ≠ 0 ∨ size ≤ 0 then (do
      Prog.perform .close
      return (.systemError, shmRegionReset)) else openMapped fd size.toNat : Code (OffsetStoreStatus × ShmRegion)) := by
    intro fd stat size
    split
    · exact confined_call fun _ => confined_ret
    · exact silent_openMapped fd size.toNat
  unfold shmRegionOpen
  simp only [request_bind]
  refine confined_call fun fd => ?_
  split
  · refine confined_call fun errno => ?_
    split <;> exact confined_ret
  refine confined_call fun stat => ?_
  split
  · exact confined_call fun size => sized fd stat size
  · exact sized fd stat 0

theorem silent_openExisting (fuel : Nat) : Silent (offsetStoreOpenExisting fuel) := by
  unfold offsetStoreOpenExisting
  refine confined_bind silent_open ?_
  rintro ⟨status, region⟩
  simp only
  split
  · exact confined_ret
  refine confined_bind (loads_validate fuel).silent fun status => ?_
  split
  · exact confined_bind (silent_close region) fun _ => confined_ret
  · exact confined_ret

/-- Whatever is mapped, an accepted header gives its size. -/
theorem sees_openMapped (fd : Int) (size : Nat) : Sees mapAnswers (Advance n)
    (fun r _ => r.1 = .ok → r.2.Mapped ∧ r.2.size = n) (openMapped fd size) m := by
  have map : Sees mapAnswers (Advance n) (fun r _ => r.1 = true → r.2.Mapped ∧ 0 < r.2.size)
      (shmRegionMapFd shmRegionReset fd size false) m := by
    unfold shmRegionMapFd
    split
    · exact sees_ret (by simp)
    rename_i valid
    have least : 2496 ≤ size := by simpa [shmRegionIsSizeValid] using valid
    simp only [request_bind]
    refine sees_call fun mapping answer => ?_
    split
    · exact sees_ret (by simp)
    · rename_i mapped
      exact sees_ret fun _ => ⟨mapping_mapped answer mapped, by simp only; omega⟩
  unfold openMapped
  refine sees_bind map ?_
  rintro ⟨mapped, region⟩ m₁ facts
  simp only at facts ⊢
  split
  · exact sees_call fun _ _ => sees_ret (by simp)
  rename_i success
  obtain ⟨map, least⟩ := facts (by simpa using success)
  refine sees_bind (sees_validateHeader map.base_pos least) ?_
  intro valid m₂ total
  split
  · refine sees_bind (sees_silent (K := fun _ => True) (silent_close region) (fun _ _ _ _ => trivial) trivial) ?_
    exact fun _ _ _ => sees_ret (by simp)
  · rename_i accepted
    exact sees_ret fun _ => ⟨map, total (by simpa using accepted)⟩

theorem sees_open : Sees mapAnswers (Advance n) (fun r _ => r.1 = .ok → r.2.Mapped ∧ r.2.size = n) shmRegionOpen m := by
  have sized : ∀ (fd stat size : Int) (m : Mem), Sees mapAnswers (Advance n)
      (fun r _ => r.1 = .ok → r.2.Mapped ∧ r.2.size = n) (if stat ≠ 0 ∨ size ≤ 0 then (do
        Prog.perform .close
        return (.systemError, shmRegionReset)) else openMapped fd size.toNat) m := by
    intro fd stat size m
    split
    · exact sees_call fun _ _ => sees_ret (by simp)
    · exact sees_openMapped fd size.toNat
  unfold shmRegionOpen
  simp only [request_bind]
  refine sees_call fun fd _ => ?_
  split
  · refine sees_call fun errno _ => ?_
    split <;> exact sees_ret (by simp)
  refine sees_call fun stat _ => ?_
  split
  · exact sees_call fun size _ => sized fd stat size m
  · exact sized fd stat 0 m

/-- Before the store is finished, attaching fails. -/
theorem sees_openExisting (fuel : Nat) :
    Sees mapAnswers (Advance n) (fun r _ => r.1 ≠ .ok) (offsetStoreOpenExisting fuel) m := by
  unfold offsetStoreOpenExisting
  refine sees_bind sees_open ?_
  rintro ⟨status, region⟩ m₁ opened
  simp only at opened ⊢
  split
  · exact sees_ret ‹_›
  rename_i ok
  obtain ⟨map, total⟩ := opened (not_not.mp ok)
  refine sees_bind (sees_validate map total fuel) ?_
  intro status m₂ refused
  rw [if_pos refused]
  refine sees_bind (sees_silent (K := fun _ => True) (silent_close region) (fun _ _ _ _ => trivial) trivial) ?_
  exact fun _ _ _ => sees_ret refused

end Attacher

/-- A process creates a store of n bytes in zeroed memory, and another attaches to it. -/
def attachWhileCreating (n fuel : Nat) : Pair Sys (OffsetStoreStatus × ShmRegion) (OffsetStoreStatus × ShmRegion) :=
  ⟨offsetStoreBootstrap n, [], offsetStoreOpenExisting fuel, fun _ => 0⟩

/-- What is left of a creation when an attach succeeds: no byte changes any more, all locks are
    initialised, and header and heap have their final contents. -/
structure Published (n : Nat) (p : Code (OffsetStoreStatus × ShmRegion)) (heard : Heard Sys) (m : Mem) : Prop where
  settled : ∀ later p' m', Moves mapAnswers p m later p' m' → m' = m ∧ ∀ x ∈ later, Withdraws x.1
  locks : Done lockInits heard
  header : RegionRepr n m
  heap : HeapInv n m (freshView n)

/-- However the steps of creating a store and of attaching to it interleave, and wherever the
    creation is cut off, an attach succeeds only when the store is finished. -/
theorem attach_finds_finished {n fuel : Nat} {region : ShmRegion}
    {s : Pair Sys (OffsetStoreStatus × ShmRegion) (OffsetStoreStatus × ShmRegion)}
    (runs : Relation.ReflTransGen (Together mapAnswers) (attachWhileCreating n fuel) s)
    (attached : s.reader = .ret (.ok, region)) : Published n s.writer s.heard s.mem := by
  have blank : Blank n (fun _ => 0) := ⟨Or.inl (load_zero fun _ _ _ => rfl), fun _ _ => rfl⟩
  have finished := goal_of_accepted (P := fun r => r.1 ≠ .ok) (R := Advance n)
    (fun _ _ _ _ _ _ (finished : Finished n _ _ _) move => finished.lasts move)
    (fun _ _ _ => Grows.trans) (fun _ _ moved => moved.draft.still)
    (until_finished n) blank.draft.still (sees_openExisting fuel) (silent_openExisting fuel) runs attached (by simp)
  refine ⟨?_, finished.inits, finished.header, finished.heap⟩
  exact fun later p' m' moves => idle_moves finished.idle moves

/-- A system in which the small store can be attached. -/
def attaches : Sys → Int
  | .statSize => 4096
  | c => creates c

theorem attaches_maps (c : Sys) : mapAnswers c (attaches c) := by
  cases c with
  | mmap size => exact creates_maps (.mmap size)
  | _ => trivial

/-- The store is created, then another process attaches to it. -/
theorem attach_finds_finished_small : ∃ fuel region s,
    Relation.ReflTransGen (Together mapAnswers) (attachWhileCreating 4096 fuel) s ∧ s.reader = .ret (.ok, region) ∧
      Published 4096 s.writer s.heard s.mem := by
  obtain ⟨creator, m, _, _, booted, store, _⟩ := boot_small_returns
  have attachable :=
    (attachable_iff store.heap store.attached.header store.attached.mapped store.attached.total).mpr (by decide)
  have reply : AttachReply attaches ⟨3, 65536, 4096, false⟩ := ⟨rfl, by decide, rfl, rfl, rfl, rfl⟩
  obtain ⟨fuel, opens⟩ := attachable.opens attaches ⟨3, 65536, 4096, false⟩ ⟨by decide, by decide⟩ rfl reply
  obtain ⟨heard, created⟩ := together_writer (fun c _ => creates_maps c)
    (offsetStoreOpenExisting fuel) [] booted
  have runs := created.trans (together_reader (fun c _ => attaches_maps c) (opens fuel (Nat.le_refl fuel)))
  exact ⟨fuel, ⟨3, 65536, 4096, false⟩, _, runs, rfl, attach_finds_finished runs rfl⟩

end OffsetStore
