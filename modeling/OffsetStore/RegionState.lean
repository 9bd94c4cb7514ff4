import OffsetStore.ShmRegion

/- The region header as a value: the checksum as a function of the bytes it covers,
   what the header check accepts, and what a successful creation leaves. -/
namespace OffsetStore
open ByteMemory Program Prog Words

/-- The stable bytes of the header in the order of the checksum. -/
def stableBytes (m : Mem) : List UInt8 :=
  loadBytes m 0 8 ++ (loadBytes m 8 4 ++ (loadBytes m 12 4 ++ (loadBytes m 16 8 ++ (loadBytes m 24 8 ++
    (loadBytes m 192 768 ++ loadBytes m 960 1536)))))

def headerChecksum (m : Mem) : Nat := (stableBytes m).foldl checksumByte checksumSeed

/-- A valid region header of a region of n bytes. -/
structure RegionRepr (n : Nat) (m : Mem) : Prop where
  magic : load m 0 8 = regionMagic
  version : load m 8 4 = regionVersion
  ready : load m 12 4 = stateReady
  generation : load m 16 8 ≠ 0
  total : load m 24 8 = n
  checksum : load m 32 8 = headerChecksum m

theorem checksumByte_lt (c : Nat) (b : UInt8) : checksumByte c b < 2 ^ 64 := Nat.mod_lt _ (by simp)

theorem checksum_fold_lt {bs : List UInt8} {c : Nat} (small : c < 2 ^ 64) :
    bs.foldl checksumByte c < 2 ^ 64 := by
  induction bs generalizing c with
  | nil => exact small
  | cons b bs ih => exact ih (checksumByte_lt c b)

theorem headerChecksum_lt (m : Mem) : headerChecksum m < 2 ^ 64 := checksum_fold_lt (by simp)

theorem stableBytes_congr {m m' : Mem} (fields : SameOn m m' 0 32) (tables : SameOn m m' 192 2496) :
    stableBytes m' = stableBytes m := by
  unfold stableBytes
  rw [loadBytes_congr (fields.narrow (by omega) (by omega)), loadBytes_congr (fields.narrow (by omega) (by omega)),
    loadBytes_congr (fields.narrow (by omega) (by omega)), loadBytes_congr (fields.narrow (by omega) (by omega)),
    loadBytes_congr (fields.narrow (by omega) (by omega)), loadBytes_congr (tables.narrow (by omega) (by omega)),
    loadBytes_congr (tables.narrow (by omega) (by omega))]

theorem headerChecksum_congr {m m' : Mem} (fields : SameOn m m' 0 32) (tables : SameOn m m' 192 2496) :
    headerChecksum m' = headerChecksum m := by
  unfold headerChecksum
  rw [stableBytes_congr fields tables]

/-- The checksum does not cover its own field, nor the locks. -/
theorem headerChecksum_store {m : Mem} {o k v : Nat} (left : 32 ≤ o) (right : o + k ≤ 192) :
    headerChecksum (store m o k v) = headerChecksum m :=
  headerChecksum_congr (SameOn.store (by omega)) (SameOn.store (by omega))

theorem RegionRepr.congr {n : Nat} {m m' : Mem} (repr : RegionRepr n m) (same : SameOn m m' 0 2496) :
    RegionRepr n m' := by
  have sum := headerChecksum_congr (same.narrow (by omega) (show 32 ≤ 2496 by omega))
    (same.narrow (show 0 ≤ 192 by omega) (Nat.le_refl 2496))
  refine ⟨?_, ?_, ?_, ?_, ?_, ?_⟩
  · rw [load_congr (same.narrow (by omega) (by omega)), repr.magic]
  · rw [load_congr (same.narrow (by omega) (by omega)), repr.version]
  · rw [load_congr (same.narrow (by omega) (by omega)), repr.ready]
  · rw [load_congr (same.narrow (by omega) (by omega))]
    exact repr.generation
  · rw [load_congr (same.narrow (by omega) (by omega)), repr.total]
  · rw [load_congr (same.narrow (by omega) (by omega)), repr.checksum, sum]

/- Every step of the checksum can be undone, so a change of one stable byte is seen. -/
section Detection

theorem checksumByte_injective {c c' : Nat} {b b' : UInt8} (small : c < 2 ^ 64) (small' : c' < 2 ^ 64)
    (same : checksumByte c b = checksumByte c' b') : c ^^^ b.toNat = c' ^^^ b'.toNat := by
  have byte : ∀ b : UInt8, b.toNat < 2 ^ 64 := fun b => Nat.lt_trans b.toNat_lt (by decide)
  have left : c ^^^ b.toNat < 2 ^ 64 := Nat.xor_lt_two_pow small (byte b)
  have right : c' ^^^ b'.toNat < 2 ^ 64 := Nat.xor_lt_two_pow small' (byte b')
  have odd : Nat.gcd (2 ^ 64) checksumMultiplier = 1 := by decide
  have cancelled : c ^^^ b.toNat ≡ c' ^^^ b'.toNat [MOD 2 ^ 64] :=
    Nat.ModEq.cancel_right_of_coprime odd same
  rwa [Nat.ModEq, Nat.mod_eq_of_lt left, Nat.mod_eq_of_lt right] at cancelled

theorem checksum_fold_injective {bs : List UInt8} {c c' : Nat} (small : c < 2 ^ 64) (small' : c' < 2 ^ 64)
    (same : bs.foldl checksumByte c = bs.foldl checksumByte c') : c = c' := by
  induction bs generalizing c c' with
  | nil => exact same
  | cons b bs ih =>
    have step := ih (checksumByte_lt c b) (checksumByte_lt c' b) same
    exact Nat.xor_left_injective (checksumByte_injective small small' step)

/-- Two byte sequences that differ in one place have different checksums. -/
theorem checksum_fold_ne {pre post : List UInt8} {b b' : UInt8} (other : b ≠ b') :
    (pre ++ b :: post).foldl checksumByte checksumSeed ≠ (pre ++ b' :: post).foldl checksumByte checksumSeed := by
  intro same
  simp only [List.foldl_append, List.foldl_cons] at same
  have start : pre.foldl checksumByte checksumSeed < 2 ^ 64 := checksum_fold_lt (by simp)
  have step := checksum_fold_injective (checksumByte_lt _ b) (checksumByte_lt _ b') same
  have byte : b.toNat = b'.toNat := Nat.xor_right_injective (checksumByte_injective start start step)
  exact other (UInt8.toNat_inj.mp byte)

theorem loadBytes_range (m : Mem) (o n : Nat) : loadBytes m o n = (List.range' o n).map m := by
  induction n generalizing o with
  | zero => rfl
  | succ n ih => rw [loadBytes, ih, List.range'_succ, List.map_cons]

theorem stableBytes_addresses (m : Mem) :
    stableBytes m = (List.range' 0 32 ++ List.range' 192 2304).map m := by
  have low : List.range' 0 8 ++ (List.range' 8 4 ++ (List.range' 12 4 ++ (List.range' 16 8 ++ List.range' 24 8))) =
      List.range' 0 32 := by decide
  have high : List.range' 192 768 ++ List.range' 960 1536 = List.range' 192 2304 := List.range'_append_1
  unfold stableBytes
  rw [← low, ← high]
  simp only [loadBytes_range, List.map_append, List.append_assoc]

theorem headerChecksum_ne {m m' : Mem} {a : Nat} (only : SameOff m m' a (a + 1)) (changed : m' a ≠ m a)
    (covered : a < 32 ∨ (192 ≤ a ∧ a < 2496)) : headerChecksum m' ≠ headerChecksum m := by
  have mem : a ∈ List.range' 0 32 ++ List.range' 192 2304 := by
    simp only [List.mem_append, List.mem_range'_1]
    omega
  have nodup : (List.range' 0 32 ++ List.range' 192 2304).Nodup := by
    refine List.Nodup.append List.nodup_range' List.nodup_range' ?_
    intro x left right
    rw [List.mem_range'_1] at left right
    omega
  unfold headerChecksum
  rw [stableBytes_addresses, stableBytes_addresses]
  generalize List.range' 0 32 ++ List.range' 192 2304 = addresses at mem nodup
  obtain ⟨pre, post, rfl⟩ := List.append_of_mem mem
  have split := List.nodup_append.mp nodup
  have notPre : a ∉ pre := fun mem => split.2.2 a mem a (by simp) rfl
  have notPost : a ∉ post := (List.nodup_cons.mp split.2.1).1
  have same : ∀ {xs : List Nat}, a ∉ xs → xs.map m' = xs.map m := by
    intro xs out
    refine List.map_congr_left fun x mem => only x ?_
    have other : x ≠ a := fun same => out (same ▸ mem)
    omega
  simp only [List.map_append, List.map_cons]
  rw [same notPre, same notPost]
  exact checksum_fold_ne changed

end Detection

section Checksum
variable {region : ShmRegion} {m : Mem} {n : Nat}

theorem burst_checksum_bytes (region : ShmRegion) (m : Mem) {index left : Nat}
    (small : index + left < 2 ^ 64) (checksum : Nat) :
    burst m (shmRegionChecksumBytes region region.base index left checksum) =
      ([], ret ((loadBytes m index left).foldl checksumByte checksum)) := by
  induction left generalizing index checksum with
  | zero => rfl
  | succ left ih =>
    rw [shmRegionChecksumBytes, load8_base (by omega)]
    simp only [loadWord_bind, burst_read]
    rw [ih (by omega), loadBytes, List.foldl_cons]
    simp [load]

theorem burst_checksum (region : ShmRegion) (m : Mem) :
    burst m (shmRegionComputeHeaderChecksum region region.base) = ([], ret (headerChecksum m)) := by
  unfold shmRegionComputeHeaderChecksum
  simp only [RegionHeader.magic, RegionHeader.version, RegionHeader.stateFlags, RegionHeader.generation,
    RegionHeader.totalSize, RegionHeader.roots, RegionHeader.index, rootTable, indexTable, TableEntry.sizeof,
    Nat.reduceMul]
  rw [burst_bind_of_ret (burst_checksum_bytes region m (by omega) _),
    burst_bind_of_ret (burst_checksum_bytes region m (by omega) _),
    burst_bind_of_ret (burst_checksum_bytes region m (by omega) _),
    burst_bind_of_ret (burst_checksum_bytes region m (by omega) _),
    burst_bind_of_ret (burst_checksum_bytes region m (by omega) _),
    burst_bind_of_ret (burst_checksum_bytes region m (by omega) _),
    burst_checksum_bytes region m (by omega) _]
  simp only [headerChecksum, stableBytes, List.foldl_append]

/-- The header check decides whether the bytes form a header. -/
theorem burst_validate_header (positive : 0 < region.base) (total : region.size = n) :
    ∃ ok, burst m (shmRegionValidateHeader region) = ([], ret ok) ∧ (ok = true ↔ RegionRepr n m) := by
  unfold shmRegionValidateHeader
  rw [if_neg (by omega)]
  simp (disch := omega) only [RegionHeader.magic, RegionHeader.version, RegionHeader.stateFlags,
    RegionHeader.generation, RegionHeader.totalSize, RegionHeader.headerChecksum, load64_base, load32_base]
  simp only [loadWord_bind, burst_read, total, pure_eq]
  by_cases magic : load m 0 8 = regionMagic
  swap
  · rw [if_pos magic]
    exact ⟨false, rfl, by simpa using fun repr => magic repr.magic⟩
  rw [if_neg (by simpa using magic), burst_read]
  by_cases version : load m 8 4 = regionVersion
  swap
  · rw [if_pos version]
    exact ⟨false, rfl, by simpa using fun repr => version repr.version⟩
  rw [if_neg (by simpa using version), burst_read]
  by_cases ready : load m 12 4 = stateReady
  swap
  · rw [if_pos ready]
    exact ⟨false, rfl, by simpa using fun repr => ready repr.ready⟩
  rw [if_neg (by simpa using ready), burst_read]
  by_cases generation : load m 16 8 = 0
  · rw [if_pos generation]
    exact ⟨false, rfl, by simpa using fun repr => repr.generation generation⟩
  rw [if_neg generation, burst_read]
  by_cases size : load m 24 8 = n
  swap
  · rw [if_pos size]
    exact ⟨false, rfl, by simpa using fun repr => size repr.total⟩
  rw [if_neg (by simpa using size), burst_read, burst_bind_of_ret (burst_checksum region m)]
  refine ⟨_, rfl, ?_⟩
  rw [decide_eq_true_eq]
  exact ⟨fun same => ⟨magic, version, ready, generation, size, same⟩, fun repr => repr.checksum⟩

theorem exec_validate_header (positive : 0 < region.base) (ok : Bool) :
    exec (shmRegionValidateHeader region) m = some (ok, m) ↔ (ok = true ↔ RegionRepr region.size m) := by
  obtain ⟨ok', value, valid⟩ := burst_validate_header (m := m) positive rfl
  rw [exec_of_burst value, ← valid]
  simp only [applyStores_nil, exec_ret, Option.some.injEq, Prod.mk.injEq, and_true]
  cases ok <;> cases ok' <;> simp

/-- No header stays valid when one of its covered bytes changes: a byte the checksum covers changes
    the checksum, and a byte of the checksum field changes what is stored. -/
theorem RegionRepr.spoiled {m' : Mem} {a : Nat} (repr : RegionRepr n m) (covered : a < 40 ∨ (192 ≤ a ∧ a < 2496))
    (only : SameOff m m' a (a + 1)) (changed : m' a ≠ m a) : ¬RegionRepr n m' := by
  intro still
  by_cases stable : a < 32 ∨ (192 ≤ a ∧ a < 2496)
  · have field : load m' 32 8 = load m 32 8 := only.load (by omega)
    apply headerChecksum_ne only changed stable
    rw [← still.checksum, ← repr.checksum, field]
  · have sum : headerChecksum m' = headerChecksum m := headerChecksum_congr (only.on (by omega)) (only.on (by omega))
    have same : load m' 32 8 = load m 32 8 := by rw [still.checksum, repr.checksum, sum]
    exact changed (sameOn_of_load same a (by omega) (by omega))

/-- Bytes of a header whose index maps the key "k" to the handle 16, and the header with its
    checksum. -/
def headerBytes : Mem :=
  store (store (store (store (store (store (store (store (fun _ => 0) 0 8 regionMagic) 8 4 regionVersion) 12 4
    stateReady) 16 8 1) 24 8 4096) 960 1 1) 968 1 107) 1000 8 16

def published : Mem := store headerBytes 32 8 (headerChecksum headerBytes)

theorem published_valid : RegionRepr 4096 published := by
  refine ⟨by decide +kernel, by decide +kernel, by decide +kernel, by decide +kernel, by decide +kernel, ?_⟩
  exact (load_store_eight (headerChecksum_lt _)).trans (headerChecksum_store (by omega) (by omega)).symm

/-- Whatever header is accepted, one corrupted byte of it is noticed. -/
theorem one_byte_corruption_noticed {m' : Mem} {a : Nat} (accepted : exec (shmRegionValidateHeader region) m = some (true, m))
    (covered : a < RegionHeader.allocatorMutex ∨ (RegionHeader.roots ≤ a ∧ a < RegionHeader.sizeof))
    (only : ∀ x, x ≠ a → m' x = m x) (changed : m' a ≠ m a) :
    exec (shmRegionValidateHeader region) m' = some (false, m') := by
  have positive : 0 < region.base := by
    rcases Nat.eq_zero_or_pos region.base with null | positive
    · simp [shmRegionValidateHeader, null] at accepted
    · exact positive
  have repr := ((exec_validate_header positive true).mp accepted).mp rfl
  have spoiled := repr.spoiled covered (fun x out => only x (by omega)) changed
  rw [exec_validate_header positive]
  simpa using spoiled

/-- The first letter of a key of the index is overwritten. -/
theorem one_byte_corruption_noticed_key :
    exec (shmRegionValidateHeader smallRegion) published = some (true, published) ∧
      exec (shmRegionValidateHeader smallRegion) (store published 968 1 108) = some (false, store published 968 1 108) := by
  have accepted : exec (shmRegionValidateHeader smallRegion) published = some (true, published) :=
    (exec_validate_header smallRegion_mapped.base_pos true).mpr ⟨fun _ => published_valid, fun _ => rfl⟩
  refine ⟨accepted, one_byte_corruption_noticed accepted (a := 968) (by decide) ?_ ?_⟩
  · exact fun x other => store_outside (by omega)
  · have outside : published 968 = headerBytes 968 := store_outside (by omega)
    rw [outside]
    decide

end Checksum

/- Locking, initialising the locks and closing store nothing. -/
section Silent

theorem silent_lockRequest (request : Sys) : Silent (lockRequest request) := by
  unfold lockRequest
  simp only [request_bind]
  refine confined_call fun r => ?_
  split <;> exact confined_ret

theorem silent_lockOne (mutex : Nat) : Silent (shmRegionLockOne mutex) := by
  unfold shmRegionLockOne
  simp only [request_bind]
  refine confined_call fun r => ?_
  split
  · refine confined_call fun consistent => ?_
    split
    · exact confined_ret
    · refine confined_call fun unlocked => ?_
      split <;> exact confined_ret
  · split <;> exact confined_ret

theorem silent_withLock (region : ShmRegion) {lock : Code OffsetStoreStatus} (silent : Silent lock) :
    Silent (withLock region lock) := by
  unfold withLock
  split
  · exact confined_ret
  · exact silent

theorem silent_initOneMutex (mutex : Nat) : Silent (shmRegionInitOneMutex mutex) := by
  unfold shmRegionInitOneMutex
  simp only [request_bind, perform_bind]
  refine confined_call fun attr => ?_
  split
  · exact confined_ret
  refine confined_call fun pshared => ?_
  split
  · exact confined_call fun _ => confined_ret
  refine confined_call fun robust => ?_
  split
  · exact confined_call fun _ => confined_ret
  refine confined_call fun init => confined_call fun _ => ?_
  split <;> exact confined_ret

theorem silent_initOneRwlock (rwlock : Nat) : Silent (shmRegionInitOneRwlock rwlock) := by
  unfold shmRegionInitOneRwlock
  simp only [request_bind, perform_bind]
  refine confined_call fun attr => ?_
  split
  · exact confined_ret
  refine confined_call fun pshared => ?_
  split
  · exact confined_call fun _ => confined_ret
  refine confined_call fun init => confined_call fun _ => ?_
  split <;> exact confined_ret

theorem silent_initMutexes : Silent shmRegionInitMutexes := by
  unfold shmRegionInitMutexes
  refine confined_bind (silent_initOneMutex _) fun status => ?_
  split
  · exact confined_ret
  refine confined_bind (silent_initOneRwlock _) fun status => ?_
  split
  · exact confined_ret
  exact silent_initOneRwlock _

theorem silent_close (region : ShmRegion) : Silent (shmRegionClose region) := by
  have last : Silent (if region.fd ≥ 0 then (Prog.call Sys.close fun closed =>
      if closed ≠ 0 then ret (OffsetStoreStatus.systemError, region)
      else ret (OffsetStoreStatus.ok, shmRegionReset))
      else if (0 : Int) ≠ 0 then ret (OffsetStoreStatus.systemError, region)
      else ret (OffsetStoreStatus.ok, shmRegionReset)) := by
    split
    · refine confined_call fun closed => ?_
      split <;> exact confined_ret
    · split <;> exact confined_ret
  unfold shmRegionClose
  simp only [request_bind, pure_eq, ret_bind]
  split
  · refine confined_call fun unmapped => ?_
    split
    · exact confined_ret
    · exact last
  · split
    · exact confined_ret
    · exact last

theorem silent_unlink : Silent shmRegionUnlink := by
  unfold shmRegionUnlink
  simp only [request_bind]
  refine confined_call fun result => ?_
  split
  · refine confined_call fun errno => ?_
    split <;> exact confined_ret
  · exact confined_ret

end Silent

/- What a successful shm_region_create leaves. -/
section Create
variable {region : ShmRegion} {m : Mem} {answers : Sys → Int → Prop}

theorem confined_clearEntryText {off : Nat} (small : off < 2 ^ 63) :
    Confined off (off + 48) (clearEntryText region (add64 region.base off)) := by
  unfold clearEntryText
  rw [copyIn_field (by simp; omega), copyIn_field (by simp; omega)]
  refine confined_bind (confined_writeBytes (by simp) (by simp)) fun _ => ?_
  exact confined_writeBytes (by simp) (by simp)

theorem confined_initTable (table : EntryTable) {lo hi left : Nat} (low : lo ≤ table.offset)
    (high : table.offset + 48 * table.capacity ≤ hi) (small : hi < 2 ^ 63) (few : left ≤ table.capacity) :
    Confined lo hi (initTable table region region.base left) := by
  induction left with
  | zero => exact confined_ret
  | succ left ih =>
    have entry : tableEntry table region.base (table.capacity - (left + 1)) =
        add64 region.base (table.offset + 48 * (table.capacity - (left + 1))) := rfl
    rw [initTable]
    simp only [entry]
    rw [store8_field (by simp; omega), store64_field (by simp; omega)]
    simp only [storeWord_bind]
    have inner : Confined lo hi (clearEntryText region
        (add64 region.base (table.offset + 48 * (table.capacity - (left + 1))))) :=
      confined_widen (confined_clearEntryText (by omega)) (by omega) (by omega)
    refine confined_write (by simp; omega) (by simp; omega) (confined_bind inner fun _ => ?_)
    exact confined_write (by simp; omega) (by simp; omega) (ih (by omega))

/-- Bytes that are zero stay zero. -/
def KeepsZeros (m m' : Mem) : Prop := ∀ a, m a = 0 → m' a = 0

theorem KeepsZeros.trans {m m' m'' : Mem} (first : KeepsZeros m m') (second : KeepsZeros m' m'') :
    KeepsZeros m m'' := fun a zero => second a (first a zero)

theorem keepsZeros_store (m : Mem) (o k : Nat) : KeepsZeros m (store m o k 0) := by
  intro a zero
  simp only [store, Nat.zero_div]
  split
  · rfl
  · exact zero

theorem keepsZeros_storeBytes (m : Mem) (o k : Nat) : KeepsZeros m (storeBytes m o (List.replicate k 0)) := by
  induction k generalizing m o with
  | zero => exact fun _ zero => zero
  | succ k ih => exact (keepsZeros_store m o 1).trans (ih _ _)

theorem ends_zeroBytes (o k : Nat) (m : Mem) :
    Ends answers (fun _ m' => KeepsZeros m m') (writeBytes o (List.replicate k 0)) m :=
  ends_writeBytes (keepsZeros_storeBytes m o k)

theorem ends_initTable_zero (table : EntryTable) (small : table.offset + 48 * table.capacity < 2 ^ 63) {left : Nat}
    (few : left ≤ table.capacity) (m : Mem) :
    Ends answers (fun _ m' => KeepsZeros m m') (initTable table region region.base left) m := by
  induction left generalizing m with
  | zero => exact ends_ret fun _ zero => zero
  | succ left ih =>
    have entry : tableEntry table region.base (table.capacity - (left + 1)) =
        add64 region.base (table.offset + 48 * (table.capacity - (left + 1))) := rfl
    rw [initTable]
    unfold clearEntryText
    simp only [entry]
    rw [store8_field (by simp; omega), store64_field (by simp; omega), copyIn_field (by simp; omega),
      copyIn_field (by simp; omega)]
    simp only [storeWord_bind, bind_assoc]
    refine ends_write (ends_bind (ends_zeroBytes _ _ _) fun _ m₁ reserved => ?_)
    refine ends_bind (ends_zeroBytes _ _ _) fun _ m₂ name => ends_write ?_
    have cleared : KeepsZeros m m₂ := (keepsZeros_store m _ 1).trans (reserved.trans name)
    refine ends_weaken (ih (by omega) _) fun _ m' rest => ?_
    exact (cleared.trans (keepsZeros_store m₂ _ 8)).trans rest

/-- Every byte of the two tables is zero. -/
def TablesClear (m : Mem) : Prop := ∀ a, 192 ≤ a → a < 2496 → m a = 0

theorem TablesClear.congr {m m' : Mem} (clear : TablesClear m) (same : SameOn m m' 192 2496) : TablesClear m' :=
  fun a left right => (same a left right).trans (clear a left right)

/-- The four scalar fields of a header under construction. -/
structure HeaderDraft (n : Nat) (m : Mem) : Prop where
  magic : load m 0 8 = regionMagic
  version : load m 8 4 = regionVersion
  generation : load m 16 8 = 1
  total : load m 24 8 = n

theorem HeaderDraft.congr {n : Nat} {m m' : Mem} (draft : HeaderDraft n m) (same : SameOn m m' 0 32) :
    HeaderDraft n m' := by
  refine ⟨?_, ?_, ?_, ?_⟩
  · rw [load_congr (same.narrow (by omega) (by omega)), draft.magic]
  · rw [load_congr (same.narrow (by omega) (by omega)), draft.version]
  · rw [load_congr (same.narrow (by omega) (by omega)), draft.generation]
  · rw [load_congr (same.narrow (by omega) (by omega)), draft.total]

theorem ends_writeRegionHeader (word : region.size < 2 ^ 64) (m : Mem) :
    Ends answers (fun _ m' => HeaderDraft region.size m' ∧ TablesClear m') (writeRegionHeader region region.base) m := by
  unfold writeRegionHeader shmRegionInitRoots shmRegionInitIndex
  simp (disch := omega) only [RegionHeader.magic, RegionHeader.version, RegionHeader.stateFlags,
    RegionHeader.generation, RegionHeader.totalSize, copyIn_base, store64_base, store32_base]
  have zeroed : Ends answers (fun _ m' => TablesClear m')
      (writeBytes 0 (List.replicate RegionHeader.sizeof 0)) m := by
    refine ends_writeBytes fun a _ right => ?_
    have inside : storeBytes m 0 (List.replicate RegionHeader.sizeof 0) (0 + a) = _ :=
      storeBytes_inside (by rw [List.length_replicate]; exact right)
    rwa [Nat.zero_add, List.getElem_replicate] at inside
  refine ends_bind zeroed fun _ m₁ clear => ?_
  simp only [storeWord_bind]
  iterate 5 refine ends_write ?_
  generalize stored : store (store (store (store (store m₁ 0 8 regionMagic) 8 4 regionVersion)
      12 4 stateInitializing) 16 8 1) 24 8 region.size = m₂
  have draft : HeaderDraft region.size m₂ := by
    rw [← stored]
    refine ⟨?_, ?_, ?_, load_store_eight word⟩
    · simp (disch := omega) only [load_store_apart]
      exact load_store_eight (by simp)
    · simp (disch := omega) only [load_store_apart]
      exact load_store_four (by simp)
    · simp (disch := omega) only [load_store_apart]
      exact load_store_eight (by simp)
  have clear : TablesClear m₂ := by
    rw [← stored]
    refine clear.congr ?_
    exact ((((SameOn.store (by omega)).trans (SameOn.store (by omega))).trans (SameOn.store (by omega))).trans
      (SameOn.store (by omega))).trans (SameOn.store (by omega))
  have roots : Confined 192 2496 (initTable rootTable region region.base rootTable.capacity) :=
    confined_initTable rootTable (by simp) (by simp) (by omega) (Nat.le_refl _)
  have index : Confined 192 2496 (initTable indexTable region region.base indexTable.capacity) :=
    confined_initTable indexTable (by simp) (by simp) (by omega) (Nat.le_refl _)
  have rootZeros := @ends_initTable_zero region answers rootTable (by simp) _ (Nat.le_refl _) m₂
  refine ends_bind (ends_and (ends_confined roots m₂) rootZeros) fun _ m₃ first => ?_
  have indexZeros := @ends_initTable_zero region answers indexTable (by simp) _ (Nat.le_refl _) m₃
  refine ends_weaken (ends_and (ends_confined index m₃) indexZeros) fun _ m₄ second => ⟨?_, ?_⟩
  · exact (draft.congr (first.1.on (by omega))).congr (second.1.on (by omega))
  · exact fun a left right => second.2 a (first.2 a (clear a left right))

/-- Marking the region ready and storing the checksum completes the header. -/
theorem ends_finishHeader {n : Nat} {β : Type} {b : β} (post : β → Mem → Prop) (draft : HeaderDraft n m)
    (holds : ∀ m', RegionRepr n m' → SameOn m m' 192 2496 → post b m') :
    Ends answers post (do
      region.store32 region.base RegionHeader.stateFlags stateReady
      shmRegionRefreshHeaderChecksum region region.base
      return b) m := by
  unfold shmRegionRefreshHeaderChecksum
  simp (disch := omega) only [RegionHeader.stateFlags, RegionHeader.headerChecksum, store32_base, store64_base]
  simp only [storeWord_bind, bind_assoc]
  have tables : SameOn m (store (store m 12 4 stateReady) 32 8 (headerChecksum (store m 12 4 stateReady))) 192 2496 :=
    (SameOn.store (by omega)).trans (SameOn.store (by omega))
  refine ends_write (ends_bind_of_ret (burst_checksum region _) (ends_write (ends_ret (holds _ ?_ tables))))
  have low := headerChecksum_lt (store m 12 4 stateReady)
  refine ⟨?_, ?_, ?_, ?_, ?_, ?_⟩
  · simp (disch := omega) only [load_store_apart]
    exact draft.magic
  · simp (disch := omega) only [load_store_apart]
    exact draft.version
  · simp (disch := omega) only [load_store_apart]
    exact load_store_four (by simp)
  · simp (disch := omega) only [load_store_apart]
    rw [draft.generation]
    decide
  · simp (disch := omega) only [load_store_apart]
    exact draft.total
  · exact (load_store_eight low).trans (headerChecksum_store (by omega) (by omega)).symm

end Create

end OffsetStore
