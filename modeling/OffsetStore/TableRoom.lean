import OffsetStore.TableHistory

/- A put of a new key succeeds when one free block has room for the string, the value and
   the entry. -/
namespace OffsetStore
open ByteMemory Program Prog Words Pool

/-- A live allocation has the bytes of μ, and a free block has r bytes. -/
def Roomy (n : Nat) (μ : Mem) (hdr : Alloc) (m : Mem) (r : Nat) : Prop :=
  ∃ V, HeapInv n m V ∧ V.Live hdr ∧ (∃ t, t < 4 ∧ V.HasRoom t r) ∧ SameOn μ m hdr.ptr (hdr.ptr + hdr.size)

section Room
variable {n fuel r size : Nat} {region : ShmRegion} {μ m m' : Mem} {hdr : Alloc} {key : CString}

theorem Roomy.load (roomy : Roomy n μ hdr m r) {o : Nat} (left : hdr.ptr ≤ o) (right : o + 8 ≤ hdr.ptr + hdr.size) :
    ByteMemory.load m o 8 = ByteMemory.load μ o 8 := by
  obtain ⟨_, _, _, _, same⟩ := roomy
  exact load_congr (same.narrow left right)

/-- A request finds room, and the new payload may be written. -/
theorem Roomy.alloc (roomy : Roomy n μ hdr m (r + (size + 16 + 69))) (map : region.Mapped) (total : region.size = n)
    (enough : n ≤ fuel) (least : 56 ≤ r) (positive : 0 < size) (small : size ≤ n) :
    ∃ x m', exec (allocatorAlloc fuel region size 16) m = some (.ok (add64 region.base x), m') ∧ 0 < x ∧ x + size ≤ n ∧
      ∀ m'', SameOff m' m'' x (x + size) → Roomy n μ hdr m'' r := by
  obtain ⟨V, inv, live, ⟨t, shard, room⟩, same⟩ := roomy
  obtain ⟨i, pre, x, V', first, taken, alloc⟩ | ⟨none, _⟩ := exec_alloc_fit inv map total enough positive
    small (show 4 < 64 by omega) (show max 16 16 = 2 ^ 4 from rfl)
  · have mine := (taken.live _).mpr (Or.inr rfl)
    have bounds := taken.inv.live_bounds mine
    have other := (taken.live hdr).mpr (Or.inl live)
    simp only [carved] at bounds
    unfold heapBase at bounds
    refine ⟨_, _, alloc, by omega, by omega, fun m'' inside => ?_⟩
    refine ⟨V', taken.inv.write_payload mine inside, other, ⟨t, shard, taken.room t r shard least room⟩, ?_⟩
    refine (same.trans (taken.payload hdr live)).trans (inside.on ?_)
    rcases taken.inv.live_apart mine other with eq | apart | apart
    · exact absurd (eq ▸ live) taken.fresh
    · exact Or.inr apart
    · exact Or.inl apart
  · obtain ⟨b, mem, free, large⟩ := room
    have fit : required b.start size 16 ≤ b.size := by
      have bound := @required_le b.start size 16 (Nat.le_refl 16)
      omega
    obtain ⟨s, less, y, listed, fits⟩ := (inv.fit_iff 16).mp ⟨t, shard, b, mem, free, fit⟩
    exact absurd fits (Nat.not_le.mpr (none s less y listed))

theorem Roomy.allocString (map : region.Mapped) (total : region.size = n) (enough : n ≤ fuel) (least : 56 ≤ r) {maxLen : Nat}
    (roomy : Roomy n μ hdr m (r + (5 + (key.bytes.take maxLen).length + 16 + 69))) (small : 5 + (key.bytes.take maxLen).length ≤ n) :
    ∃ off m', exec (hashtableAllocString fuel region key maxLen) m = some (off, m') ∧ off ≠ 0 ∧ Roomy n μ hdr m' r := by
  have user := map.user
  have cut : (if key.bytes.length > maxLen then maxLen else key.bytes.length) = (key.bytes.take maxLen).length := by
    rw [List.length_take]
    split
    · omega
    · omega
  have taken : key.bytes.take (key.bytes.take maxLen).length = key.bytes.take maxLen := by
    rw [List.length_take, List.take_eq_take_iff]
    omega
  unfold hashtableAllocString
  simp only [cut, taken]
  generalize key.bytes.take maxLen = stored at roomy small
  have four : add64 4 stored.length = 4 + stored.length := add64_eq (by omega)
  have sized : add64 (add64 4 stored.length) 1 = 5 + stored.length := by
    rw [four, add64_eq (by omega)]
    omega
  obtain ⟨x, m₁, alloc, positive, inside, after⟩ := roomy.alloc map total enough least (by omega) small
  rw [sized, exec_bind_of_some alloc]
  simp (disch := omega) only [store32_field, store8_field, copyIn_field]
  simp only [storeWord_bind, exec_write]
  rw [exec_bind_of_some (exec_writeBytes _ _ _)]
  simp only [exec_write, from_raw_eq_some map positive (show x < region.size by omega)]
  refine ⟨x, _, rfl, by omega, after _ ?_⟩
  intro y out
  rw [store_outside (by omega), storeBytes_outside (by omega), store_outside (by omega)]

theorem Roomy.allocEntry (roomy : Roomy n μ hdr m (r + (24 + 16 + 69))) (map : region.Mapped) (total : region.size = n)
    (enough : n ≤ fuel) (least : 56 ≤ r) (small : 24 ≤ n) (keyOff valOff nextOff : Nat) :
    ∃ off m', exec (hashtableAllocEntry fuel region keyOff valOff nextOff) m = some (off, m') ∧ off ≠ 0 := by
  have user := map.user
  obtain ⟨x, m₁, alloc, positive, inside, after⟩ := roomy.alloc map total enough least (by omega) small
  unfold hashtableAllocEntry
  rw [show HashTableEntry.sizeof = 24 from rfl, exec_bind_of_some alloc]
  simp (disch := omega) only [HashTableEntry.keyOffset, HashTableEntry.valueOffset, HashTableEntry.next, store64_field]
  simp only [storeWord_bind, exec_write, from_raw_eq_some map positive (show x < region.size by omega)]
  exact ⟨x, _, rfl, by omega⟩

/-- Room for a string of k bytes, a value of v bytes and an entry. -/
def roomFor (k v : Nat) : Nat := 56 + (24 + 16 + 69) + (v + 16 + 69) + (5 + k + 16 + 69)

theorem insert_succeeds {p : TableParams} {cell : Nat} {value : Mem} {rc : Int} (map : region.Mapped) (total : region.size = n)
    (enough : n ≤ fuel) (roomy : Roomy n m hdr m (roomFor (key.bytes.take p.keySize).length p.valSize))
    (size : hdr.size = 88) (keySize : load m (hdr.ptr + 8) 8 = p.keySize) (valSize : load m (hdr.ptr + 16) 8 = p.valSize)
    (positive : 0 < p.valSize) (small : roomFor (key.bytes.take p.keySize).length p.valSize ≤ n)
    (run : exec (hashtableInsert fuel region (add64 region.base hdr.ptr) cell key value) m = some (rc, m')) : rc = 0 := by
  have user := map.user
  have bounds : hdr.ptr + hdr.size ≤ n := by
    obtain ⟨V, inv, live, _⟩ := roomy
    exact (inv.live_bounds live).2.2
  unfold roomFor at roomy small
  obtain ⟨keyOff, m₁, string, named, roomy₁⟩ := roomy.allocString map total enough (by omega) (by omega)
  have valSize₁ : load m₁ (hdr.ptr + 16) 8 = p.valSize := by rw [roomy₁.load (by omega) (by omega), valSize]
  obtain ⟨x, m₂, alloc, positiveX, inside, after⟩ := roomy₁.alloc map total enough (by omega) positive (by omega)
  have valSize₂ : load m₂ (hdr.ptr + 16) 8 = p.valSize := by
    rw [(after m₂ fun _ _ => rfl).load (by omega) (by omega), valSize]
  unfold hashtableInsert at run
  simp (disch := omega) only [HashTableHeader.keySize, HashTableHeader.valSize, load64_field] at run
  simp only [loadWord_bind, exec_read, keySize] at run
  rw [exec_bind_of_some string, if_neg (by simpa [offsetPtrIsNull] using named)] at run
  simp only [exec_read, valSize₁] at run
  rw [exec_bind_of_some alloc] at run
  simp (disch := omega) only [exec_read, valSize₂, copyIn_field] at run
  rw [exec_bind_of_some (exec_writeBytes _ _ _)] at run
  have length := loadBytes_length value 0 p.valSize
  have written := after (storeBytes m₂ (x + 0) (loadBytes value 0 p.valSize)) fun y out => storeBytes_outside (by omega)
  simp only [from_raw_eq_some map positiveX (show x < region.size by omega), ShmRegion.load64, loadWord_bind, exec_read] at run
  obtain ⟨off, m₃, entry, made⟩ := written.allocEntry map total enough (by omega) (by omega) keyOff x
    (ByteMemory.load (storeBytes m₂ (x + 0) (loadBytes value 0 p.valSize)) (region.offsetOf (add64 cell 0)) 8)
  rw [exec_bind_of_some entry, if_neg (by simpa [offsetPtrIsNull] using made)] at run
  have results : Results (fun rc => rc = 0) (region.store64 cell 0 off >>= fun _ =>
      hashtableUnlock region (add64 region.base hdr.ptr) >>= fun _ => (ret 0 : Code Int)) :=
    results_bind _ fun _ => results_bind _ fun _ => results_ret rfl
  exact results_exec results run

end Room

section Lookup
variable {region : ShmRegion} {key : CString}

theorem loads_keysEqual (keyOffset : Nat) : Loads (hashtableKeysEqual region keyOffset key) := by
  unfold hashtableKeysEqual hashtableResolveString ShmRegion.load32
  refine loads_bind ?_ fun resolved => ?_
  · split
    · exact loads_ret
    · simp only [loadWord_bind]
      refine loads_read fun len => ?_
      split
      · exact loads_ret
      · exact loads_ret
  · split
    · exact loads_ret
    · simp only [loadWord_bind]
      refine loads_read fun len => loads_ite loads_ret ?_
      exact loads_bind (loads_readBytes _ _) fun _ => loads_ret

theorem loads_find (fuel prev entryOff : Nat) : Loads (hashtableFind region key fuel prev entryOff) := by
  induction fuel generalizing prev entryOff with
  | zero => exact loads_spin
  | succ fuel ih =>
    rw [hashtableFind]
    refine loads_ite loads_ret ?_
    split
    · exact loads_ret
    · simp only [ShmRegion.load64, loadWord_bind]
      refine loads_read fun _ => loads_bind (loads_keysEqual _) fun equal => ?_
      exact loads_ite loads_ret (loads_read fun _ => ih _ _)

theorem loads_lookup (fuel hdr : Nat) : Loads (hashtableLookup fuel region hdr key) := by
  unfold hashtableLookup hashtableBuckets ShmRegion.load64
  simp only [loadWord_bind]
  refine loads_read fun _ => loads_bind (loads_read fun _ => loads_read fun _ => loads_ret) fun buckets => ?_
  split
  · exact loads_ret
  · exact loads_read fun _ => loads_bind (loads_find _ _ _) fun _ => loads_ret

end Lookup

section Put
variable {n fuel : Nat} {S : Set Alloc} {p : TableParams} {hdr array : Alloc} {items : List Item} {region : ShmRegion}
  {m : Mem} {key : CString}

/-- A key that no item answers for is inserted when there is room. -/
theorem put_succeeds (held : TableHeld n S p hdr array items m) (map : region.Mapped) (total : region.size = n)
    (enough : n ≤ fuel) (misses : ∀ x ∈ items, ¬x.Answers p key)
    (roomy : Roomy n m hdr m (roomFor (key.bytes.take p.keySize).length p.valSize))
    (small : roomFor (key.bytes.take p.keySize).length p.valSize ≤ n) (value : Mem) :
    ∃ m' it, exec (hashtablePut fuel region hdr.ptr key value) m = some (0, m') ∧ it.stored = key.bytes.take p.keySize ∧
      TableHeld n S p hdr array (it :: items) m' := by
  have user := map.user
  have room : roomFor (key.bytes.take p.keySize).length p.valSize ≤ 2 ^ 56 := by omega
  unfold roomFor at room
  have bound : (key.bytes.take p.keySize).length + 128 ≤ 2 ^ 64 := by omega
  obtain ⟨rc, m', items', ran, outcome, after⟩ := held.put map total enough bound (by omega) value
  cases outcome with
  | updated hit a => exact absurd hit (misses _ (List.mem_append_right _ List.mem_cons_self))
  | inserted _ _ stored _ => exact ⟨m', _, ran, stored, after⟩
  | full _ =>
    obtain ⟨looked, m₁, L₁, μ₁, found, ⟨_, _, shown⟩, _⟩ := held.lookup map total enough key
    obtain ⟨rfl, _⟩ := (loads_exec (loads_lookup _ _)).mp found
    have resolved := resolve_table map total (held.beside.heap.footprint.mono Set.subset_union_left) held.stands tableFoot_header
    unfold hashtablePut hashtableLock at ran
    simp only [resolved] at ran
    rw [exec_bind_of_some (exec_containerLock _ _), exec_bind_of_some found] at ran
    cases looked with
    | none => exact False.elim shown
    | some looked =>
      obtain ⟨cell, result⟩ := looked
      cases result with
      | some result =>
        obtain ⟨_, pre, it, post, rfl, hit, _⟩ := shown
        exact absurd hit (misses it (by simp))
      | none =>
        have zero := insert_succeeds map total enough roomy held.stands.size.1 held.stands.keySize held.stands.valSize
          held.stands.positive.2.2 small ran
        simp at zero

end Put

end OffsetStore
