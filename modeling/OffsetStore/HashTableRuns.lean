import OffsetStore.HashTableShape

/- What the calls of the hash table do to the memory that the table owns. An item answers
   for a key when its stored length and characters are those of the key; a key that was
   cut on its way in is stored shorter than it is asked for. -/
namespace OffsetStore
open ByteMemory Program Prog Words Pool CellChain

/-- The comparison of hashtable_keys_equal. -/
def Item.Matches (it : Item) (key : CString) : Prop :=
  it.stored.length % 2 ^ 32 = key.bytes.length ∧ it.stored.take key.bytes.length = key.bytes

instance (it : Item) (key : CString) : Decidable (it.Matches key) := instDecidableAnd

/-- The item is found for the key: it lies in the chain of the key's bucket and matches. -/
def Item.Answers (p : TableParams) (key : CString) (it : Item) : Prop :=
  it.bucket = hashtableHash key p.numBuckets ∧ it.Matches key

instance (p : TableParams) (key : CString) (it : Item) : Decidable (it.Answers p key) := instDecidableAnd

/-- The bytes of L are the same before and after. -/
def Kept (L : Set Alloc) (μ μ' : Mem) : Prop := ∀ b ∈ L, SameOn μ μ' b.ptr (b.ptr + b.size)

section Kept
variable {n : Nat} {L L' : Set Alloc} {μ μ' μ'' : Mem} {a : Alloc}

theorem Kept.trans (first : Kept L μ μ') (second : Kept L μ' μ'') : Kept L μ μ'' :=
  fun b mb => (first b mb).trans (second b mb)

theorem Kept.mono (kept : Kept L μ μ') (sub : L' ⊆ L) : Kept L' μ μ' := fun b mb => kept b (sub mb)

/-- Changes inside a new payload. -/
theorem kept_new (foot : Footprint n (insert a L)) (fresh : a ∉ L) (inside : SameOff μ μ' a.ptr (a.ptr + a.size)) :
    Kept L μ μ' := by
  intro b mb
  refine inside.on ?_
  have apart := foot.disjoint (Set.mem_insert a L) (Set.mem_insert_of_mem a mb) fun same => fresh (same ▸ mb)
  omega

end Kept

section Parts
variable {p : TableParams} {hdr array : Alloc} {items : List Item} {it : Item} {μ : Mem} {n fuel v : Nat}
  {region : ShmRegion} {L : Set Alloc} {key : CString}

theorem resolve_table (map : region.Mapped) (total : region.size = n) (foot : Footprint n L)
    (stands : TableStands p hdr array items μ) (mem : hdr ∈ L) :
    hashtableResolveHeader region hdr.ptr = some (add64 region.base hdr.ptr) := by
  have bounds := foot.bounds hdr mem
  have size := stands.size.1
  unfold heapBase at bounds
  exact resolve_eq_some map (by omega) (by omega) (by simp only [HashTableHeader.sizeof]; omega)

/-- A new key string, or nothing. -/
def keyMade (stored : List UInt8) (L : Set Alloc) (μ : Mem) (off : Nat) (L' : Set Alloc) (μ' : Mem) : Prop :=
  (off = 0 ∧ L' = L ∧ μ' = μ) ∨ (0 < off ∧ ∃ a, a ∉ L ∧ L' = insert a L ∧ Kept L μ μ' ∧ off = a.ptr ∧ a.align = 16 ∧
    a.size = 5 + stored.length ∧ load μ' a.ptr 4 = stored.length % 2 ^ 32 ∧
    loadBytes μ' (a.ptr + 4) stored.length = stored)

theorem does_allocString (map : region.Mapped) (total : region.size = n) (large : 2728 ≤ n) (enough : n ≤ fuel)
    {maxLen : Nat} (bound : (key.bytes.take maxLen).length + 128 ≤ 2 ^ 64) :
    Does n L μ (hashtableAllocString fuel region key maxLen) (keyMade (key.bytes.take maxLen) L μ) := by
  have cut : (if key.bytes.length > maxLen then maxLen else key.bytes.length) = (key.bytes.take maxLen).length := by
    rw [List.length_take]
    split
    · omega
    · omega
  have taken : key.bytes.take (key.bytes.take maxLen).length = key.bytes.take maxLen := by
    rw [List.length_take, List.take_eq_take_iff]
    omega
  unfold hashtableAllocString
  simp only [cut, taken]
  generalize key.bytes.take maxLen = stored at bound
  have four : add64 4 stored.length = 4 + stored.length := add64_eq (by omega)
  have sized : add64 (add64 4 stored.length) 1 = 5 + stored.length := by
    rw [four, add64_eq (by omega)]
    omega
  rw [sized]
  refine does_bind (does_alloc map total large enough (by omega) (by omega)) ?_
  intro result L' μ' holds
  cases result with
  | error status =>
    obtain ⟨sameL, sameM⟩ := holds
    exact does_ret (Or.inl ⟨rfl, sameL, sameM⟩)
  | ok ptr =>
    obtain ⟨a, fresh, grown, kept, address, size, align⟩ := holds
    subst grown address
    have mem : a ∈ insert a L := Set.mem_insert a L
    refine does_foot fun foot => ?_
    have bounds := foot.bounds a mem
    unfold heapBase at bounds
    refine does_store32 map total mem (by omega) (by omega) ?_
    refine does_bind (does_copyIn map total mem (by omega) (by omega)) ?_
    rintro _ L₁ μ₁ ⟨rfl, rfl⟩
    refine does_store8 map total mem (by omega) (by omega) ?_
    rw [from_raw_eq_some map (by omega) (by omega)]
    refine does_ret (Or.inr ⟨by omega, a, fresh, rfl, Kept.trans kept (kept_new foot fresh ?_), rfl, by simpa using align,
      size, ?_, ?_⟩)
    · intro x out
      rw [store_outside (by omega), storeBytes_outside (by omega), store_outside (by omega)]
    · rw [load_store_apart (by omega), load_congr (SameOn.storeBytes (by omega)), Nat.add_zero]
      exact load_store_four (Nat.mod_lt _ (by omega))
    · rw [loadBytes_congr (SameOn.store (by omega))]
      exact loadBytes_storeBytes _ _ _

theorem does_keysEqual (map : region.Mapped) (total : region.size = n) (stands : ItemStands v it μ)
    (mem : it.key ∈ L) :
    Does n L μ (hashtableKeysEqual region it.key.ptr key)
      (fun b L' μ' => b = decide (it.Matches key) ∧ L' = L ∧ μ' = μ) := by
  have user := map.user
  have size := stands.keySize
  refine does_foot fun foot => ?_
  have bounds := foot.bounds it.key mem
  unfold heapBase at bounds
  have short : it.stored.length % 2 ^ 32 ≤ it.stored.length := Nat.mod_le _ _
  have first : offsetPtrTryResolve region.base region.size it.key.ptr 4 = some (add64 region.base it.key.ptr) :=
    resolve_eq_some map (by omega) (by omega) (by omega)
  have second : offsetPtrTryResolve region.base region.size it.key.ptr
      (add64 (add64 4 (it.stored.length % 2 ^ 32)) 1) = some (add64 region.base it.key.ptr) := by
    have four : add64 4 (it.stored.length % 2 ^ 32) = 4 + it.stored.length % 2 ^ 32 := add64_eq (by omega)
    rw [four, add64_eq (by omega)]
    exact resolve_eq_some map (by omega) (by omega) (by omega)
  have back : sub64 (add64 (add64 region.base it.key.ptr) 4) 4 = add64 region.base it.key.ptr := by
    unfold sub64 add64
    omega
  have chars : add64 (add64 region.base it.key.ptr) 4 = add64 region.base (it.key.ptr + 4) := add64_add64 _ _ _
  unfold hashtableKeysEqual hashtableResolveString
  simp only [first, Prog.bind_assoc]
  refine does_load32 map total mem (by omega) (by omega) stands.length ?_
  simp only [second, pure_eq, ret_bind, back]
  refine does_load32 map total mem (by omega) (by omega) stands.length ?_
  by_cases same : it.stored.length % 2 ^ 32 = key.bytes.length
  · rw [if_neg (by simpa using same), chars]
    refine does_copyOut map total mem (by omega) (by omega) (does_ret ⟨?_, rfl, rfl⟩)
    have prefixed : loadBytes μ (it.key.ptr + 4 + 0) (it.stored.length % 2 ^ 32) =
        it.stored.take key.bytes.length := by
      have part := loadBytes_take (m := μ) (o := it.key.ptr + 4) (same ▸ short)
      rw [stands.chars] at part
      rw [same, part]
    rw [prefixed]
    simp only [Item.Matches, same, true_and]
  · rw [if_pos same]
    exact does_ret ⟨(decide_eq_false fun both => same both.1).symm, rfl, rfl⟩

/-- What the search from cell c on finds in a chain: nothing, or the first item that
    matches and the entry before it, which is prev for the first one. -/
def FoundEntry (region : ShmRegion) (key : CString) (c prev : Nat) (row : List Item) : Option (Nat × Nat) → Prop
  | none => ∀ x ∈ row, ¬x.Matches key
  | some (before, entry) => ∃ pre it post, row = pre ++ it :: post ∧ it.Matches key ∧ (∀ x ∈ pre, ¬x.Matches key) ∧
      entry = add64 region.base it.node.ptr ∧ ((pre = [] ∧ before = prev) ∨ (before ≠ 0 ∧ (∃ x ∈ pre, before = x.node.ptr) ∧
        cellAfter 16 c (pre.map fun x => x.node.ptr) = before + 16))

theorem FoundEntry.later {c prev : Nat} {row : List Item} {x : Item} {r : Option (Nat × Nat)} (positive : x.node.ptr ≠ 0)
    (other : ¬x.Matches key) (found : FoundEntry region key (x.node.ptr + 16) x.node.ptr row r) :
    FoundEntry region key c prev (x :: row) r := by
  cases r with
  | none =>
    intro y my
    rcases List.mem_cons.mp my with rfl | later
    · exact other
    · exact found y later
  | some result =>
    obtain ⟨pre, it, post, rfl, hit, misses, address, before⟩ := found
    refine ⟨x :: pre, it, post, rfl, hit, ?_, address, Or.inr ?_⟩
    · intro y my
      rcases List.mem_cons.mp my with rfl | later
      · exact other
      · exact misses y later
    · rcases before with ⟨rfl, same⟩ | ⟨nonzero, ⟨y, my, same⟩, cell⟩
      · rw [same]
        exact ⟨positive, ⟨x, List.mem_cons_self, rfl⟩, rfl⟩
      · exact ⟨nonzero, ⟨y, List.mem_cons_of_mem x my, same⟩, cell⟩

theorem resolve_entry (map : region.Mapped) (total : region.size = n) (foot : Footprint n L)
    (stands : ItemStands v it μ) (mem : it.node ∈ L) :
    offsetPtrTryResolve region.base region.size it.node.ptr HashTableEntry.sizeof = some (add64 region.base it.node.ptr) := by
  have bounds := foot.bounds it.node mem
  have size := stands.nodeSize
  unfold heapBase at bounds
  exact resolve_eq_some map (by omega) (by omega) (by simp only [HashTableEntry.sizeof]; omega)

theorem does_find (map : region.Mapped) (total : region.size = n) {row : List Item}
    (each : ∀ x ∈ row, ItemStands v x μ ∧ x.node ∈ L ∧ x.key ∈ L) {c prev : Nat}
    (chain : Chain (fun c => load μ c 8) 16 c (row.map fun x => x.node.ptr)) (enough : row.length < fuel) :
    Does n L μ (hashtableFind region key fuel prev (load μ c 8))
      (fun r L' μ' => L' = L ∧ μ' = μ ∧ FoundEntry region key c prev row r) := by
  induction row generalizing c prev fuel with
  | nil =>
    obtain ⟨fuel, rfl⟩ := Nat.exists_eq_succ_of_ne_zero (Nat.ne_of_gt enough)
    rw [show load μ c 8 = 0 from chain, hashtableFind]
    exact does_ret ⟨rfl, rfl, by simp [FoundEntry]⟩
  | cons x row ih =>
    obtain ⟨fuel, rfl⟩ := Nat.exists_eq_succ_of_ne_zero (Nat.ne_of_gt (Nat.lt_of_le_of_lt (Nat.zero_le _) enough))
    obtain ⟨first, positive, rest⟩ := chain
    obtain ⟨stands, node, keyIn⟩ := each x List.mem_cons_self
    have size := stands.nodeSize
    refine does_foot fun foot => ?_
    simp only at first
    rw [first, hashtableFind, if_neg (by simpa using positive)]
    simp only [resolve_entry map total foot stands node]
    refine does_load64 map total node (by omega) (by simp only [HashTableEntry.keyOffset]; omega) stands.keyOffset ?_
    refine does_bind (does_keysEqual map total stands keyIn) ?_
    rintro b L' μ' ⟨rfl, rfl, rfl⟩
    by_cases hit : x.Matches key
    · simp only [hit, decide_true, if_true]
      exact does_ret ⟨rfl, rfl, [], x, row, rfl, hit, by simp, rfl, Or.inl ⟨rfl, rfl⟩⟩
    · simp only [hit, decide_false, Bool.false_eq_true, if_false]
      refine does_load64 map total node (by simp only [HashTableEntry.next]; omega)
        (by simp only [HashTableEntry.next]; omega) rfl ?_
      simp only [HashTableEntry.next]
      refine does_weaken (ih (fun y my => each y (List.mem_cons_of_mem x my)) rest
        (by rw [List.length_cons] at enough; omega)) ?_
      rintro r L' μ' ⟨rfl, rfl, found⟩
      exact ⟨rfl, rfl, found.later positive hit⟩

theorem hash_lt (positive : 0 < p.numBuckets) : hashtableHash key p.numBuckets < p.numBuckets := Nat.mod_lt _ positive

/-- There are fewer items than bytes. -/
theorem items_short (foot : Footprint n L) (whole : tableFoot hdr array items ⊆ L)
    (layout : TableLayout p hdr array items) : items.length < n := by
  have nodup : (0 :: items.map fun x => x.node.ptr).Nodup := by
    refine List.nodup_cons.mpr ⟨?_, layout.ptrs_nodup⟩
    intro mem
    obtain ⟨x, mx, same⟩ := List.mem_map.mp mem
    have bounds := foot.bounds x.node (whole (tableFoot_item mx node_mem))
    unfold heapBase at bounds
    omega
  have bounds := foot.bounds hdr (whole tableFoot_header)
  have inside : (0 :: items.map fun x => x.node.ptr) ⊆ List.range n := by
    intro c mem
    rw [List.mem_range]
    rcases List.mem_cons.mp mem with rfl | later
    · omega
    · obtain ⟨x, mx, rfl⟩ := List.mem_map.mp later
      have bounds := foot.bounds x.node (whole (tableFoot_item mx node_mem))
      omega
  have short := (nodup.subperm inside).length_le
  rw [List.length_cons, List.length_map, List.length_range] at short
  omega

theorem chain_short (items : List Item) (i : Nat) : (chainItems items i).length ≤ items.length :=
  List.length_filter_le _ _

/-- The search brings the cell of the key's bucket, and the newest item that answers. -/
def Looked (region : ShmRegion) (p : TableParams) (array : Alloc) (key : CString) (items : List Item) :
    Option (Nat × Option (Nat × Nat)) → Prop
  | none => False
  | some (cell, none) => cell = add64 region.base (array.ptr + 8 * hashtableHash key p.numBuckets) ∧
      ∀ x ∈ items, ¬x.Answers p key
  | some (cell, some (before, entry)) => cell = add64 region.base (array.ptr + 8 * hashtableHash key p.numBuckets) ∧
      ∃ pre it post, items = pre ++ it :: post ∧ it.Answers p key ∧ (∀ x ∈ pre, ¬x.Answers p key) ∧
        entry = add64 region.base it.node.ptr ∧
        ((before = 0 ∧ cellOf array pre it = array.ptr + 8 * hashtableHash key p.numBuckets) ∨
          (before ≠ 0 ∧ (∃ x ∈ pre, before = x.node.ptr) ∧ cellOf array pre it = before + 16))

theorem looked_of_found {r : Option (Nat × Nat)} {cell : Nat}
    (found : FoundEntry region key (array.ptr + 8 * hashtableHash key p.numBuckets) 0
      (chainItems items (hashtableHash key p.numBuckets)) r)
    (address : cell = add64 region.base (array.ptr + 8 * hashtableHash key p.numBuckets)) :
    Looked region p array key items (some (cell, r)) := by
  cases r with
  | none =>
    refine ⟨address, fun x mx answers => ?_⟩
    exact found x (mem_chainItems.mpr ⟨mx, answers.1⟩) answers.2
  | some result =>
    obtain ⟨rowPre, it, rowPost, split, hit, misses, entry, before⟩ := found
    obtain ⟨l₁, l₂, rfl, first, second⟩ := List.filter_eq_append_iff.mp split
    obtain ⟨l₃, post, rfl, skipped, here, _⟩ := List.filter_eq_cons_iff.mp second
    have bucket : it.bucket = hashtableHash key p.numBuckets := by simpa using here
    have row : chainItems (l₁ ++ l₃) (hashtableHash key p.numBuckets) = rowPre := by
      rw [chainItems_append]
      unfold chainItems
      rw [first, List.filter_eq_nil_iff.mpr skipped, List.append_nil]
    have cells : cellOf array (l₁ ++ l₃) it = cellAfter 16 (array.ptr + 8 * hashtableHash key p.numBuckets)
        (rowPre.map fun x => x.node.ptr) := by
      unfold cellOf chainPtrs
      rw [bucket, row]
    refine ⟨address, l₁ ++ l₃, it, post, by simp, ⟨bucket, hit⟩, ?_, entry, ?_⟩
    · intro x mx answers
      exact misses x (row ▸ mem_chainItems.mpr ⟨mx, answers.1⟩) answers.2
    · rw [cells]
      rcases before with ⟨rfl, same⟩ | ⟨nonzero, ⟨x, mx, same⟩, cell⟩
      · exact Or.inl ⟨same, rfl⟩
      · exact Or.inr ⟨nonzero, ⟨x, (mem_chainItems.mp (row ▸ mx)).1, same⟩, cell⟩

theorem does_buckets (map : region.Mapped) (total : region.size = n) (stands : TableStands p hdr array items μ)
    (whole : tableFoot hdr array items ⊆ L) {α : Type} {f : Option Nat → Code α}
    {post : α → Set Alloc → Mem → Prop} (rest : Does n L μ (f (some (add64 region.base array.ptr))) post) :
    Does n L μ (hashtableBuckets region (add64 region.base hdr.ptr) >>= f) post := by
  have user := map.user
  have header := whole tableFoot_header
  have size := stands.size.1
  have width := stands.arraySize.1
  refine does_foot fun foot => ?_
  have bounds := foot.bounds array (whole tableFoot_array)
  unfold heapBase at bounds
  have resolved : offsetPtrTryResolve region.base region.size array.ptr (mul64 p.numBuckets 8) =
      some (add64 region.base array.ptr) := by
    rw [mul64_eq (by omega)]
    exact resolve_eq_some map (by omega) (by omega) (by omega)
  unfold hashtableBuckets
  simp only [Prog.bind_assoc, HashTableHeader.buckets, HashTableHeader.numBuckets]
  refine does_load64 map total header (by omega) (by omega) stands.buckets ?_
  refine does_load64 map total header (by omega) (by omega) stands.numBuckets ?_
  rw [resolved]
  exact rest

theorem does_lookup (map : region.Mapped) (total : region.size = n) (enough : n ≤ fuel)
    (stands : TableStands p hdr array items μ) (whole : tableFoot hdr array items ⊆ L) :
    Does n L μ (hashtableLookup fuel region (add64 region.base hdr.ptr) key)
      (fun r L' μ' => L' = L ∧ μ' = μ ∧ Looked region p array key items r) := by
  have user := map.user
  have header := whole tableFoot_header
  have size := stands.size.1
  have width := stands.arraySize.1
  have bucket : hashtableHash key p.numBuckets < p.numBuckets := hash_lt stands.positive.1
  refine does_foot fun foot => ?_
  have bounds := foot.bounds array (whole tableFoot_array)
  have short := items_short foot whole (stands.layout foot whole)
  have row := chain_short items (hashtableHash key p.numBuckets)
  unfold hashtableLookup
  simp only [HashTableHeader.numBuckets]
  refine does_load64 map total header (by omega) (by omega) stands.numBuckets ?_
  refine does_buckets map total stands whole ?_
  have step : mul64 8 (hashtableHash key p.numBuckets) = 8 * hashtableHash key p.numBuckets := mul64_eq (by omega)
  simp only [step, add64_add64]
  refine does_load64 map total (whole tableFoot_array) (by omega) (by omega) rfl ?_
  have each : ∀ x ∈ chainItems items (hashtableHash key p.numBuckets), ItemStands p.valSize x μ ∧ x.node ∈ L ∧
      x.key ∈ L := by
    intro x mx
    have mem := (mem_chainItems.mp mx).1
    exact ⟨stands.each x mem, whole (tableFoot_item mem node_mem), whole (tableFoot_item mem key_mem)⟩
  refine does_bind (does_find map total each (stands.chains _ bucket) (by omega)) ?_
  rintro r L' μ' ⟨rfl, rfl, found⟩
  exact does_ret ⟨rfl, rfl, looked_of_found found rfl⟩

theorem does_freeString (map : region.Mapped) (total : region.size = n) {a : Alloc} (mem : a ∈ L) (size : 4 ≤ a.size)
    (plain : a.align = 16) :
    Does n L μ (hashtableFreeString region a.ptr) (fun _ L' μ' => L' = L \ {a} ∧ μ' = μ) := by
  refine does_foot fun foot => ?_
  have bounds := foot.bounds a mem
  unfold heapBase at bounds
  have resolved : offsetPtrTryResolve region.base region.size a.ptr 4 = some (add64 region.base a.ptr) :=
    resolve_eq_some map (by omega) (by omega) (by omega)
  unfold hashtableFreeString
  simp only [resolved]
  refine does_bind (does_free map total mem plain) ?_
  rintro status L' μ' ⟨rfl, rfl, rfl⟩
  exact does_ret ⟨rfl, rfl⟩

theorem does_freeKey (map : region.Mapped) (total : region.size = n) (stands : ItemStands v it μ) (node : it.node ∈ L)
    (mem : it.key ∈ L) :
    Does n L μ (hashtableFreeKey region (add64 region.base it.node.ptr)) (fun _ L' μ' => L' = L \ {it.key} ∧ μ' = μ) := by
  have nodeSize := stands.nodeSize
  have size := stands.keySize
  refine does_foot fun foot => ?_
  have bounds := foot.bounds it.key mem
  have present : offsetPtrIsNull it.key.ptr = false := by
    simp [offsetPtrIsNull]
    omega
  unfold hashtableFreeKey
  simp only [HashTableEntry.keyOffset]
  refine does_load64 map total node (by omega) (by omega) stands.keyOffset ?_
  simp only [present, Bool.false_eq_true, if_false]
  exact does_freeString map total mem (by omega) (stands.plain _ key_mem)

theorem does_freeValue (map : region.Mapped) (total : region.size = n) (stands : ItemStands v it μ)
    (node : it.node ∈ L) (mem : it.val ∈ L) (header : hdr ∈ L) (size : hdr.size = 88)
    (word : load μ (hdr.ptr + 16) 8 = v) :
    Does n L μ (hashtableFreeValue region (add64 region.base hdr.ptr) (add64 region.base it.node.ptr))
      (fun _ L' μ' => L' = L \ {it.val} ∧ μ' = μ) := by
  have nodeSize := stands.nodeSize
  have width := stands.valSize
  refine does_foot fun foot => ?_
  have bounds := foot.bounds it.val mem
  unfold heapBase at bounds
  have resolved : offsetPtrTryResolve region.base region.size it.val.ptr v = some (add64 region.base it.val.ptr) :=
    resolve_eq_some map (by omega) (by omega) (by omega)
  have present : offsetPtrIsNull it.val.ptr = false := by
    simp [offsetPtrIsNull]
    omega
  unfold hashtableFreeValue
  simp only [HashTableEntry.valueOffset, HashTableHeader.valSize]
  refine does_load64 map total node (by omega) (by omega) stands.valueOffset ?_
  simp only [present, Bool.false_eq_true, if_false]
  refine does_load64 map total header (by omega) (by omega) word ?_
  simp only [resolved]
  refine does_bind (does_free map total mem (stands.plain _ val_mem)) ?_
  rintro status L' μ' ⟨rfl, rfl, rfl⟩
  exact does_ret ⟨rfl, rfl⟩

/-- What an item owned is given back, the entry last. -/
theorem does_freeItem (map : region.Mapped) (total : region.size = n) (stands : ItemStands v it μ)
    (distinct : it.node ≠ it.key ∧ it.node ≠ it.val ∧ it.key ≠ it.val) (mine : ∀ a ∈ it.allocs, a ∈ L)
    (header : hdr ∈ L) (other : hdr ∉ it.allocs) (size : hdr.size = 88) (word : load μ (hdr.ptr + 16) 8 = v)
    {α : Type} {f : OffsetStoreStatus → Code α} {post : α → Set Alloc → Mem → Prop}
    (rest : ∀ status, Does n (L \ {a | a ∈ it.allocs}) μ (f status) post) :
    Does n L μ (hashtableFreeKey region (add64 region.base it.node.ptr) >>= fun _ =>
      hashtableFreeValue region (add64 region.base hdr.ptr) (add64 region.base it.node.ptr) >>= fun _ =>
      allocatorFree region (add64 region.base it.node.ptr) >>= f) post := by
  obtain ⟨nodeKey, nodeVal, keyVal⟩ := distinct
  simp only [Item.allocs, List.mem_cons, List.not_mem_nil, or_false, not_or] at other
  refine does_bind (does_freeKey map total stands (mine _ node_mem) (mine _ key_mem)) ?_
  rintro _ L₁ μ₁ ⟨rfl, rfl⟩
  refine does_bind (does_freeValue map total stands ⟨mine _ node_mem, nodeKey⟩ ⟨mine _ val_mem, keyVal.symm⟩
    ⟨header, other.2.1⟩ size word) ?_
  rintro _ L₂ μ₂ ⟨rfl, rfl⟩
  refine does_bind (does_free map total ⟨⟨mine _ node_mem, nodeKey⟩, nodeVal⟩ (stands.plain _ node_mem)) ?_
  rintro status L₃ μ₃ ⟨rfl, rfl, rfl⟩
  have left : ((L \ {it.key}) \ {it.val}) \ {it.node} = L \ {a | a ∈ it.allocs} := by
    ext a
    simp only [Item.allocs, Set.mem_sdiff, Set.mem_singleton_iff, Set.mem_ofPred_eq, List.mem_cons,
      List.not_mem_nil, or_false, not_or]
    constructor
    · rintro ⟨⟨⟨mem, notKey⟩, notVal⟩, notNode⟩
      exact ⟨mem, notNode, notKey, notVal⟩
    · rintro ⟨mem, notNode, notKey, notVal⟩
      exact ⟨⟨⟨mem, notKey⟩, notVal⟩, notNode⟩
  rw [left]
  exact rest .ok

/-- An 8-byte store to a cell of the table. -/
theorem does_unlink (map : region.Mapped) (total : region.size = n) {pre post : List Item} {before entry : Nat}
    (stands : TableStands p hdr array (pre ++ it :: post) μ) (whole : tableFoot hdr array (pre ++ it :: post) ⊆ L)
    (address : entry = add64 region.base it.node.ptr)
    (place : (before = 0 ∧ cellOf array pre it = array.ptr + 8 * it.bucket) ∨
      (before ≠ 0 ∧ (∃ x ∈ pre, before = x.node.ptr) ∧ cellOf array pre it = before + 16)) :
    Does n L μ (hashtableUnlink region (add64 region.base (array.ptr + 8 * it.bucket)) before entry)
      (fun _ L' μ' => L' = L ∧ μ' = store μ (cellOf array pre it) 8 (load μ (it.node.ptr + 16) 8)) := by
  have here : it ∈ pre ++ it :: post := by simp
  have bucket := stands.inside it here
  have node := whole (tableFoot_item here node_mem)
  have size := (stands.each it here).nodeSize
  have width := stands.arraySize.1
  have cell := whole tableFoot_array
  subst address
  unfold hashtableUnlink
  rcases place with ⟨rfl, same⟩ | ⟨nonzero, ⟨x, mx, rfl⟩, same⟩
  · rw [if_pos (by simp)]
    simp only [HashTableEntry.next]
    refine does_load64 map total node (by omega) (by omega) rfl ?_
    rw [same]
    exact does_store64_last map total cell (by omega) (by omega)
  · have memX : x ∈ pre ++ it :: post := List.mem_append_left _ mx
    have nodeX := whole (tableFoot_item memX node_mem)
    have sizeX := (stands.each x memX).nodeSize
    refine does_foot fun foot => ?_
    rw [if_neg (by simpa using nonzero)]
    simp only [resolve_entry map total foot (stands.each x memX) nodeX, HashTableEntry.next]
    refine does_load64 map total node (by omega) (by omega) rfl ?_
    rw [same]
    exact does_store64_last map total nodeX (by omega) (by omega)

end Parts

/-- The item that is found for a key. -/
def lookupItem (p : TableParams) (key : CString) (items : List Item) : Option Item :=
  items.find? fun it => it.Answers p key

section Lookup
variable {p : TableParams} {key : CString} {items pre post : List Item} {it : Item}

theorem lookup_none (misses : ∀ x ∈ items, ¬x.Answers p key) : lookupItem p key items = none := by
  unfold lookupItem
  rw [List.find?_eq_none]
  simpa using misses

theorem lookup_some (hit : it.Answers p key) (misses : ∀ x ∈ pre, ¬x.Answers p key) :
    lookupItem p key (pre ++ it :: post) = some it := by
  unfold lookupItem
  rw [List.find?_eq_some_iff_append]
  exact ⟨by simpa using hit, pre, post, rfl, by simpa using misses⟩

theorem later_split (items : List Item) (i : Nat) : (items.filter fun x => i ≤ x.bucket).length =
    (chainItems items i).length + (items.filter fun x => i + 1 ≤ x.bucket).length := by
  induction items with
  | nil => rfl
  | cons x items ih =>
    simp only [chainItems, List.filter_cons, decide_eq_true_eq] at ih ⊢
    split_ifs
    all_goals first | omega | (simp only [List.length_cons]; omega)

end Lookup

section Calls
variable {p : TableParams} {hdr array : Alloc} {items pre post : List Item} {it : Item} {μ : Mem} {n fuel : Nat}
  {region : ShmRegion} {L : Set Alloc} {key : CString}

theorem does_tableGet (map : region.Mapped) (total : region.size = n) (enough : n ≤ fuel)
    (stands : TableStands p hdr array items μ) :
    Does n (tableFoot hdr array items) μ (hashtableGet fuel region hdr.ptr key)
      (fun out L' μ' => L' = tableFoot hdr array items ∧ μ' = μ ∧ out = (lookupItem p key items).map Item.value) := by
  have size := stands.size.1
  have header : hdr ∈ tableFoot hdr array items := tableFoot_header
  refine does_foot fun foot => ?_
  unfold hashtableGet hashtableLock hashtableUnlock
  simp only [resolve_table map total foot stands header]
  refine does_containerLock (does_bind (does_lookup map total enough stands subset_rfl) ?_)
  rintro looked L' μ' ⟨rfl, rfl, found⟩
  cases looked with
  | none => exact False.elim found
  | some looked =>
    obtain ⟨cell, result⟩ := looked
    cases result with
    | none => exact does_containerUnlock (does_ret ⟨rfl, rfl, by rw [lookup_none found.2]; rfl⟩)
    | some result =>
      obtain ⟨before, entry⟩ := result
      obtain ⟨_, pre, it, post, rfl, answers, misses, rfl, _⟩ := found
      have here : it ∈ pre ++ it :: post := by simp
      have item := stands.each it here
      have node : it.node ∈ tableFoot hdr array (pre ++ it :: post) := tableFoot_item here node_mem
      have val : it.val ∈ tableFoot hdr array (pre ++ it :: post) := tableFoot_item here val_mem
      have nodeSize := item.nodeSize
      have width := item.valSize
      have bounds := foot.bounds it.val val
      unfold heapBase at bounds
      have resolved : offsetPtrTryResolve region.base region.size it.val.ptr p.valSize =
          some (add64 region.base it.val.ptr) := resolve_eq_some map (by omega) (by omega) (by omega)
      simp only [HashTableEntry.valueOffset, HashTableHeader.valSize]
      refine does_load64 map total node (by omega) (by omega) item.valueOffset ?_
      refine does_load64 map total header (by omega) (by omega) stands.valSize ?_
      simp only [resolved]
      refine does_copyOut map total val (by omega) (by omega) (does_containerUnlock (does_ret ⟨rfl, rfl, ?_⟩))
      rw [lookup_some answers misses, Nat.add_zero, item.value]
      rfl

/-- The outcome of hashtable_delete. -/
def tableDeleted (p : TableParams) (key : CString) (hdr array : Alloc) (items : List Item) (μ : Mem) (rc : Int)
    (L' : Set Alloc) (μ' : Mem) : Prop :=
  (rc = -1 ∧ (∀ x ∈ items, ¬x.Answers p key) ∧ L' = tableFoot hdr array items ∧ μ' = μ) ∨
    (rc = 0 ∧ ∃ pre it post, items = pre ++ it :: post ∧ it.Answers p key ∧ (∀ x ∈ pre, ¬x.Answers p key) ∧
      L' = tableFoot hdr array (pre ++ post) ∧ TableStands p hdr array (pre ++ post) μ')

theorem does_tableDelete (map : region.Mapped) (total : region.size = n) (enough : n ≤ fuel)
    (stands : TableStands p hdr array items μ) :
    Does n (tableFoot hdr array items) μ (hashtableDelete fuel region hdr.ptr key)
      (tableDeleted p key hdr array items μ) := by
  have size := stands.size.1
  have header : hdr ∈ tableFoot hdr array items := tableFoot_header
  refine does_foot fun foot => ?_
  unfold hashtableDelete hashtableLock hashtableUnlock
  simp only [resolve_table map total foot stands header]
  refine does_containerLock (does_bind (does_lookup map total enough stands subset_rfl) ?_)
  rintro looked L' μ' ⟨rfl, rfl, found⟩
  cases looked with
  | none => exact False.elim found
  | some looked =>
    obtain ⟨cell, result⟩ := looked
    cases result with
    | none => exact does_containerUnlock (does_ret (Or.inl ⟨rfl, found.2, rfl, rfl⟩))
    | some result =>
      obtain ⟨before, entry⟩ := result
      obtain ⟨rfl, pre, it, post, rfl, answers, misses, rfl, place⟩ := found
      have here : it ∈ pre ++ it :: post := by simp
      have layout := stands.layout foot subset_rfl
      have cellIn : IsCell p array (pre ++ it :: post) (cellOf array pre it) := cellOf_cell (stands.inside it here)
      have away := layout.cell_header cellIn
      rw [← answers.1] at place
      simp only [← answers.1]
      refine does_bind (does_unlink map total stands subset_rfl rfl place) ?_
      rintro _ L₁ μ₁ ⟨rfl, rfl⟩
      have item := layout.keep_item cellIn here (stands.each it here) (w := load μ' (it.node.ptr + 16) 8)
      have mine : ∀ a ∈ it.allocs, a ∈ tableFoot hdr array (pre ++ it :: post) := fun a part => tableFoot_item here part
      have other : hdr ∉ it.allocs := fun part => header_ne_part stands.distinct here part rfl
      refine does_freeItem map total item (parts_distinct stands.distinct here) mine header other size ?_ ?_
      · rw [load_store_apart (by omega), stands.valSize]
      · intro status
        refine does_containerUnlock (does_ret (Or.inr ⟨rfl, pre, it, post, rfl, answers, misses, ?_, stands.removed layout⟩))
        rw [foot_middle, Set.union_sdiff_left]
        ext a
        simp only [Set.mem_sdiff, Set.mem_ofPred_eq, and_iff_left_iff_imp]
        exact fun mem part => rest_apart stands.distinct part mem

theorem does_countChain (map : region.Mapped) (total : region.size = n) {row : List Item} {v : Nat}
    (each : ∀ x ∈ row, ItemStands v x μ ∧ x.node ∈ L) {c count : Nat}
    (chain : Chain (fun c => load μ c 8) 16 c (row.map fun x => x.node.ptr)) (enough : row.length < fuel)
    (small : count + row.length < 2 ^ 64) :
    Does n L μ (hashtableCountChain region fuel (load μ c 8) count)
      (fun r L' μ' => r = count + row.length ∧ L' = L ∧ μ' = μ) := by
  induction row generalizing c count fuel with
  | nil =>
    obtain ⟨fuel, rfl⟩ := Nat.exists_eq_succ_of_ne_zero (Nat.ne_of_gt enough)
    rw [show load μ c 8 = 0 from chain, hashtableCountChain]
    exact does_ret ⟨rfl, rfl, rfl⟩
  | cons x row ih =>
    rw [List.length_cons] at enough small ⊢
    obtain ⟨fuel, rfl⟩ := Nat.exists_eq_succ_of_ne_zero (Nat.ne_of_gt (Nat.lt_of_le_of_lt (Nat.zero_le _) enough))
    obtain ⟨first, positive, rest⟩ := chain
    obtain ⟨stands, node⟩ := each x List.mem_cons_self
    have size := stands.nodeSize
    refine does_foot fun foot => ?_
    simp only at first
    rw [first, hashtableCountChain, if_neg (by simpa using positive)]
    simp only [resolve_entry map total foot stands node, HashTableEntry.next]
    refine does_load64 map total node (by omega) (by omega) rfl ?_
    rw [add64_eq (by omega)]
    refine does_weaken (ih (fun y my => each y (List.mem_cons_of_mem x my)) rest (by omega) (by omega)) ?_
    rintro r L' μ' ⟨rfl, rfl, rfl⟩
    exact ⟨by omega, rfl, rfl⟩

theorem does_countChains (map : region.Mapped) (total : region.size = n) {chainFuel : Nat} (enough : n ≤ chainFuel)
    (stands : TableStands p hdr array items μ) (whole : tableFoot hdr array items ⊆ L) {i count : Nat}
    (inside : i ≤ p.numBuckets) (rounds : p.numBuckets - i < fuel)
    (small : count + (items.filter fun x => i ≤ x.bucket).length < 2 ^ 64) :
    Does n L μ (hashtableCountChains chainFuel region (add64 region.base hdr.ptr) (add64 region.base array.ptr) fuel i count)
      (fun r L' μ' => r = count + (items.filter fun x => i ≤ x.bucket).length ∧ L' = L ∧ μ' = μ) := by
  have user := map.user
  have size := stands.size.1
  have width := stands.arraySize.1
  induction fuel generalizing i count with
  | zero => omega
  | succ fuel ih =>
    refine does_foot fun foot => ?_
    have bounds := foot.bounds array (whole tableFoot_array)
    have short := items_short foot whole (stands.layout foot whole)
    have row := chain_short items i
    rw [hashtableCountChains]
    simp only [HashTableHeader.numBuckets]
    refine does_load64 map total (whole tableFoot_header) (by omega) (by omega) stands.numBuckets ?_
    by_cases more : i < p.numBuckets
    · have step : mul64 8 i = 8 * i := mul64_eq (by omega)
      rw [if_pos more, step]
      refine does_load64 map total (whole tableFoot_array) (by omega) (by omega) rfl ?_
      have each : ∀ x ∈ chainItems items i, ItemStands p.valSize x μ ∧ x.node ∈ L := by
        intro x mx
        have mem := (mem_chainItems.mp mx).1
        exact ⟨stands.each x mem, whole (tableFoot_item mem node_mem)⟩
      have split := later_split items i
      have next : add64 i 1 = i + 1 := add64_eq (by omega)
      refine does_bind (does_countChain map total each (stands.chains i more) (by omega) (by omega)) ?_
      rintro r L' μ' ⟨rfl, rfl, rfl⟩
      rw [next]
      refine does_weaken (ih (by omega) (by omega) (by omega)) ?_
      rintro r L' μ' ⟨rfl, rfl, rfl⟩
      exact ⟨by omega, rfl, rfl⟩
    · rw [if_neg more]
      have none : (items.filter fun x => i ≤ x.bucket) = [] := by
        rw [List.filter_eq_nil_iff]
        intro x mx
        have bound := stands.inside x mx
        simp only [decide_eq_true_eq]
        omega
      rw [none]
      exact does_ret ⟨rfl, rfl, rfl⟩

theorem does_tableLength (map : region.Mapped) (total : region.size = n) (enough : n ≤ fuel)
    (stands : TableStands p hdr array items μ) :
    Does n (tableFoot hdr array items) μ (hashtableLength fuel region hdr.ptr)
      (fun len L' μ' => L' = tableFoot hdr array items ∧ μ' = μ ∧ len = items.length) := by
  have user := map.user
  have header : hdr ∈ tableFoot hdr array items := tableFoot_header
  have width := stands.arraySize.1
  refine does_foot fun foot => ?_
  have bounds := foot.bounds array tableFoot_array
  unfold heapBase at bounds
  have short := items_short foot subset_rfl (stands.layout foot subset_rfl)
  have all : (items.filter fun x => 0 ≤ x.bucket) = items := by simp
  unfold hashtableLength hashtableLock hashtableUnlock
  simp only [resolve_table map total foot stands header]
  refine does_containerLock (does_buckets map total stands subset_rfl ?_)
  have counted := @does_countChains p hdr array items μ n fuel region _ map total fuel enough stands subset_rfl 0 0
    (Nat.zero_le _) (by omega) (by rw [all]; omega)
  refine does_bind counted ?_
  rintro r L' μ' ⟨rfl, rfl, rfl⟩
  rw [all, Nat.zero_add]
  exact does_containerUnlock (does_ret ⟨rfl, rfl, rfl⟩)

/-- A new value buffer with its bytes, in hashtable_put. -/
theorem does_newValue (map : region.Mapped) (total : region.size = n) (large : 2728 ≤ n) (enough : n ≤ fuel) {v : Nat}
    (header : hdr ∈ L) (size : hdr.size = 88) (word : load μ (hdr.ptr + 16) 8 = v) (wide : v + 112 ≤ 2 ^ 64) (value : Mem)
    {refused : Code Int} {lost : Nat → Code Int} {next : Nat → Nat → Code Int} {post : Int → Set Alloc → Mem → Prop}
    (failed : Does n L μ refused post)
    (made : ∀ a μ', a ∉ L → a.size = v → a.align = 16 → Kept L μ μ' → loadBytes μ' a.ptr v = loadBytes value 0 v →
      Does n (insert a L) μ' (next (add64 region.base a.ptr) a.ptr) post) :
    Does n L μ (do
      let valSize ← region.load64 (add64 region.base hdr.ptr) HashTableHeader.valSize
      let storage ← allocatorAlloc fuel region valSize 16
      match storage with
      | .error _ => refused
      | .ok ptr => do
        let valSize ← region.load64 (add64 region.base hdr.ptr) HashTableHeader.valSize
        region.copyIn ptr 0 (loadBytes value 0 valSize)
        match offsetPtrTryFromRaw region.base region.size ptr with
        | none => lost ptr
        | some off => next ptr off) post := by
  simp only [HashTableHeader.valSize]
  refine does_load64 map total header (by omega) (by omega) word ?_
  refine does_bind (does_alloc map total large enough (by omega) (by omega)) ?_
  intro storage L' μ' holds
  cases storage with
  | error status =>
    obtain ⟨rfl, rfl⟩ := holds
    exact failed
  | ok ptr =>
    obtain ⟨a, fresh, grown, kept, address, sized, align⟩ := holds
    subst grown address
    have mem : a ∈ insert a L := Set.mem_insert a L
    have again : load μ' (hdr.ptr + 16) 8 = v := by
      rw [load_congr ((kept hdr header).narrow (by omega) (by omega)), word]
    have length : (loadBytes value 0 v).length = v := loadBytes_length _ _ _
    refine does_load64 map total (Set.mem_insert_of_mem a header) (by omega) (by omega) again ?_
    refine does_foot fun foot => ?_
    have bounds := foot.bounds a mem
    unfold heapBase at bounds
    refine does_bind (does_copyIn map total mem (by omega) (by omega)) ?_
    rintro _ L'' μ'' ⟨rfl, rfl⟩
    rw [from_raw_eq_some map (by omega) (by omega), Nat.add_zero]
    have there := loadBytes_storeBytes μ' a.ptr (loadBytes value 0 v)
    rw [length] at there
    exact made a _ fresh sized (by simpa using align)
      (Kept.trans kept (kept_new foot fresh fun x out => storeBytes_outside (by omega))) there

/-- The outcome of an update: another value buffer, or the entry keeps the offset of the
    one that was given back. -/
def tableUpdated (p : TableParams) (hdr array : Alloc) (pre post : List Item) (it : Item) (bytes : List UInt8) (μ : Mem)
    (rc : Int) (L' : Set Alloc) (μ' : Mem) : Prop :=
  (rc = 0 ∧ ∃ a, L' = tableFoot hdr array (pre ++ it.revalued a bytes :: post) ∧
    TableStands p hdr array (pre ++ it.revalued a bytes :: post) μ') ∨
  (rc = -1 ∧ L' = tableFoot hdr array (pre ++ it :: post) \ {it.val} ∧ μ' = μ)

theorem does_update (map : region.Mapped) (total : region.size = n) (large : 2728 ≤ n) (enough : n ≤ fuel)
    (stands : TableStands p hdr array (pre ++ it :: post) μ) (value : Mem) :
    Does n (tableFoot hdr array (pre ++ it :: post)) μ
      (hashtableUpdate fuel region (add64 region.base hdr.ptr) (add64 region.base it.node.ptr) value)
      (tableUpdated p hdr array pre post it (loadBytes value 0 p.valSize) μ) := by
  have user := map.user
  have here : it ∈ pre ++ it :: post := by simp
  have item := stands.each it here
  have size := stands.size.1
  have nodeSize := item.nodeSize
  have width := item.valSize
  have header : hdr ∈ tableFoot hdr array (pre ++ it :: post) := tableFoot_header
  have node : it.node ∈ tableFoot hdr array (pre ++ it :: post) := tableFoot_item here node_mem
  have val : it.val ∈ tableFoot hdr array (pre ++ it :: post) := tableFoot_item here val_mem
  have otherHdr := header_ne_part stands.distinct here val_mem
  obtain ⟨_, otherNode, _⟩ := parts_distinct stands.distinct here
  refine does_foot fun foot => ?_
  have bounds := foot.bounds it.val val
  unfold hashtableUpdate hashtableUnlock
  refine does_bind (does_freeValue map total item node val header size stands.valSize) ?_
  rintro _ L₁ μ₁ ⟨rfl, rfl⟩
  have keepHdr : hdr ∈ tableFoot hdr array (pre ++ it :: post) \ {it.val} := ⟨header, otherHdr⟩
  have keepNode : it.node ∈ tableFoot hdr array (pre ++ it :: post) \ {it.val} := ⟨node, otherNode⟩
  refine does_newValue map total large enough keepHdr size stands.valSize (by omega) value ?_ ?_
  · exact does_containerUnlock (does_ret (Or.inr ⟨rfl, rfl, rfl⟩))
  intro a μ' fresh sizeA align kept there
  have wideNode := Set.mem_insert_of_mem a keepNode
  refine does_foot fun foot' => ?_
  have boundsA := foot'.bounds a (Set.mem_insert _ _)
  simp only [HashTableEntry.valueOffset]
  refine does_store64 map total wideNode (by omega) (by omega) (does_containerUnlock (does_ret (Or.inl ⟨rfl, a, ?_, ?_⟩)))
  · rw [foot_revalued stands.distinct]
  · have layout : TableLayout p hdr array (pre ++ it.revalued a (loadBytes value 0 p.valSize) :: post) := by
      refine ⟨size, stands.arraySize.1, ?_, distinct_revalued stands.distinct fresh, ?_⟩
      · intro x mx
        rcases mem_middle.mp mx with rfl | other
        · exact nodeSize
        · exact (stands.each x (mem_middle.mpr (Or.inr other))).nodeSize
      · intro b mb c mc
        rw [foot_revalued stands.distinct] at mb mc
        exact foot'.disjoint mb mc
    exact stands.updated layout (fun b mb other => kept b ⟨mb, other⟩) sizeA align there (by omega)

/-- The outcome of an insertion. -/
def tableInserted (p : TableParams) (hdr array : Alloc) (items : List Item) (key : CString) (bytes : List UInt8)
    (rc : Int) (L' : Set Alloc) (μ' : Mem) : Prop :=
  (rc = 0 ∧ ∃ it : Item, it.bucket = hashtableHash key p.numBuckets ∧ it.stored = key.bytes.take p.keySize ∧
    it.value = bytes ∧ L' = tableFoot hdr array (it :: items) ∧ TableStands p hdr array (it :: items) μ') ∨
  (rc = -1 ∧ L' = tableFoot hdr array items ∧ TableStands p hdr array items μ')

/-- A new entry, or nothing. -/
def entryMade (keyOff valOff nextOff : Nat) (L : Set Alloc) (μ : Mem) (off : Nat) (L' : Set Alloc) (μ' : Mem) : Prop :=
  (off = 0 ∧ L' = L ∧ μ' = μ) ∨ (0 < off ∧ ∃ a, a ∉ L ∧ L' = insert a L ∧ Kept L μ μ' ∧ off = a.ptr ∧ a.align = 16 ∧
    a.size = 24 ∧ load μ' a.ptr 8 = keyOff ∧ load μ' (a.ptr + 8) 8 = valOff ∧ load μ' (a.ptr + 16) 8 = nextOff)

theorem does_allocEntry (map : region.Mapped) (total : region.size = n) (large : 2728 ≤ n) (enough : n ≤ fuel)
    {keyOff valOff nextOff : Nat} (wordK : keyOff < 2 ^ 64) (wordV : valOff < 2 ^ 64) (wordN : nextOff < 2 ^ 64) :
    Does n L μ (hashtableAllocEntry fuel region keyOff valOff nextOff) (entryMade keyOff valOff nextOff L μ) := by
  unfold hashtableAllocEntry
  simp only [HashTableEntry.sizeof, HashTableEntry.keyOffset, HashTableEntry.valueOffset, HashTableEntry.next]
  refine does_bind (does_alloc map total large enough (by omega) (by omega)) ?_
  intro result L' μ' holds
  cases result with
  | error status =>
    obtain ⟨sameL, sameM⟩ := holds
    exact does_ret (Or.inl ⟨rfl, sameL, sameM⟩)
  | ok ptr =>
    obtain ⟨a, fresh, grown, kept, address, size, align⟩ := holds
    subst grown address
    have mem : a ∈ insert a L := Set.mem_insert a L
    refine does_foot fun foot => ?_
    have bounds := foot.bounds a mem
    unfold heapBase at bounds
    refine does_store64 map total mem (by omega) (by omega) ?_
    refine does_store64 map total mem (by omega) (by omega) ?_
    refine does_store64 map total mem (by omega) (by omega) ?_
    rw [from_raw_eq_some map (by omega) (by omega), Nat.add_zero]
    refine does_ret (Or.inr ⟨by omega, a, fresh, rfl, Kept.trans kept (kept_new foot fresh ?_), rfl, by simpa using align,
      size, ?_, ?_, load_store_eight wordN⟩)
    · intro x out
      rw [store_outside (by omega), store_outside (by omega), store_outside (by omega)]
    · rw [load_store_apart (by omega), load_store_apart (by omega), load_store_eight wordK]
    · rw [load_store_apart (by omega), load_store_eight wordV]

theorem sdiff_insert {a : Alloc} (fresh : a ∉ L) : insert a L \ {a} = L := by
  rw [Set.insert_sdiff_of_mem _ (Set.mem_singleton a)]
  exact Set.sdiff_singleton_eq_self fresh

theorem does_insert (map : region.Mapped) (total : region.size = n) (large : 2728 ≤ n) (enough : n ≤ fuel)
    (stands : TableStands p hdr array items μ) (value : Mem) (bound : (key.bytes.take p.keySize).length + 128 ≤ 2 ^ 64)
    (wide : p.valSize + 112 ≤ 2 ^ 64) :
    Does n (tableFoot hdr array items) μ
      (hashtableInsert fuel region (add64 region.base hdr.ptr)
        (add64 region.base (array.ptr + 8 * hashtableHash key p.numBuckets)) key value)
      (tableInserted p hdr array items key (loadBytes value 0 p.valSize)) := by
  have user := map.user
  have size := stands.size.1
  have width := stands.arraySize.1
  have bucket : hashtableHash key p.numBuckets < p.numBuckets := hash_lt stands.positive.1
  have header : hdr ∈ tableFoot hdr array items := tableFoot_header
  have cells : array ∈ tableFoot hdr array items := tableFoot_array
  unfold hashtableInsert hashtableUnlock
  simp only [HashTableHeader.keySize]
  refine does_load64 map total header (by omega) (by omega) stands.keySize ?_
  refine does_bind (does_allocString map total large enough bound) ?_
  rintro off L₁ μ₁ (⟨rfl, rfl, rfl⟩ | ⟨positiveK, a₁, fresh₁, rfl, kept₁, rfl, plain₁, size₁, length₁, chars₁⟩)
  · rw [if_pos (by simp)]
    exact does_containerUnlock (does_ret (Or.inr ⟨rfl, rfl, stands⟩))
  rw [if_neg (by simp only [offsetPtrIsNull_iff]; omega)]
  have stands₁ := stands.congr kept₁
  have mem₁ : a₁ ∈ insert a₁ (tableFoot hdr array items) := Set.mem_insert _ _
  refine does_newValue map total large enough (Set.mem_insert_of_mem a₁ header) size stands₁.valSize wide value ?_ ?_
  · refine does_bind (does_freeString map total mem₁ (by omega) plain₁) ?_
    rintro _ L₂ μ₂ ⟨rfl, rfl⟩
    exact does_containerUnlock (does_ret (Or.inr ⟨rfl, sdiff_insert fresh₁, stands₁⟩))
  intro a₂ μ₂ fresh₂ size₂ plain₂ kept₂ there
  have stands₂ := stands₁.congr (kept₂.mono (Set.subset_insert _ _))
  have mem₂ : a₂ ∈ insert a₂ (insert a₁ (tableFoot hdr array items)) := Set.mem_insert _ _
  have wider : tableFoot hdr array items ⊆ insert a₂ (insert a₁ (tableFoot hdr array items)) :=
    (Set.subset_insert _ _).trans (Set.subset_insert _ _)
  refine does_foot fun foot₂ => ?_
  have bounds₂ := foot₂.bounds a₂ mem₂
  have bounds₁ := foot₂.bounds a₁ (Set.mem_insert_of_mem a₂ mem₁)
  refine does_load64 map total (wider cells) (by omega) (by omega) rfl ?_
  rw [Nat.add_zero]
  refine does_bind (does_allocEntry map total large enough (by omega) (by omega) (load_eight_lt _ _)) ?_
  rintro off L₃ μ₃ (⟨rfl, rfl, rfl⟩ | ⟨positiveN, a₃, fresh₃, rfl, kept₃, rfl, plain₃, size₃, keyAt, valAt, nextAt⟩)
  · rw [if_pos (by simp)]
    refine does_bind (does_free map total mem₂ plain₂) ?_
    rintro status L₄ μ₄ ⟨rfl, rfl, rfl⟩
    rw [sdiff_insert fresh₂]
    refine does_bind (does_freeString map total mem₁ (by omega) plain₁) ?_
    rintro _ L₅ μ₅ ⟨rfl, rfl⟩
    exact does_containerUnlock (does_ret (Or.inr ⟨rfl, sdiff_insert fresh₁, stands₂⟩))
  rw [if_neg (by simp only [offsetPtrIsNull_iff]; omega)]
  refine does_foot fun foot₃ => ?_
  have stands₃ := stands₂.congr (kept₃.mono wider)
  refine does_store64 map total (Set.mem_insert_of_mem a₃ (wider cells)) (by omega) (by omega) ?_
  rw [Nat.add_zero]
  obtain ⟨it, bucketOf, storedOf, valueOf, rfl, rfl, rfl⟩ : ∃ it : Item, it.bucket = hashtableHash key p.numBuckets ∧
      it.stored = key.bytes.take p.keySize ∧ it.value = loadBytes value 0 p.valSize ∧ it.node = a₃ ∧ it.key = a₁ ∧
      it.val = a₂ := ⟨⟨_, _, _, a₃, a₁, a₂⟩, rfl, rfl, rfl, rfl, rfl, rfl⟩
  refine does_containerUnlock (does_ret (Or.inl ⟨rfl, it, bucketOf, storedOf, valueOf, foot_insert.symm, ?_⟩))
  rw [← storedOf] at size₁ length₁ chars₁
  rw [← bucketOf] at bucket nextAt ⊢
  have bounds₃ := foot₃.bounds it.node (Set.mem_insert _ _)
  have layout := stands.layout_cons (foot_insert.symm ▸ foot₃) size₃ fresh₃ fresh₂ fresh₁
  have keptKey : SameOn μ₁ μ₃ it.key.ptr (it.key.ptr + it.key.size) :=
    (kept₂ it.key mem₁).trans (kept₃ it.key (Set.mem_insert_of_mem it.val mem₁))
  refine stands₃.inserted layout ⟨size₃, size₁, size₂, ?_, keyAt, valAt, ?_, ?_, ?_⟩ bucket positiveN (by omega) ?_
  · intro b part
    simp only [Item.allocs, List.mem_cons, List.not_mem_nil, or_false] at part
    rcases part with rfl | rfl | rfl
    · exact plain₃
    · exact plain₁
    · exact plain₂
  · rw [load_congr (keptKey.narrow (by omega) (by omega)), length₁]
  · rw [loadBytes_congr (keptKey.narrow (by omega) (by omega)), chars₁]
  · rw [loadBytes_congr ((kept₃ it.val mem₂).narrow (by omega) (by omega)), there, valueOf]
  · rw [nextAt]
    exact (load_congr ((kept₃ array (wider cells)).narrow (by omega) (by omega))).symm

theorem does_tableAbandon (map : region.Mapped) (total : region.size = n) (enough : n ≤ fuel) (mem : hdr ∈ L)
    (plain : hdr.align = 16) (whole : 16 ≤ hdr.size) (address : Nat) :
    Does n L μ (hashtableAbandon fuel region address hdr.ptr) (fun h _ _ => h = 0) := by
  unfold hashtableAbandon
  rw [perform_bind]
  refine does_call fun _ => ?_
  refine does_bind (does_objectFree map total enough mem plain whole) ?_
  exact fun _ _ _ _ => does_ret rfl

/-- The outcome of hashtable_create: a table without items in allocations of its own. -/
def tableCreated (p : TableParams) (h : Nat) (L' : Set Alloc) (μ' : Mem) : Prop :=
  h = 0 ∨ (0 < h ∧ ∃ hdr array, h = hdr.ptr ∧ L' = tableFoot hdr array [] ∧ TableStands p hdr array [] μ')

theorem does_tableCreate (map : region.Mapped) (total : region.size = n) (large : 2728 ≤ n) (enough : n ≤ fuel)
    (bound : p.numBuckets * 8 + 112 ≤ 2 ^ 64) (wordK : p.keySize < 2 ^ 64) (wordV : p.valSize < 2 ^ 64) :
    Does n ∅ μ (hashtableCreate fuel region p.numBuckets p.keySize p.valSize) (tableCreated p) := by
  unfold hashtableCreate
  by_cases bad : p.numBuckets = 0 ∨ p.keySize = 0 ∨ p.valSize = 0
  · rw [if_pos bad]
    exact does_ret (Or.inl rfl)
  rw [if_neg bad]
  have bytes : mul64 p.numBuckets 8 = p.numBuckets * 8 := mul64_eq (by omega)
  refine does_header map total large enough (by simp) (fun _ => does_ret (Or.inl rfl)) ?_
  intro hdr μ₁ fresh size align low high resolved
  simp only [HashTableHeader.sizeof] at size
  have header : hdr ∈ insert hdr (∅ : Set Alloc) := Set.mem_insert _ _
  simp only [hashtableResolveHeader, resolved, HashTableHeader.numBuckets, HashTableHeader.keySize,
    HashTableHeader.valSize, HashTableHeader.buckets, bytes]
  refine does_store64 map total header (by omega) (by omega) ?_
  refine does_store64 map total header (by omega) (by omega) ?_
  refine does_store64 map total header (by omega) (by omega) ?_
  refine does_store64 map total header (by omega) (by omega) ?_
  refine does_containerInitLock ?_
  refine does_storage map total large enough header (by omega) (by omega) ?_ ?_
  · refine does_weaken (does_tableAbandon map total enough header align (by omega) _) ?_
    rintro h L' μ' rfl
    exact Or.inl rfl
  · intro array μ' new width plain _ _ _ kept named zeroed
    have other : hdr ≠ array := fun eq => new (eq ▸ header)
    refine Or.inr ⟨by omega, hdr, array, rfl, ?_, ?_⟩
    · ext b
      simp only [tableFoot, tableAllocs, Set.mem_insert_iff, Set.mem_empty_iff_false, Set.mem_ofPred_eq,
        List.flatMap_nil, List.mem_cons, List.not_mem_nil, or_false]
      exact Or.comm
    · refine ⟨⟨size, align⟩, by omega, (kept 0 (by omega)).trans ?_, (kept 8 (by omega)).trans ?_,
        (kept 16 (by omega)).trans ?_, named, ⟨width, plain⟩, ?_, by simp, by simp, ?_⟩
      · rw [load_store_apart (by omega), load_store_apart (by omega), load_store_apart (by omega)]
        exact load_store_eight (by omega)
      · rw [load_store_apart (by omega), load_store_apart (by omega)]
        exact load_store_eight (by omega)
      · rw [load_store_apart (by omega)]
        exact load_store_eight (by omega)
      · simp [tableAllocs, other]
      · exact fun i inside => zeroed _ _ (by omega)

end Calls

end OffsetStore
