import OffsetStore.DynListRuns
import OffsetStore.HeapReleases
import OffsetStore.FreeChecks
import OffsetStore.ContainerSessions

/- dynlist_destroy. It hands allocator_free the element of every node, so that the eight
   bytes before it, the link to the previous node, pass for an allocation prefix: the
   block that is released is the previous node, if its element happens to look like the
   words of a block header. -/
namespace OffsetStore
open ByteMemory Program Prog Words Tiling CellChain Pool

instance (n : Nat) (m : Mem) (o p : Nat) : Decidable (Accepted n m o p) :=
  decidable_of_iff (0 < o ∧ o + BlockHeader.sizeof ≤ n ∧ load m (o + BlockHeader.flags) 4 &&& blockFree = 0 ∧
      load m (o + BlockHeader.shard) 4 < shardCount ∧ o + payloadOffsetOf m o = p)
    ⟨fun h => ⟨h.1, h.2.1, not_not_intro h.2.2.1, h.2.2.2.1, h.2.2.2.2⟩,
      fun h => ⟨h.positive, h.inside, not_not.mp h.used, h.shard, h.place⟩⟩

/-- The element of node a passes for the header of a block whose payload is the element of b. -/
def Forged (n : Nat) (m : Mem) (a b : Alloc) : Prop := Accepted n m a.ptr (b.ptr + DynListNodeHeader.sizeof)

instance (n : Nat) (m : Mem) (a b : Alloc) : Decidable (Forged n m a b) :=
  inferInstanceAs (Decidable (Accepted n m a.ptr (b.ptr + DynListNodeHeader.sizeof)))

/-- The memory after the walk over the nodes behind a. -/
def walked (n : Nat) : Alloc → List Alloc → Mem → Mem
  | _, [], m => m
  | a, b :: rest, m =>
    walked n b rest (if Forged n m a b then releasedAt m (load m (a.ptr + BlockHeader.shard) 4) a.ptr else m)

/-- Every node leads back to the one before it, the first to p. -/
def Backlinks (m : Mem) : Nat → List Alloc → Prop
  | _, [] => True
  | p, b :: rest => load m (b.ptr + DynListNodeHeader.prev) 8 = p ∧ Backlinks m b.ptr rest

/-- Nodes in the region, each with room for two links and sixteen more bytes. -/
structure Nodes (n : Nat) (nodes : List Alloc) : Prop where
  bounds : ∀ a ∈ nodes, 2776 ≤ a.ptr ∧ a.ptr + 16 < n
  apart : ∀ a ∈ nodes, ∀ b ∈ nodes, a = b ∨ a.ptr + 32 ≤ b.ptr ∨ b.ptr + 32 ≤ a.ptr
  distinct : nodes.Nodup

section Walk
variable {n : Nat} {region : ShmRegion} {m : Mem} {a b : Alloc} {nodes rest : List Alloc}

theorem Nodes.tail (shape : Nodes n (a :: nodes)) : Nodes n nodes :=
  ⟨fun c mc => shape.bounds c (List.mem_cons_of_mem a mc),
    fun c mc d md => shape.apart c (List.mem_cons_of_mem a mc) d (List.mem_cons_of_mem a md),
    (List.nodup_cons.mp shape.distinct).2⟩

theorem Nodes.first_apart (shape : Nodes n (a :: nodes)) (mem : b ∈ nodes) : a.ptr + 32 ≤ b.ptr ∨ b.ptr + 32 ≤ a.ptr := by
  refine (shape.apart a List.mem_cons_self b (List.mem_cons_of_mem a mem)).resolve_left ?_
  rintro rfl
  exact (List.nodup_cons.mp shape.distinct).1 mem

theorem Forged.shard (forged : Forged n m a b) : load m (a.ptr + BlockHeader.shard) 4 < 4 := Accepted.shard forged

/-- Outside the list heads a forged release stores into one node only. -/
theorem forged_outside {s x : Nat} (small : s < 4) (place : x < 2688 ∨ 2720 ≤ x)
    (away : x < a.ptr + 8 ∨ a.ptr + 28 ≤ x) : releasedAt m s a.ptr x = m x := by
  have cell := headCell_eq s
  exact releasedAt_outside away (by omega)

theorem forged_load {s x k : Nat} (small : s < 4) (place : x + k ≤ 2688 ∨ 2720 ≤ x)
    (away : x + k ≤ a.ptr + 8 ∨ a.ptr + 28 ≤ x) : load (releasedAt m s a.ptr) x k = load m x k := by
  refine load_congr fun y low high => forged_outside small ?_ ?_
  · omega
  · omega

theorem exec_free_node (map : region.Mapped) (total : region.size = n) (header : HeaderRepr n heapBase m)
    (bounds : 2776 ≤ b.ptr ∧ b.ptr + 16 < n) (fuel : Nat) {o : Nat} (before : load m (b.ptr + DynListNodeHeader.prev) 8 = o) :
    exec (dynlistFreeNodes region (fuel + 1) b.ptr) m =
      (fun m' => exec (dynlistFreeNodes region fuel (load m' b.ptr 8)) m')
        (if Accepted n m o (b.ptr + DynListNodeHeader.sizeof) then releasedAt m (load m (o + BlockHeader.shard) 4) o
          else m) := by
  have user := map.user
  have resolved : dynlistResolveNode region b.ptr = some (add64 region.base b.ptr) :=
    resolve_eq_some map (by omega) (by omega) (by simp only [DynListNodeHeader.sizeof]; omega)
  have address : add64 (add64 region.base b.ptr) DynListNodeHeader.sizeof =
      add64 region.base (b.ptr + DynListNodeHeader.sizeof) := add64_add64 ..
  have word : load m (b.ptr + DynListNodeHeader.sizeof - 8) 8 = o := before
  rw [dynlistFreeNodes, if_neg (by simp only [offsetPtrIsNull, decide_eq_true_eq]; omega)]
  simp only [resolved, address]
  obtain ⟨accepted, run⟩ | ⟨refused, status, run⟩ := exec_free_cases map total header
    (p := b.ptr + DynListNodeHeader.sizeof) (by simp only [DynListNodeHeader.sizeof]; omega)
    (by simp only [DynListNodeHeader.sizeof]; omega)
  · rw [word] at accepted run
    rw [exec_bind_of_some run, if_pos accepted, load64_field (by simp only [DynListNodeHeader.next]; omega), loadWord_bind,
      exec_read]
    rfl
  · rw [word] at refused
    rw [exec_bind_of_some run, if_neg refused, load64_field (by simp only [DynListNodeHeader.next]; omega), loadWord_bind,
      exec_read]
    rfl

theorem Backlinks.congr {m' : Mem} {p : Nat} (links : Backlinks m p nodes)
    (same : ∀ c ∈ nodes, load m' (c.ptr + 8) 8 = load m (c.ptr + 8) 8) : Backlinks m' p nodes := by
  induction nodes generalizing p with
  | nil => trivial
  | cons c rest ih =>
    exact ⟨(same c List.mem_cons_self).trans links.1, ih links.2 fun d md => same d (List.mem_cons_of_mem c md)⟩

/-- The walk frees no node behind a but stores where the elements say. -/
theorem exec_walk (map : region.Mapped) (total : region.size = n) (header : HeaderRepr n heapBase m)
    (shape : Nodes n (a :: rest)) {cell fuel : Nat} (links : Chain (fun c => load m c 8) 0 cell (rest.map Alloc.ptr))
    (back : Backlinks m a.ptr rest) (enough : rest.length < fuel) :
    exec (dynlistFreeNodes region fuel (load m cell 8)) m = some ((), walked n a rest m) := by
  induction rest generalizing a m cell fuel with
  | nil =>
    obtain ⟨fuel, rfl⟩ : ∃ f, fuel = f + 1 := ⟨fuel - 1, by simp at enough; omega⟩
    have zero : load m cell 8 = 0 := links
    rw [zero, dynlistFreeNodes]
    rfl
  | cons b rest ih =>
    obtain ⟨fuel, rfl⟩ : ∃ f, fuel = f + 1 := ⟨fuel - 1, by simp at enough; omega⟩
    obtain ⟨first, _, later⟩ := links
    obtain ⟨before, back⟩ := back
    have bounds := shape.bounds b (by simp)
    have apart : ∀ c ∈ b :: rest, a.ptr + 32 ≤ c.ptr ∨ c.ptr + 32 ≤ a.ptr := fun c mc => shape.first_apart mc
    have high := shape.bounds a List.mem_cons_self
    simp only [List.length_cons, Nat.add_lt_add_iff_right] at enough
    rw [show load m cell 8 = b.ptr from first, exec_free_node map total header bounds fuel before, walked]
    by_cases forged : Forged n m a b
    · have owner := forged.shard
      rw [if_pos forged, if_pos (show Accepted n m a.ptr (b.ptr + DynListNodeHeader.sizeof) from forged)]
      have kept : ∀ c ∈ b :: rest, ∀ x k, c.ptr ≤ x → x + k ≤ c.ptr + 16 →
          load (releasedAt m (load m (a.ptr + BlockHeader.shard) 4) a.ptr) x k = load m x k := by
        intro c mc x k left right
        have place := apart c mc
        have low := shape.bounds c (List.mem_cons_of_mem a mc)
        exact forged_load owner (by omega) (by omega)
      refine ih ?_ shape.tail ?_ (back.congr fun c mc => ?_) enough
      · exact header.congr fun x _ high => forged_outside owner (by omega) (by omega)
      · refine chain_congr later (kept b List.mem_cons_self _ _ (by omega) (by omega)) fun x mem => ?_
        obtain ⟨c, mc, rfl⟩ := List.mem_map.mp mem
        exact kept c (List.mem_cons_of_mem b mc) _ _ (by omega) (by omega)
      · exact kept c (List.mem_cons_of_mem b mc) _ _ (by omega) (by omega)
    · rw [if_neg forged, if_neg (show ¬Accepted n m a.ptr (b.ptr + DynListNodeHeader.sizeof) from forged)]
      exact ih header shape.tail later back enough

theorem walked_outside {x : Nat} (place : x < 2688 ∨ 2720 ≤ x)
    (away : ∀ c ∈ a :: rest, x < c.ptr + 8 ∨ c.ptr + 28 ≤ x) : walked n a rest m x = m x := by
  induction rest generalizing a m with
  | nil => rfl
  | cons b rest ih =>
    rw [walked, ih fun c mc => away c (List.mem_cons_of_mem a mc)]
    split
    · rename_i forged
      exact forged_outside forged.shard place (away a List.mem_cons_self)
    · rfl

theorem walked_head {s : Nat} (small : s < 4) (bounds : ∀ c ∈ a :: rest, 2776 ≤ c.ptr ∧ c.ptr < 2 ^ 64) :
    load (walked n a rest m) (headCell s) 8 = load m (headCell s) 8 ∨
      ∃ c ∈ a :: rest, load (walked n a rest m) (headCell s) 8 = c.ptr := by
  induction rest generalizing a m with
  | nil => exact Or.inl rfl
  | cons b rest ih =>
    rw [walked]
    obtain same | ⟨c, mc, named⟩ := ih (m := if Forged n m a b then
        releasedAt m (load m (a.ptr + BlockHeader.shard) 4) a.ptr else m) fun c mc => bounds c (List.mem_cons_of_mem a mc)
    · rw [same]
      by_cases forged : Forged n m a b
      · rw [if_pos forged]
        have place := headCell_eq s
        have other := headCell_eq (load m (a.ptr + BlockHeader.shard) 4)
        have low := bounds a List.mem_cons_self
        by_cases here : s = load m (a.ptr + BlockHeader.shard) 4
        · refine Or.inr ⟨a, List.mem_cons_self, ?_⟩
          rw [here]
          unfold releasedAt
          exact load_store_eight low.2
        · exact Or.inl (releasedAt_load (by omega) (by omega))
      · rw [if_neg forged]
        exact Or.inl rfl
    · exact Or.inr ⟨c, List.mem_cons_of_mem a mc, named⟩

/-- The walk leaves the memory as it is, or some list head at a node. -/
theorem walked_cases (bounds : ∀ c ∈ a :: rest, 2776 ≤ c.ptr ∧ c.ptr < 2 ^ 64) :
    ((a :: rest).IsChain (fun c d => ¬Forged n m c d) ∧ walked n a rest m = m) ∨
    (¬(a :: rest).IsChain (fun c d => ¬Forged n m c d) ∧
      ∃ s, s < 4 ∧ ∃ c ∈ a :: rest, load (walked n a rest m) (headCell s) 8 = c.ptr) := by
  induction rest generalizing a with
  | nil => exact Or.inl ⟨.singleton a, rfl⟩
  | cons b rest ih =>
    rw [walked, List.isChain_cons_cons]
    by_cases forged : Forged n m a b
    · rw [if_pos forged]
      refine Or.inr ⟨fun inert => inert.1 forged, _, forged.shard, ?_⟩
      obtain same | ⟨c, mc, named⟩ := walked_head (n := n) (m := releasedAt m (load m (a.ptr + BlockHeader.shard) 4) a.ptr)
        forged.shard fun c mc => bounds c (List.mem_cons_of_mem a mc)
      · refine ⟨a, List.mem_cons_self, ?_⟩
        rw [same]
        unfold releasedAt
        exact load_store_eight (bounds a List.mem_cons_self).2
      · exact ⟨c, List.mem_cons_of_mem a mc, named⟩
    · rw [if_neg forged]
      obtain ⟨inert, same⟩ | ⟨hit, s, small, c, mc, named⟩ := ih fun c mc => bounds c (List.mem_cons_of_mem a mc)
      · exact Or.inl ⟨⟨forged, inert⟩, same⟩
      · exact Or.inr ⟨fun inert => hit inert.2, s, small, c, List.mem_cons_of_mem a mc, named⟩

end Walk

section Objects
variable {n fuel : Nat} {region : ShmRegion} {m m' : Mem} {V : HeapView}

/-- The walk over all blocks that looks for a payload ends when the headers are those of a heap. -/
theorem burst_span_ends (map : region.Mapped) (total : region.size = n) (inv : HeapInv n m V) (enough : n ≤ fuel)
    (header : HeaderRepr n heapBase m') (same : ∀ s, s < 4 → ∀ b ∈ (V s).blocks, SameOn m m' b.start (b.start + 32))
    {x : Nat} (offset : x < n) :
    ∃ r, burst m' (allocatorGetAllocationSpan fuel region (add64 region.base x)) = ([], ret r) := by
  have user := map.user
  have positive := map.base_pos
  have room := inv.room
  have inside := header.inside
  unfold heapBase at room
  have valid : ∀ b ∈ V.allBlocks, ValidBlock n m' b.start ∧ blockSizeOf m' b.start = b.size := by
    intro b mb
    obtain ⟨s, small, mem⟩ := HeapView.mem_allBlocks.mp mb
    have kept := same s small b mem
    have old := inv.valid_block small mem
    have size : blockSizeOf m' b.start = blockSizeOf m b.start := load_congr (kept.narrow (Nat.le_add_right _ _) (by simp))
    refine ⟨⟨old.positive, old.header, ?_, ?_, ?_, ?_⟩, ?_⟩
    · rw [size]
      exact old.least
    · rw [size]
      exact old.fits
    · rw [load_congr (kept.narrow (by omega) (by omega))]
      exact old.flags
    · rw [load_congr (kept.narrow (by omega) (by omega))]
      exact old.shard
    · rw [size]
      exact ((inv.shards s small).repr b mem).size
  have finish : shardStart heapBase n 4 ≤ n := by
    unfold shardStart shardSize
    omega
  have walk : ∀ (blocks : List Block) (lo left : Nat), (∀ b ∈ blocks, b ∈ V.allBlocks) →
      Tiles Block.start Block.size lo (shardStart heapBase n 4) blocks → heapBase ≤ lo → blocks.length < left →
      ∃ r, burst m' (spanWalk region (headerAddress region) (add64 region.base x) left (lo - heapBase)) = ([], ret r) := by
    intro blocks
    induction blocks with
    | nil =>
      intro lo left _ tiles low more
      obtain ⟨left, rfl⟩ : ∃ f, left = f + 1 := ⟨left - 1, by simp at more; omega⟩
      have here : lo = shardStart heapBase n 4 := tiles
      unfold shardStart shardSize at here
      obtain ⟨e, stop⟩ := burst_span_rest map total header (add64 region.base x) left (t := lo - heapBase) (by omega)
      exact ⟨.error e, stop⟩
    | cons b rest ih =>
      intro lo left sub tiles low more
      obtain ⟨left, rfl⟩ : ∃ f, left = f + 1 := ⟨left - 1, by simp at more; omega⟩
      obtain ⟨first, wide, later⟩ := tiles
      obtain ⟨whole, size⟩ := valid b (sub b List.mem_cons_self)
      have place : heapBase + (lo - heapBase) = b.start := by omega
      rw [burst_span_step map total header left (place.symm ▸ whole) offset, place, size]
      split
      · exact ⟨_, rfl⟩
      · have next : lo - heapBase + b.size = lo + b.size - heapBase := by omega
        rw [next]
        exact ih _ left (fun c mc => sub c (List.mem_cons_of_mem b mc)) later (by omega)
          (by simpa using more)
  have short : V.allBlocks.length < fuel := by
    have large : ∀ b ∈ V.allBlocks, 32 ≤ b.size := by
      intro b mb
      have least := (valid b mb).1.least
      rwa [(valid b mb).2] at least
    have few := tiles_length_bound inv.all_tiles large
    have base : heapBase = 2736 := rfl
    omega
  unfold allocatorGetAllocationSpan
  have address : add64 region.base x = region.base + x := add64_eq (by omega)
  rw [if_neg (by omega)]
  simp only [allocatorHeader_eq map (total ▸ (by omega : 2728 ≤ n))]
  rw [burst_bind_of_ret (burst_header_valid map total header)]
  simpa using walk V.allBlocks heapBase fuel (fun b mb => mb) inv.all_tiles (Nat.le_refl _) short

/-- At most the header words at h have changed, and then the block at o may have been released. -/
def AtMostReleased (n h o : Nat) (m m' : Mem) : Prop :=
  m' = m ∨ ∃ m₁, SameOff m m₁ h (h + 16) ∧ (m' = m₁ ∨
    (Accepted n m₁ o h ∧ m' = releasedAt m₁ (load m₁ (o + BlockHeader.shard) 4) o))

theorem AtMostReleased.load {n h o : Nat} {m m' : Mem} (ends : AtMostReleased n h o m m') {x k : Nat}
    (offHeader : x + k ≤ h ∨ h + 16 ≤ x) (offHeads : x + k ≤ 2688 ∨ 2720 ≤ x) (offBlock : x + k ≤ o + 8 ∨ o + 28 ≤ x) :
    load m' x k = load m x k := by
  obtain rfl | ⟨m₁, marked, rfl | ⟨accepted, rfl⟩⟩ := ends
  · rfl
  · exact marked.load (by omega)
  · have owner : ByteMemory.load m₁ (o + BlockHeader.shard) 4 < 4 := accepted.shard
    have cell := headCell_eq (ByteMemory.load m₁ (o + BlockHeader.shard) 4)
    rw [releasedAt_load offBlock (by omega), marked.load (by omega)]

/-- A list head stays, or leads to the block, which leads on to the old first node. -/
theorem AtMostReleased.head {n h o t : Nat} {m m' : Mem} (ends : AtMostReleased n h o m m') (shard : t < 4) (low : 2720 ≤ o)
    (above : 2720 ≤ h) (word : o < 2 ^ 64) :
    ByteMemory.load m' (headCell t) 8 = ByteMemory.load m (headCell t) 8 ∨
      (ByteMemory.load m' (headCell t) 8 = o ∧ ByteMemory.load m' (o + 8) 8 = ByteMemory.load m (headCell t) 8) := by
  have cell := headCell_eq t
  obtain rfl | ⟨m₁, marked, rfl | ⟨accepted, rfl⟩⟩ := ends
  · exact Or.inl rfl
  · exact Or.inl (marked.load (by omega))
  · have other := headCell_eq (ByteMemory.load m₁ (o + BlockHeader.shard) 4)
    by_cases here : t = ByteMemory.load m₁ (o + BlockHeader.shard) 4
    · have words := releasedAt_words (m := m₁) (s := t) (b := o) (by omega)
      rw [← here]
      refine Or.inr ⟨?_, words.link.trans (marked.load (by omega))⟩
      unfold releasedAt
      exact load_store_eight word
    · refine Or.inl ?_
      rw [releasedAt_load (by omega) (by omega), marked.load (by omega)]

/-- object_store_free on any heap whose blocks can be walked: at most it marks the header and releases the block
    that the bytes before it name. -/
theorem exec_objectFree_ends (map : region.Mapped) (total : region.size = n) (header : HeaderRepr n heapBase m)
    (spans : ∀ x, x < n → ∃ r, burst m (allocatorGetAllocationSpan fuel region (add64 region.base x)) = ([], ret r))
    {h : Nat} (low : 2776 ≤ h) (high : h + 16 ≤ n) :
    ∃ status m', exec (objectStoreFree fuel region h) m = some (status, m') ∧
      AtMostReleased n h (load m (h - 8) 8) m m' := by
  have user := map.user
  unfold objectStoreFree objectStoreGetHeaderMut
  rw [if_neg (by simp only [offsetPtrIsNull, decide_eq_true_eq]; omega)]
  obtain ⟨r, first, rfl | rfl⟩ := burst_resolve_ends map (spans h (by omega)) 0
  · rw [exec_bind_of_burst first]
    exact ⟨_, m, rfl, Or.inl rfl⟩
  · rw [exec_bind_of_burst first]
    simp (disch := omega) only [ObjectHeader.size, load32_field]
    simp only [loadWord_bind, exec_read]
    obtain ⟨r, second, rfl | rfl⟩ := burst_resolve_ends map (spans h (by omega)) (load m (h + 0) 4)
    · rw [exec_bind_of_burst second]
      exact ⟨_, m, rfl, Or.inl rfl⟩
    · rw [exec_bind_of_burst second]
      simp (disch := omega) only [ObjectHeader.flags, ObjectHeader.type, ObjectHeader.reserved, load32_field, store32_field]
      simp only [loadWord_bind, storeWord_bind, exec_read, exec_write]
      have marked : SameOff m (store (store (store (store m (h + 8) 4 (load m (h + 8) 4 ||| objectFlagFreed)) (h + 4) 4 0)
          (h + 12) 4 objectFreedMark) (h + 0) 4 (load m (h + 0) 4)) h (h + 16) := by
        intro x out
        rw [store_outside (by omega), store_outside (by omega), store_outside (by omega), store_outside (by omega)]
      generalize store (store (store (store m (h + 8) 4 (load m (h + 8) 4 ||| objectFlagFreed)) (h + 4) 4 0)
          (h + 12) 4 objectFreedMark) (h + 0) 4 (load m (h + 0) 4) = m₁ at marked ⊢
      have kept : HeaderRepr n heapBase m₁ := header.congr (marked.on (by omega))
      have word : load m₁ (h - 8) 8 = load m (h - 8) 8 := marked.load (by omega)
      obtain ⟨accepted, run⟩ | ⟨refused, status, run⟩ := exec_free_cases map total kept (p := h) (by omega) (by omega)
      · rw [word] at accepted run
        exact ⟨_, _, run, Or.inr ⟨m₁, marked, Or.inr ⟨accepted, rfl⟩⟩⟩
      · exact ⟨status, m₁, run, Or.inr ⟨m₁, marked, Or.inl rfl⟩⟩

/-- Where the sizes and the flags of the blocks are those of before, so are the blocks in use; the block at x may
    change its flags. -/
theorem HeapInv.live_blocks_congr (inv : HeapInv n m V) (intact : V.Intact) (offset : heapOffsetOf m' = heapOffsetOf m)
    (total : heapSizeOf m' = heapSizeOf m) {x : Nat}
    (sizes : ∀ s, s < 4 → ∀ b ∈ (V s).blocks, load m' b.start 8 = load m b.start 8)
    (flags : ∀ s, s < 4 → ∀ b ∈ (V s).blocks, b.start ≠ x → load m' (b.start + 16) 4 = load m (b.start + 16) 4) :
    liveBlocks m' \ {x} = liveBlocks m \ {x} := by
  have tiles : ∀ s, s < 4 → Tiles id (blockSizeOf m') (heapOffsetOf m' + s * (heapSizeOf m' / 4))
      (heapOffsetOf m' + (s + 1) * (heapSizeOf m' / 4)) ((V s).blocks.map Block.start) := by
    intro s shard
    rw [offset, total, ← List.map_id ((V s).blocks.map Block.start)]
    refine tiles_map id (inv.shard_shape intact shard).tiles fun b mb => ?_
    obtain ⟨d, md, rfl⟩ := List.mem_map.mp mb
    exact ⟨rfl, sizes s shard d md⟩
  ext b
  simp only [Set.mem_sdiff, Set.mem_singleton_iff]
  refine and_congr_left fun other => ⟨?_, ?_⟩
  · rintro ⟨s, shard, blocks, here, mem, used⟩
    have same := tiles_unique here (tiles s shard)
    subst same
    refine ⟨s, shard, _, (inv.shard_shape intact shard).tiles, mem, ?_⟩
    obtain ⟨d, md, rfl⟩ := List.mem_map.mp mem
    unfold isFreeBlock at used ⊢
    simp only [BlockHeader.flags] at used ⊢
    rwa [← flags s shard d md other]
  · rintro ⟨s, shard, blocks, here, mem, used⟩
    have same := tiles_unique here (inv.shard_shape intact shard).tiles
    subst same
    refine ⟨s, shard, _, tiles s shard, mem, ?_⟩
    obtain ⟨d, md, rfl⟩ := List.mem_map.mp mem
    unfold isFreeBlock at used ⊢
    simp only [BlockHeader.flags] at used ⊢
    rwa [flags s shard d md other]

end Objects

section Lists
variable {n fuel e h : Nat} {region : ShmRegion} {m m₀ : Mem} {V : HeapView} {S₀ : Set Alloc} {s : ListState}
  {hdr : Alloc} {nodes : List Alloc}

theorem HeapInv.live_room (inv : HeapInv n m V) {a : Alloc} (live : V.Live a) (wide : 16 < a.size) :
    a.block + 40 ≤ a.ptr ∧ a.ptr + 32 ≤ a.block + load m a.block 8 := by
  obtain ⟨t, small, b, mb, kind, fits, _⟩ := inv.live_block live
  have low := fits.ptr_ge
  have place := fits.place
  have room := fits.fits
  have rounded := roundUp_sixteen a.size
  have whole := @roundUp_le (payloadPtr b.start a.align - b.start + roundUp a.size 16) 16 (by omega)
  unfold required at room
  rw [fits.block, ((inv.shards t small).repr b mb).size]
  omega

/-- The nodes of a list that stands, as the walk of its destruction needs them. -/
theorem ListStands.nodes_shape (inv : HeapInv n m V) (stands : ListStands s hdr nodes m)
    (live : ∀ a ∈ listFoot hdr nodes, V.Live a) : Nodes n nodes := by
  have positive := stands.positive
  have room : ∀ a ∈ nodes, a.block + 40 ≤ a.ptr ∧ a.ptr + 32 ≤ a.block + load m a.block 8 := by
    intro a ma
    have width := stands.layout.width a ma
    exact inv.live_room (live a (node_in hdr ma)) (by omega)
  refine ⟨fun a ma => ?_, fun a ma b mb => ?_, (List.nodup_cons.mp stands.layout.distinct).2⟩
  · have bounds := inv.live_bounds (live a (node_in hdr ma))
    have width := stands.layout.width a ma
    unfold heapBase at bounds
    omega
  · obtain ⟨t, small, c, mc, kind, fits, _⟩ := inv.live_block (live a (node_in hdr ma))
    obtain ⟨t', small', d, md, kind', fits', _⟩ := inv.live_block (live b (node_in hdr mb))
    have roomA := room a ma
    have roomB := room b mb
    rw [fits.block, ((inv.shards t small).repr c mc).size] at roomA
    rw [fits'.block, ((inv.shards t' small').repr d md).size] at roomB
    rcases inv.blocks_apart small small' mc md with ⟨_, same⟩ | apart | apart
    · rw [same, kind'] at kind
      exact Or.inl (Use.live.inj kind).symm
    · omega
    · omega

theorem backlinks_of_segment {p : Nat} (chain : Segment (fun c => load m c 8) 8 (hdr.ptr + 24) (nodes.map Alloc.ptr).reverse)
    (first : ∀ b rest, nodes = b :: rest → load m (b.ptr + 8) 8 = p) : Backlinks m p nodes := by
  induction nodes generalizing p with
  | nil => trivial
  | cons b rest ih =>
    rw [List.map_cons, List.reverse_cons] at chain
    obtain ⟨front, last⟩ := segment_append.mp chain
    refine ⟨first b rest rfl, ih front fun c later order => ?_⟩
    have turn := last.1
    rw [cellAfter_reverse, order, List.map_cons] at turn
    exact turn

theorem ListStands.backlinks (stands : ListStands s hdr nodes m) : Backlinks m 0 nodes := by
  have back := stands.links.backward
  rw [← List.append_nil (nodes.map Alloc.ptr).reverse] at back
  obtain ⟨segment, ends⟩ := chain_append.mp back
  refine backlinks_of_segment segment fun b rest order => ?_
  have turn : load m (cellAfter 8 (hdr.ptr + 24) (nodes.map Alloc.ptr).reverse) 8 = 0 := ends
  rw [cellAfter_reverse, order] at turn
  exact turn

/-- The memory after the walk over all nodes. The link before the first node names no block. -/
def disturbed (n : Nat) : List Alloc → Mem → Mem
  | [], m => m
  | b :: rest, m => walked n b rest m

theorem exec_freeNodes (map : region.Mapped) (total : region.size = n) (enough : n ≤ fuel) (inv : HeapInv n m V)
    (stands : ListStands s hdr nodes m) (live : ∀ a ∈ listFoot hdr nodes, V.Live a) :
    exec (dynlistFreeNodes region fuel (load m (hdr.ptr + 16) 8)) m = some ((), disturbed n nodes m) := by
  have shape := stands.nodes_shape inv live
  have links := stands.links.forward
  have back := stands.backlinks
  have room := inv.room
  unfold heapBase at room
  have few : nodes.length < fuel := by
    have sub : (nodes.map Alloc.ptr).toFinset ⊆ (Finset.range n).erase 0 := by
      intro x mem
      obtain ⟨b, mb, rfl⟩ := List.mem_map.mp (List.mem_toFinset.mp mem)
      have bounds := shape.bounds b mb
      exact Finset.mem_erase.mpr ⟨by omega, Finset.mem_range.mpr (by omega)⟩
    have card := Finset.card_le_card sub
    rw [List.toFinset_card_of_nodup stands.layout.ptrs_nodup, List.length_map,
      Finset.card_erase_of_mem (Finset.mem_range.mpr (by omega)), Finset.card_range] at card
    omega
  obtain ⟨fuel, rfl⟩ : ∃ f, fuel = f + 1 := ⟨fuel - 1, by omega⟩
  cases nodes with
  | nil =>
    rw [show load m (hdr.ptr + 16) 8 = 0 from links, dynlistFreeNodes]
    rfl
  | cons b rest =>
    have refused : ¬Accepted n m 0 (b.ptr + DynListNodeHeader.sizeof) := fun accepted => absurd accepted.positive (by simp)
    rw [show load m (hdr.ptr + 16) 8 = b.ptr from links.1, exec_free_node map total inv.header
      (shape.bounds b List.mem_cons_self) fuel back.1, if_neg refused]
    exact exec_walk map total inv.header shape links.2.2 back.2 (by simpa using few)

/-- The walk stores into no block header. -/
theorem disturbed_same {x : Nat} (place : x < 2688 ∨ 2720 ≤ x) (away : ∀ a ∈ nodes, x < a.ptr + 8 ∨ a.ptr + 28 ≤ x) :
    disturbed n nodes m x = m x := by
  cases nodes with
  | nil => rfl
  | cons b rest => exact walked_outside place away

theorem disturbed_block (inv : HeapInv n m V) (stands : ListStands s hdr nodes m) (live : ∀ a ∈ listFoot hdr nodes, V.Live a)
    {t : Nat} (shard : t < 4) {d : Block} (md : d ∈ (V t).blocks) :
    SameOn m (disturbed n nodes m) d.start (d.start + 40) := by
  have positive := stands.positive
  have inside := (inv.shards t shard).bounds md
  have start := shardStart_ge n t
  intro x left right
  refine disturbed_same (by omega) fun a ma => ?_
  have width := stands.layout.width a ma
  have room := inv.live_room (live a (node_in hdr ma)) (by omega)
  obtain ⟨u, small, b, mb, kind, fits, _⟩ := inv.live_block (live a (node_in hdr ma))
  rw [fits.block, ((inv.shards u small).repr b mb).size] at room
  rcases inv.blocks_apart shard small md mb with ⟨_, same⟩ | apart | apart
  · rw [same] at left right
    omega
  · omega
  · omega

/-- What the destruction of a list leaves of the heap: the walk may have moved list heads, and the header may
    have been released. -/
structure Destroyed (n : Nat) (V : HeapView) (hdr : Alloc) (nodes : List Alloc) (m m' : Mem) : Prop where
  block : 0 < hdr.block
  offset : heapOffsetOf m' = heapOffsetOf m
  total : heapSizeOf m' = heapSizeOf m
  sizes : ∀ t, t < 4 → ∀ b ∈ (V t).blocks, load m' b.start 8 = load m b.start 8
  flags : ∀ t, t < 4 → ∀ b ∈ (V t).blocks, b.start ≠ hdr.block → load m' (b.start + 16) 4 = load m (b.start + 16) 4
  heads : ∀ t, t < 4 → load m' (headCell t) 8 = load (disturbed n nodes m) (headCell t) 8 ∨
    (load m' (headCell t) 8 = hdr.block ∧ load m' (hdr.block + 8) 8 = load (disturbed n nodes m) (headCell t) 8)

theorem exec_listDestroy (map : region.Mapped) (total : region.size = n) (enough : n ≤ fuel) (inv : HeapInv n m V)
    (stands : ListStands s hdr nodes m) (live : ∀ a ∈ listFoot hdr nodes, V.Live a) (foot : Footprint n (listFoot hdr nodes))
    {status : OffsetStoreStatus} {m' : Mem}
    (run : exec (objectStoreFree fuel region s.handle) (disturbed n nodes m) = some (status, m')) :
    exec (dynlistDestroy fuel region s.handle) m = some ((), m') := by
  have bounds := foot.bounds hdr (header_in hdr nodes)
  have size := stands.layout.size
  have user := map.user
  unfold dynlistDestroy
  simp only [resolve_list map total foot stands, DynListHeader.head]
  rw [exec_bind_of_some (show exec (dynlistLock region (add64 region.base hdr.ptr)) m = some ((), m) from rfl),
    load64_field (by omega), loadWord_bind, exec_read,
    exec_bind_of_some (exec_freeNodes map total enough inv stands live)]
  simp only [dynlistUnlock, containerUnlock, perform_bind, exec_call]
  rw [exec_bind_of_some run]
  rfl

/-- The walk stores into no word below the list heads. -/
theorem disturbed_below (inv : HeapInv n m V) (live : ∀ a ∈ listFoot hdr nodes, V.Live a) {x : Nat} (below : x < 2688) :
    disturbed n nodes m x = m x := by
  refine disturbed_same (Or.inl below) fun a ma => ?_
  have bounds := inv.live_bounds (live a (node_in hdr ma))
  unfold heapBase at bounds
  omega

/-- Nor into the prefix of the list header. -/
theorem disturbed_prior (inv : HeapInv n m V) (stands : ListStands s hdr nodes m) (live : ∀ a ∈ listFoot hdr nodes, V.Live a) :
    load (disturbed n nodes m) (hdr.ptr - 8) 8 = hdr.block := by
  obtain ⟨u, small, b, mb, kind, fits, _⟩ := inv.live_block (live hdr (header_in hdr nodes))
  have low := fits.ptr_ge
  have high := fits.ptr_le
  have first := shardStart_ge n u
  have use := ((inv.shards u small).repr b mb).use
  unfold UseRepr at use
  rw [kind] at use
  rw [load_congr (m := m), use.2.2.2, fits.block]
  intro x left right
  refine disturbed_same (by omega) fun a ma => ?_
  have positive := stands.positive
  have width := stands.layout.width a ma
  have inside := inv.live_room (live a (node_in hdr ma)) (by omega)
  obtain ⟨v, small', d, md, kind', fits', _⟩ := inv.live_block (live a (node_in hdr ma))
  rw [fits'.block, ((inv.shards v small').repr d md).size] at inside
  rcases inv.blocks_apart small small' mb md with ⟨_, same⟩ | apart | apart
  · rw [same, kind'] at kind
    have eq := Use.live.inj kind
    rw [eq] at ma
    exact absurd ma (List.nodup_cons.mp stands.layout.distinct).1
  · omega
  · omega

/-- The header of a block, its own block apart, meets neither a live payload nor the header of its block. -/
theorem HeapInv.live_apart_header (inv : HeapInv n m V) {a : Alloc} (live : V.Live a) {t : Nat} (shard : t < 4) {d : Block}
    (md : d ∈ (V t).blocks) : 2736 ≤ d.start ∧ (d.start + 40 ≤ a.ptr ∨ a.ptr + a.size ≤ d.start) ∧
      (d.start ≠ a.block → d.start + 32 ≤ a.block ∨ a.block + 28 ≤ d.start) := by
  obtain ⟨u, small, b, mb, kind, fits, _⟩ := inv.live_block live
  have low := fits.ptr_ge
  have high := fits.ptr_le
  have hblock := fits.block
  have start := shardStart_ge n t
  have first := shardStart_ge n u
  have inside := (inv.shards t shard).bounds md
  have insideB := (inv.shards u small).bounds mb
  rcases inv.blocks_apart small shard mb md with ⟨_, same⟩ | apart | apart
  · rw [← same]
    omega
  · omega
  · omega

theorem exec_destroyed (map : region.Mapped) (total : region.size = n) (enough : n ≤ fuel) (inv : HeapInv n m V)
    (stands : ListStands s hdr nodes m) (live : ∀ a ∈ listFoot hdr nodes, V.Live a) (foot : Footprint n (listFoot hdr nodes)) :
    ∃ m', exec (dynlistDestroy fuel region s.handle) m = some ((), m') ∧ Destroyed n V hdr nodes m m' := by
  have user := map.user
  have mine := live hdr (header_in hdr nodes)
  have bounds := foot.bounds hdr (header_in hdr nodes)
  have size := stands.layout.size
  unfold heapBase at bounds
  obtain ⟨u, small, b, mb, _, fits, inLow, _⟩ := inv.live_block mine
  have first := shardStart_ge n u
  have hblock := fits.block
  have low := fits.ptr_ge
  have word : ∀ x k, x + k ≤ 2688 → load (disturbed n nodes m) x k = load m x k := fun x k fits =>
    load_congr fun y _ high => disturbed_below inv live (by omega)
  have kept : HeaderRepr n heapBase (disturbed n nodes m) :=
    inv.header.congr fun x _ high => disturbed_below inv live (by omega)
  have blocks : ∀ t, t < 4 → ∀ d ∈ (V t).blocks, SameOn m (disturbed n nodes m) d.start (d.start + 40) := fun t shard d md =>
    disturbed_block inv stands live shard md
  obtain ⟨status, m', run, ends⟩ := exec_objectFree_ends (h := s.handle) map total kept
    (fun x inside => burst_span_ends map total inv enough kept
      (fun t shard d md => (blocks t shard d md).narrow (Nat.le_refl _) (by omega)) inside)
    (by rw [← stands.place]; omega) (by rw [← stands.place]; omega)
  refine ⟨m', exec_listDestroy map total enough inv stands live foot run, ?_⟩
  rw [← stands.place, disturbed_prior inv stands live] at ends
  refine ⟨by omega, ?_, ?_, fun t shard d md => ?_, fun t shard d md other => ?_, fun t shard => ?_⟩
  · show load m' 2512 8 = load m 2512 8
    rw [ends.load (by omega) (by omega) (by omega), word _ _ (by omega)]
  · show load m' 2520 8 = load m 2520 8
    rw [ends.load (by omega) (by omega) (by omega), word _ _ (by omega)]
  · obtain ⟨start, offHeader, offBlock⟩ := inv.live_apart_header mine shard md
    rw [ends.load (by omega) (by omega) (by by_cases same : d.start = hdr.block <;> omega),
      load_congr ((blocks t shard d md).narrow (Nat.le_refl _) (by omega))]
  · obtain ⟨start, offHeader, offBlock⟩ := inv.live_apart_header mine shard md
    have away := offBlock other
    rw [ends.load (by omega) (by omega) (by omega), load_congr ((blocks t shard d md).narrow (by omega) (by omega))]
  · exact ends.head shard (by omega) (by omega) (by omega)

end Lists

/-- A list that its user holds, beside the allocations S₀ of the others. -/
structure ListHeld (n : Nat) (S₀ : Set Alloc) (h e : Nat) (m : Mem) (s : ListState) (hdr : Alloc) (nodes : List Alloc) :
    Prop where
  beside : Beside n S₀ (listFoot hdr nodes) m
  stands : ListStands s hdr nodes m
  handle : s.handle = h
  width : s.elemSize = e
  plain : hdr.align = 16

section Sessions
variable {n fuel e h : Nat} {region : ShmRegion} {m m₀ m' : Mem} {S₀ : Set Alloc} {allowed : Nat → (Container.dynlist e).Op → Mem → Prop}

theorem ListHeld.pushed {s : ListState} {hdr : Alloc} {nodes : List Alloc} (held : ListHeld n S₀ h e m s hdr nodes)
    {p : Code Int} {place : Alloc → List Alloc} {elems : List (List UInt8)}
    (does : Does n (listFoot hdr nodes) m p (pushed s hdr nodes place elems))
    (run : exec (do let _ ← p) m = some ((), m')) : ∃ s' nodes', ListHeld n S₀ h e m' s' hdr nodes' := by
  obtain ⟨rc, L', μ', outcome, beside, same⟩ := held.beside.called does run
  rcases outcome with ⟨_, rfl, stands⟩ | ⟨_, a, rfl, stands⟩
  · exact ⟨s, nodes, beside, stands.congr same, held.handle, held.width, held.plain⟩
  · exact ⟨_, place a, beside, stands.congr same, held.handle, held.width, held.plain⟩

theorem ListHeld.seen {α : Type} {s : ListState} {hdr : Alloc} {nodes : List Alloc} (held : ListHeld n S₀ h e m s hdr nodes)
    {p : Code α} {value : α → Prop} (does : Does n (listFoot hdr nodes) m p fun r L' μ' => value r ∧ L' = listFoot hdr nodes ∧ μ' = m)
    (run : exec (do let _ ← p) m = some ((), m')) : ListHeld n S₀ h e m' s hdr nodes := by
  obtain ⟨rc, L', μ', ⟨_, rfl, rfl⟩, beside, same⟩ := held.beside.called does run
  exact ⟨beside, held.stands.congr same, held.handle, held.width, held.plain⟩

theorem Session.list (map : region.Mapped) (total : region.size = n) (large : 2728 ≤ n) (enough : n ≤ fuel)
    (heap : HeapLive n m₀ S₀) (small : e + 128 ≤ 2 ^ 64) (session : Session fuel region (.dynlist e) allowed m₀ h m) :
    ∃ s hdr nodes, ListHeld n S₀ h e m s hdr nodes := by
  induction session with
  | created run made =>
    obtain ⟨h', m', L', μ', ran, outcome, beside, same⟩ :=
      does_beside (does_listMake map total large enough (show e < 2 ^ 64 by omega)) (beside_nothing heap)
    obtain ⟨rfl, rfl⟩ := Prod.mk.inj (Option.some.inj (ran.symm.trans run))
    rcases outcome with ⟨null, _⟩ | ⟨_, hdr, _, rfl, rfl, plain, _, stands⟩
    · exact absurd null made
    · have foot : insert hdr ∅ = listFoot hdr [] := by simp [listFoot]
      rw [foot] at beside same
      exact ⟨_, hdr, [], beside, stands.congr same, rfl, rfl, plain⟩
  | called before op may run ih =>
    obtain ⟨s, hdr, nodes, held⟩ := ih
    have handle := held.handle
    subst handle
    have bound : s.elemSize + 128 ≤ 2 ^ 64 := by
      rw [held.width]
      exact small
    cases op with
    | pushBack elem =>
      obtain ⟨s', nodes', held'⟩ := held.pushed (does_pushedBack map total large enough held.stands bound elem) run
      exact ⟨s', hdr, nodes', held'⟩
    | pushFront elem =>
      obtain ⟨s', nodes', held'⟩ := held.pushed (does_pushedFront map total large enough held.stands bound elem) run
      exact ⟨s', hdr, nodes', held'⟩
    | nodeGet index => exact ⟨s, hdr, nodes, held.seen (does_listGet map total held.stands index) run⟩
    | nodeCount => exact ⟨s, hdr, nodes, held.seen (does_listLength map total held.stands) run⟩

/-- The destruction of a list takes the allocations of its nodes away exactly when there are none. -/
theorem list_destroy_clean_iff (map : region.Mapped) (total : region.size = n) (large : 2728 ≤ n) (enough : n ≤ fuel)
    (heap : HeapLive n m₀ S₀) (small : e + 128 ≤ 2 ^ 64) (session : Session fuel region (.dynlist e) allowed m₀ h m) :
    ∃ m', exec (dynlistDestroy fuel region h) m = some ((), m') ∧
      (liveBlocks m' \ {load m (h - AllocationPrefix.sizeof) 8} = liveBlocks m₀ ↔ load m (h + DynListHeader.length) 8 = 0) := by
  obtain ⟨s, hdr, nodes, held⟩ := session.list map total large enough heap small
  have stands := held.stands
  have foot := held.beside.heap.footprint
  have place := stands.place
  have live := held.beside.heap
  obtain ⟨V, inv, intact, live⟩ := live
  have mine : ∀ a ∈ listFoot hdr nodes, V.Live a := fun a mem => (live a).mpr (Or.inl mem)
  obtain ⟨m', run, destroyed⟩ := exec_destroyed map total enough inv stands mine (foot.mono Set.subset_union_left)
  rw [held.handle] at run place
  have named : load m (h - AllocationPrefix.sizeof) 8 = hdr.block := by
    rw [← place]
    exact held.beside.heap.named (Or.inl (header_in hdr nodes))
  refine ⟨m', run, ?_⟩
  rw [named, inv.live_blocks_congr intact destroyed.offset destroyed.total destroyed.sizes destroyed.flags,
    held.beside.heap.blocks, heap.blocks]
  have count : load m (h + DynListHeader.length) 8 = nodes.length := by
    rw [← place]
    exact stands.length.trans (by rw [← stands.elements, List.length_map])
  have injective := held.beside.heap.block_injective
  have header : hdr ∈ listFoot hdr nodes ∪ S₀ := Or.inl (header_in hdr nodes)
  have other : ∀ a ∈ S₀, a.block ≠ hdr.block := by
    intro a ma same
    rw [injective (Or.inr ma) header same] at ma
    exact Set.disjoint_left.mp held.beside.apart (header_in hdr nodes) ma
  rw [count, List.length_eq_zero_iff]
  constructor
  · intro same
    refine List.eq_nil_iff_forall_not_mem.mpr fun a ma => ?_
    have inside : a ∈ listFoot hdr nodes := node_in hdr ma
    have distinct : a.block ≠ hdr.block := by
      intro eq
      rw [injective (Or.inl inside) header eq] at ma
      exact (List.nodup_cons.mp stands.layout.distinct).1 ma
    have there : a.block ∈ Alloc.block '' S₀ := same ▸ ⟨Set.mem_image_of_mem _ (Or.inl inside), distinct⟩
    obtain ⟨c, mc, eq⟩ := there
    rw [injective (Or.inr mc) (Or.inl inside) eq] at mc
    exact Set.disjoint_left.mp held.beside.apart inside mc
  · rintro rfl
    ext x
    simp only [Set.mem_sdiff, Set.mem_image, Set.mem_union, Set.mem_singleton_iff]
    constructor
    · rintro ⟨⟨a, here | there, rfl⟩, away⟩
      · have only : a = hdr := by simpa [listFoot] using here
        exact absurd (only ▸ rfl) away
      · exact ⟨a, there, rfl⟩
    · rintro ⟨a, there, rfl⟩
      exact ⟨⟨a, Or.inr there, rfl⟩, other a there⟩

theorem list_destroy_clean_small : ∃ m m', Session 4096 smallRegion (.dynlist 8) (fun _ _ _ => True) initialised 2784 m ∧
    exec (dynlistDestroy 4096 smallRegion 2784) m = some ((), m') ∧
    (liveBlocks m' \ {load m (2784 - AllocationPrefix.sizeof) 8} = liveBlocks initialised ↔
      load m (2784 + DynListHeader.length) 8 = 0) := by
  have made : (exec (dynlistCreate 4096 smallRegion 8) initialised).bind (fun r =>
      (exec ((Container.Op.pushBack (e := 8) fun _ => 0).code 4096 smallRegion 2784) r.2).map fun _ => r.1) = some 2784 := by
    decide +kernel
  obtain ⟨⟨h, m⟩, run, shown⟩ := Option.bind_eq_some_iff.mp made
  obtain ⟨⟨_, m₁⟩, push, same⟩ := Option.map_eq_some_iff.mp shown
  have handle : h = 2784 := same
  subst handle
  have session : Session 4096 smallRegion (.dynlist 8) (fun _ _ _ => True) initialised 2784 m₁ :=
    .called (.created run (by decide)) (.pushBack fun _ => 0) trivial push
  obtain ⟨m', destroy, clean⟩ := list_destroy_clean_iff smallRegion_mapped rfl (by decide) (Nat.le_refl _)
    heapLive_initialised (by decide) session
  exact ⟨m₁, m', session, destroy, clean⟩

/-- The block of its node, at 2880, stays allocated. -/
theorem list_node_leaks : ∃ m m', Session 4096 smallRegion (.dynlist 8) (fun _ _ _ => True) initialised 2784 m ∧
    exec (dynlistDestroy 4096 smallRegion 2784) m = some ((), m') ∧
    ¬liveBlocks m' \ {load m (2784 - AllocationPrefix.sizeof) 8} = liveBlocks initialised := by
  have made : (exec (dynlistCreate 4096 smallRegion 8) initialised).bind (fun r =>
      (exec ((Container.Op.pushBack (e := 8) fun _ => 0).code 4096 smallRegion 2784) r.2).bind fun q =>
        (exec (dynlistDestroy 4096 smallRegion 2784) q.2).map fun d =>
          [r.1, load q.2 (2784 - AllocationPrefix.sizeof) 8, load d.2 2512 8, load d.2 2520 8, load d.2 2736 8, load d.2 2880 8,
            load d.2 2896 4, load d.2 2960 8]) = some [2784, 2736, 2736, 1360, 144, 80, 0, 116] := by decide +kernel
  obtain ⟨⟨h, m⟩, run, shown⟩ := Option.bind_eq_some_iff.mp made
  obtain ⟨⟨_, m₁⟩, push, shown⟩ := Option.bind_eq_some_iff.mp shown
  obtain ⟨⟨_, m'⟩, destroy, same⟩ := Option.map_eq_some_iff.mp shown
  simp only [List.cons.injEq, and_true] at same
  obtain ⟨rfl, header, offset, total, first, second, flags, third⟩ := same
  refine ⟨m₁, m', .called (.created run (by decide)) (.pushBack fun _ => 0) trivial push, destroy, fun clean => ?_⟩
  have none := heapLive_initialised.blocks
  rw [Set.image_empty, ← clean, header] at none
  have here : 2880 ∈ liveBlocks m' \ {2736} := by
    refine ⟨⟨0, by omega, [2736, 2880, 2960], ?_, by simp, ?_⟩, by simp⟩
    · simp [Tiles, heapOffsetOf, heapSizeOf, blockSizeOf, offset, total, first, second, third]
    · simp [isFreeBlock, flags]
  rw [none] at here
  exact here

/-- The nodes of a free list are blocks, whatever tells where the blocks are. -/
theorem HeapInv.free_in_tiles {V : HeapView} (inv : HeapInv n m V) {t x : Nat} (shard : t < 4) {blocks : List Nat}
    (tiles : Tiles id (blockSizeOf m) (shardStart heapBase n t) (shardStart heapBase n t + shardSize heapBase n) blocks)
    (mem : x ∈ (V t).free) : x ∈ blocks := by
  have own : Tiles id (blockSizeOf m) (shardStart heapBase n t) (shardStart heapBase n t + shardSize heapBase n)
      ((V t).blocks.map Block.start) :=
    tiles_map Block.start (inv.shards t shard).tiles fun b mb => ⟨rfl, ((inv.shards t shard).repr b mb).size⟩
  obtain ⟨b, mb, rfl, _⟩ := (inv.shards t shard).block_of_free mem
  rw [tiles_unique tiles own]
  exact List.mem_map_of_mem mb

/-- A list head at a node, or one link behind it, is no state of a heap. -/
theorem Destroyed.not_heap {V V' : HeapView} {hdr a : Alloc} {nodes : List Alloc} (inv : HeapInv n m V)
    (destroyed : Destroyed n V hdr nodes m m') (live : V.Live a) {t : Nat} (shard : t < 4)
    (head : load (disturbed n nodes m) (headCell t) 8 = a.ptr) : ¬HeapInv n m' V' := by
  intro after
  have bounds := inv.live_bounds live
  have tiles : Tiles id (blockSizeOf m') (shardStart heapBase n t) (shardStart heapBase n t + shardSize heapBase n)
      ((V t).blocks.map Block.start) :=
    tiles_map Block.start (inv.shards t shard).tiles fun b mb =>
      ⟨rfl, (destroyed.sizes t shard b mb).trans ((inv.shards t shard).repr b mb).size⟩
  have chain := (after.shards t shard).chain
  have listed : a.ptr ∈ (V' t).free := by
    rcases destroyed.heads t shard with same | ⟨first, next⟩
    · rw [head] at same
      cases list : (V' t).free with
      | nil =>
        rw [list] at chain
        have zero : load m' (headCell t) 8 = 0 := chain
        omega
      | cons x rest =>
        rw [list] at chain
        have here : load m' (headCell t) 8 = x := chain.1
        rw [← here, same]
        exact List.mem_cons_self
    · rw [head] at next
      cases list : (V' t).free with
      | nil =>
        rw [list] at chain
        have zero : load m' (headCell t) 8 = 0 := chain
        have positive := destroyed.block
        omega
      | cons x rest =>
        rw [list] at chain
        obtain ⟨here, _, chain⟩ := chain
        have same : x = hdr.block := here.symm.trans first
        subst same
        cases rest with
        | nil =>
          have zero : load m' (hdr.block + 8) 8 = 0 := chain
          omega
        | cons y rest =>
          have there : load m' (hdr.block + 8) 8 = y := chain.1
          rw [← there, next]
          simp
  have mem := after.free_in_tiles shard tiles listed
  obtain ⟨b, mb, start⟩ := List.mem_map.mp mem
  obtain ⟨u, small, c, mc, kind, fits, _⟩ := inv.live_block live
  have low := fits.ptr_ge
  have high := fits.ptr_le
  have large := (inv.shards t shard).large b mb
  rcases inv.blocks_apart shard small mb mc with ⟨_, same⟩ | apart | apart
  · rw [same] at start
    omega
  · omega
  · omega

/-- The destruction of a list keeps the invariant of the heap exactly when no node looks like the header of a block
    that starts the element of the next node. -/
theorem list_destroy_heap_iff (map : region.Mapped) (total : region.size = n) (large : 2728 ≤ n) (enough : n ≤ fuel)
    (heap : HeapLive n m₀ S₀) (small : e + 128 ≤ 2 ^ 64) (session : Session fuel region (.dynlist e) allowed m₀ h m) :
    ∃ s hdr nodes, ListStands s hdr nodes m ∧ s.handle = h ∧ ∃ m', exec (dynlistDestroy fuel region h) m = some ((), m') ∧
      ((∃ V, HeapInv n m' V) ↔ nodes.IsChain fun a b => ¬Forged n m a b) := by
  obtain ⟨s, hdr, nodes, held⟩ := session.list map total large enough heap small
  have stands := held.stands
  have foot := held.beside.heap.footprint.mono (Set.subset_union_left (s := listFoot hdr nodes) (t := S₀))
  have live := held.beside.heap
  obtain ⟨V, inv, intact, live⟩ := live
  have mine : ∀ a ∈ listFoot hdr nodes, V.Live a := fun a mem => (live a).mpr (Or.inl mem)
  obtain ⟨m', run, destroyed⟩ := exec_destroyed map total enough inv stands mine foot
  refine ⟨s, hdr, nodes, stands, held.handle, m', held.handle ▸ run, ?_⟩
  have quiet : disturbed n nodes m = m → ∃ V, HeapInv n m' V := by
    intro same
    obtain ⟨status, m₁, freed, outcome⟩ := exec_objectFree map total enough held.beside.heap (Or.inl (header_in hdr nodes)) held.plain
      (by have size := stands.layout.size; omega)
    rw [stands.place, ← same] at freed
    have ends := exec_listDestroy map total enough inv stands mine foot freed
    obtain rfl := (Prod.mk.inj (Option.some.inj (run.symm.trans ends))).2
    rcases outcome with ⟨_, release⟩ | ⟨_, kept⟩
    · obtain ⟨V', after, _⟩ := release.heap
      exact ⟨V', after⟩
    · exact ⟨V, kept ▸ inv⟩
  cases nodes with
  | nil => exact iff_of_true (quiet rfl) .nil
  | cons b rest =>
    have bounds : ∀ c ∈ b :: rest, 2776 ≤ c.ptr ∧ c.ptr < 2 ^ 64 := by
      intro c mc
      have user := map.user
      have bounds := foot.bounds c (node_in hdr mc)
      unfold heapBase at bounds
      omega
    rcases walked_cases (n := n) (m := m) bounds with ⟨inert, same⟩ | ⟨hit, t, shard, c, mc, head⟩
    · exact iff_of_true (quiet same) inert
    · exact iff_of_false (fun ⟨V', after⟩ => destroyed.not_heap inv (mine c (node_in hdr mc)) shard head after) hit

/-- Sixteen bytes that pass for flags, shard and payload offset of a block whose payload is 96 bytes behind it. -/
def lookalike : Mem := fun i => if i = 8 then 96 else 0

theorem list_destroy_heap_small : ∃ m s hdr nodes, ListStands s hdr nodes m ∧ s.handle = 2784 ∧
    ∃ m', exec (dynlistDestroy 4096 smallRegion 2784) m = some ((), m') ∧
      ((∃ V, HeapInv 4096 m' V) ↔ nodes.IsChain fun a b => ¬Forged 4096 m a b) := by
  have made : (exec (dynlistCreate 4096 smallRegion 16) initialised).bind (fun r =>
      (exec ((Container.Op.pushBack (e := 16) lookalike).code 4096 smallRegion 2784) r.2).bind fun q =>
        (exec ((Container.Op.pushBack (e := 16) lookalike).code 4096 smallRegion 2784) q.2).map fun _ => r.1) = some 2784 := by
    decide +kernel
  obtain ⟨⟨h, m⟩, run, shown⟩ := Option.bind_eq_some_iff.mp made
  obtain ⟨⟨_, m₁⟩, first, shown⟩ := Option.bind_eq_some_iff.mp shown
  obtain ⟨⟨_, m₂⟩, second, same⟩ := Option.map_eq_some_iff.mp shown
  have handle : h = 2784 := same
  subst handle
  have session : Session 4096 smallRegion (.dynlist 16) (fun _ _ _ => True) initialised 2784 m₂ :=
    .called (.called (.created run (by decide)) (.pushBack lookalike) trivial first) (.pushBack lookalike) trivial second
  exact ⟨m₂, list_destroy_heap_iff smallRegion_mapped rfl (by decide) (Nat.le_refl _) heapLive_initialised (by decide) session⟩

/-- Its destruction puts the first node, at 2928, on a free list, where no block starts. -/
theorem list_destroy_corrupts : ∃ m m', Session 4096 smallRegion (.dynlist 16) (fun _ _ _ => True) initialised 2784 m ∧
    HeapInv 4096 initialised (freshView 4096) ∧ exec (dynlistDestroy 4096 smallRegion 2784) m = some ((), m') ∧
    ¬∃ V, HeapInv 4096 m' V := by
  have made : (exec (dynlistCreate 4096 smallRegion 16) initialised).bind (fun r =>
      (exec ((Container.Op.pushBack (e := 16) lookalike).code 4096 smallRegion 2784) r.2).bind fun q =>
        (exec ((Container.Op.pushBack (e := 16) lookalike).code 4096 smallRegion 2784) q.2).bind fun t =>
          (exec (dynlistDestroy 4096 smallRegion 2784) t.2).map fun d =>
            [r.1, load d.2 2688 8, load d.2 2744 8, load d.2 2736 8, load d.2 2880 8, load d.2 2960 8]) =
      some [2784, 2736, 2928, 144, 80, 116] := by decide +kernel
  obtain ⟨⟨h, m⟩, run, shown⟩ := Option.bind_eq_some_iff.mp made
  obtain ⟨⟨_, m₁⟩, first, shown⟩ := Option.bind_eq_some_iff.mp shown
  obtain ⟨⟨_, m₂⟩, second, shown⟩ := Option.bind_eq_some_iff.mp shown
  obtain ⟨⟨_, m'⟩, destroy, same⟩ := Option.map_eq_some_iff.mp shown
  simp only [List.cons.injEq, and_true] at same
  obtain ⟨rfl, head, next, sizes⟩ := same
  refine ⟨m₂, m', .called (.called (.created run (by decide)) (.pushBack lookalike) trivial first) (.pushBack lookalike)
    trivial second, initialised_inv, destroy, ?_⟩
  rintro ⟨V, inv⟩
  have tiles : Tiles id (blockSizeOf m') (shardStart heapBase 4096 0) (shardStart heapBase 4096 0 + shardSize heapBase 4096)
      [2736, 2880, 2960] := by
    obtain ⟨first, second, third⟩ := sizes
    simp [Tiles, shardStart, shardSize, heapBase, blockSizeOf, first, second, third]
  have chain := (inv.shards 0 (by omega)).chain
  have listed : 2928 ∈ (V 0).free := by
    cases list : (V 0).free with
    | nil =>
      rw [list] at chain
      have zero : load m' 2688 8 = 0 := chain
      omega
    | cons x rest =>
      rw [list] at chain
      obtain ⟨here, _, chain⟩ := chain
      have same : x = 2736 := here.symm.trans head
      subst same
      cases rest with
      | nil =>
        have zero : load m' 2744 8 = 0 := chain
        omega
      | cons y rest =>
        have there : load m' 2744 8 = y := chain.1
        rw [← there, next]
        simp
  have block := inv.free_in_tiles (by omega) tiles listed
  simp at block

end Sessions

end OffsetStore
