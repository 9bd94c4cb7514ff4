import OffsetStore.HeapWalk

/- From the stores of one shard to the whole heap: taking a block adds exactly one
   live allocation, releasing one removes it, and all other payloads keep their
   bytes. -/
namespace OffsetStore
open ByteMemory Program Prog Words Tiling CellChain

namespace ShardInv
variable {m : Mem} {lo hi s size : Nat} {v : ShardView} {bs cs : List Block} {b : Block}
  {pre post : List Nat}

/-- Writing the header of the rest of a block that is about to be split. -/
theorem rest_prefix (inv : ShardInv m lo hi s v) (here : v.blocks = bs ++ b :: cs)
    (free : b.use = .free) (first : 56 ≤ size) (rest : size + 56 ≤ b.size) (next k : Nat) :
    ShardInv (applyStores m ((restStores (b.start + size) (b.size - size) next s).take k)) lo hi s v := by
  apply inv.scribble here free
  apply applyStores_off
  intro w mem
  have inside := restStores_inside k w mem
  omega

theorem split_moved (inv : ShardInv m lo hi s v) (list : v.free = pre ++ b.start :: post)
    (here : v.blocks = bs ++ b :: cs) (free : b.use = .free) (first : 56 ≤ size)
    (rest : size + 56 ≤ b.size) (shard : s < 4) (small : hi < 2 ^ 64) :
    ShardInv (applyStores m (restStores (b.start + size) (b.size - size) (load m (b.start + 8) 8) s ++
        moveLinkStores (cellAfter 8 (headCell s) pre) b.start size)) lo hi s
      ⟨bs ++ ⟨b.start, size, .leaked⟩ :: ⟨b.start + size, b.size - size, .free⟩ :: cs,
        pre ++ (b.start + size) :: post⟩ := by
  have inside := inv.bounds (by simp [here] : b ∈ v.blocks)
  have written := inv.rest_prefix here free first rest (load m (b.start + 8) 8) 5
  rw [List.take_of_length_le (by simp [restStores])] at written
  rw [applyStores_append]
  refine written.split here list free first rest (by omega) ?_ ?_ (by omega)
  · exact restStores_repr (by omega) shard (by omega)
  · have word := load_eight_lt m (b.start + 8)
    simp (disch := omega) only [restStores, applyStores_cons, applyStores_nil, load_store_apart,
      load_store_mod]
    omega

end ShardInv

/-- Nothing outside shard s and its list head changes. -/
def ShardFrame (n s : Nat) (m m' : Mem) : Prop :=
  ∀ a, (a < shardStart heapBase n s ∨ shardStart heapBase n s + shardSize heapBase n ≤ a) →
    (a < headCell s ∨ headCell s + 8 ≤ a) → m' a = m a

section Frame
variable {n s : Nat} {m m' : Mem} (frame : ShardFrame n s m m')
include frame

/-- The failure counter lies between the list heads and the heap. -/
theorem ShardFrame.failures (shard : s < 4) : load m' 2720 8 = load m 2720 8 := by
  have start := shardStart_ge n s
  refine load_congr fun a low high => frame a (Or.inl (by omega)) ?_
  simp only [headCell, allocatorMetadataOffset, RegionHeader.sizeof, AllocatorHeader.shardFreeListHeads]
  omega

theorem HeaderRepr.framed (header : HeaderRepr n heapBase m) : HeaderRepr n heapBase m' := by
  have low := shardStart_ge n s
  refine header.congr fun a _ high => frame a (Or.inl (by omega)) ?_
  simp only [headCell, allocatorMetadataOffset, RegionHeader.sizeof, AllocatorHeader.shardFreeListHeads]
  omega

theorem ShardInv.framed {t : Nat} {v : ShardView} (inv : ShardInv m (shardStart heapBase n t)
    (shardStart heapBase n t + shardSize heapBase n) t v) (shard : s < 4) (small : t < 4)
    (other : t ≠ s) :
    ShardInv m' (shardStart heapBase n t) (shardStart heapBase n t + shardSize heapBase n) t v := by
  have low := shardStart_ge n s
  have start := shardStart_ge n t
  have apart : shardStart heapBase n t + shardSize heapBase n ≤ shardStart heapBase n s ∨
      shardStart heapBase n s + shardSize heapBase n ≤ shardStart heapBase n t := by
    rcases Nat.lt_or_gt_of_ne other with less | more
    · exact Or.inl (shardStart_mono less)
    · exact Or.inr (shardStart_mono more)
  apply inv.congr
  · intro a left right
    apply frame a (by omega)
    simp only [headCell, allocatorMetadataOffset, RegionHeader.sizeof,
      AllocatorHeader.shardFreeListHeads]
    omega
  · apply load_congr
    intro a left right
    simp only [headCell, allocatorMetadataOffset, RegionHeader.sizeof,
      AllocatorHeader.shardFreeListHeads] at left right
    apply frame a (Or.inl (by omega))
    simp only [headCell, allocatorMetadataOffset, RegionHeader.sizeof,
      AllocatorHeader.shardFreeListHeads]
    omega

end Frame

namespace HeapInv
variable {n s : Nat} {m m' : Mem} {V : HeapView}

theorem base_lt (inv : HeapInv n m V) : heapBase < n := by
  have := inv.room
  omega

/-- A step that rebuilds one shard and touches nothing else. -/
theorem change (inv : HeapInv n m V) (shard : s < 4) {v' : ShardView}
    (rebuilt : ShardInv m' (shardStart heapBase n s)
      (shardStart heapBase n s + shardSize heapBase n) s v') (frame : ShardFrame n s m m') :
    HeapInv n m' (Function.update V s v') := by
  refine ⟨inv.room, inv.header.framed frame, ?_⟩
  intro t small
  by_cases same : t = s
  · subst same
    rw [Function.update_self]
    exact rebuilt
  · rw [Function.update_of_ne same]
    exact (inv.shards t small).framed frame shard small same

theorem live_block (inv : HeapInv n m V) {a : Alloc} (live : V.Live a) :
    ∃ s, s < 4 ∧ ∃ b ∈ (V s).blocks, b.use = .live a ∧ a.InBlock s b.start b.size ∧
      shardStart heapBase n s ≤ b.start ∧
      b.start + b.size ≤ shardStart heapBase n s + shardSize heapBase n := by
  obtain ⟨s, small, b, mem, kind⟩ := live
  have shard := inv.shards s small
  have inside := shard.bounds mem
  exact ⟨s, small, b, mem, kind, (shard.repr b mem).in_block kind, inside.1, inside.2.1⟩

theorem blocks_apart (inv : HeapInv n m V) {s t : Nat} (hs : s < 4) (ht : t < 4) {b c : Block}
    (mb : b ∈ (V s).blocks) (mc : c ∈ (V t).blocks) :
    (s = t ∧ b = c) ∨ b.start + b.size ≤ c.start ∨ c.start + c.size ≤ b.start :=
  tiles_apart_across (fun s => (V s).blocks) shardStart_mono (inv.shards s hs).tiles (inv.shards t ht).tiles mb mc

/-- Live allocations of different blocks do not meet. -/
theorem live_apart (inv : HeapInv n m V) {a c : Alloc} (la : V.Live a) (lc : V.Live c) :
    a = c ∨ a.ptr + a.size ≤ c.ptr ∨ c.ptr + c.size ≤ a.ptr := by
  obtain ⟨s, hs, b, mb, kb, fb, _⟩ := inv.live_block la
  obtain ⟨t, ht, d, md, kd, fd, _⟩ := inv.live_block lc
  have lowB := fb.ptr_ge
  have highB := fb.ptr_le
  have lowD := fd.ptr_ge
  have highD := fd.ptr_le
  rcases inv.blocks_apart hs ht mb md with ⟨_, eq⟩ | left | right
  · subst eq
    rw [kb] at kd
    exact Or.inl (by simpa using kd)
  · omega
  · omega

/-- The payload of a live allocation lies in the heap, above all metadata. -/
theorem live_bounds (inv : HeapInv n m V) {a : Alloc} (live : V.Live a) :
    heapBase + 40 ≤ a.ptr ∧ 0 < a.size ∧ a.ptr + a.size ≤ n := by
  obtain ⟨s, hs, b, mb, kb, fb, low, high⟩ := inv.live_block live
  have lowB := fb.ptr_ge
  have highB := fb.ptr_le
  have positive := fb.positive
  have start := shardStart_ge n s
  have finish := shardStart_end_le (Nat.le_of_lt inv.base_lt) hs
  unfold heapBase at *
  omega

/-- The heap reads its header, its list heads and its blocks only. -/
theorem congr (inv : HeapInv n m V) (head : SameOn m m' 2496 2720) (heap : SameOn m m' 2736 n) :
    HeapInv n m' V := by
  refine ⟨inv.room, inv.header.congr (head.narrow (by omega) (by omega)), ?_⟩
  · intro s shard
    have start := shardStart_ge n s
    have finish := shardStart_end_le (Nat.le_of_lt inv.base_lt) shard
    apply (inv.shards s shard).congr (heap.narrow (by omega) (by omega))
    refine load_congr (head.narrow ?_ ?_)
    all_goals simp only [headCell, allocatorMetadataOffset, RegionHeader.sizeof,
      AllocatorHeader.shardFreeListHeads]
    all_goals omega

/-- Writing inside the payload of a live allocation. -/
theorem write_payload (inv : HeapInv n m V) {a : Alloc} (live : V.Live a)
    (same : SameOff m m' a.ptr (a.ptr + a.size)) : HeapInv n m' V := by
  obtain ⟨s, shard, b, mb, kind, fits, low, high⟩ := inv.live_block live
  have ptrLow := fits.ptr_ge
  have ptrHigh := fits.ptr_le
  have shardInv := inv.shards s shard
  obtain ⟨bs, cs, here⟩ := List.append_of_mem mb
  have wide : SameOff m m' b.start (b.start + b.size) := fun x out => same x (by omega)
  have repr : BlockRepr m' s b := by
    apply (shardInv.repr b mb).congr (same.on (by omega)) (same.on (by omega))
    intro c kindC
    rw [kind] at kindC
    have eq : a = c := by simpa using kindC
    subst eq
    exact same.on (by omega)
  have updated := shardInv.update here rfl rfl Iff.rfl wide (fun free => by simp [kind] at free) repr
  rw [← here] at updated
  have frame : ShardFrame n s m m' := by
    intro x range _
    exact same x (by omega)
  have whole := inv.change shard updated frame
  have view : Function.update V s ⟨(V s).blocks, (V s).free⟩ = V := Function.update_eq_self s V
  rw [view] at whole
  exact whole

end HeapInv

/-- What changes in the set of live allocations when blocks of a shard are replaced. -/
theorem live_replace {V : HeapView} {s : Nat} (shard : s < 4) {bs cs : List Block} {b : Block}
    (here : (V s).blocks = bs ++ b :: cs) (new : List Block) (free : List Nat) (a : Alloc) :
    HeapView.Live (Function.update V s ⟨bs ++ (new ++ cs), free⟩) a ↔
      (∃ c ∈ new, c.use = .live a) ∨
      ∃ t, t < 4 ∧ ∃ c ∈ (V t).blocks, c.use = .live a ∧ (t = s → c ∈ bs ∨ c ∈ cs) := by
  constructor
  · rintro ⟨t, small, c, mem, kind⟩
    by_cases same : t = s
    · subst same
      rw [Function.update_self] at mem
      simp only [List.mem_append] at mem
      rcases mem with left | here' | right
      · exact Or.inr ⟨t, small, c, by simp [here, left], kind, fun _ => Or.inl left⟩
      · exact Or.inl ⟨c, here', kind⟩
      · exact Or.inr ⟨t, small, c, by simp [here, right], kind, fun _ => Or.inr right⟩
    · rw [Function.update_of_ne same] at mem
      exact Or.inr ⟨t, small, c, mem, kind, fun eq => absurd eq same⟩
  · rintro (⟨c, mem, kind⟩ | ⟨t, small, c, mem, kind, place⟩)
    · exact ⟨s, shard, c, by simp [mem], kind⟩
    · by_cases same : t = s
      · subst same
        rcases place rfl with left | right
        · exact ⟨t, small, c, by simp [left], kind⟩
        · exact ⟨t, small, c, by simp [right], kind⟩
      · exact ⟨t, small, c, by rw [Function.update_of_ne same]; exact mem, kind⟩

/-- A free block of shard s of at least r bytes. -/
def HeapView.HasRoom (V : HeapView) (s r : Nat) : Prop :=
  ∃ b ∈ (V s).blocks, b.use = .free ∧ r ≤ b.size

/-- The heap before and after an allocation has been carved out of a free block. -/
structure Taken (n : Nat) (m m' : Mem) (V V' : HeapView) (a : Alloc) : Prop where
  inv : HeapInv n m' V'
  fresh : ¬V.Live a
  live : ∀ c, V'.Live c ↔ V.Live c ∨ c = a
  intact : V.Intact → V'.Intact
  payload : ∀ c, V.Live c → SameOn m m' c.ptr (c.ptr + c.size)
  below : SameOn m m' 0 2688
  room : ∀ t r, t < 4 → 56 ≤ r → V.HasRoom t (r + (a.size + a.align + 69)) → V'.HasRoom t r

/-- The heap before and after a live allocation has been given back. -/
structure Released (n : Nat) (m m' : Mem) (V V' : HeapView) (a : Alloc) : Prop where
  inv : HeapInv n m' V'
  live : ∀ c, V'.Live c ↔ V.Live c ∧ c ≠ a
  intact : V.Intact → V'.Intact
  payload : ∀ c, V.Live c → c ≠ a → SameOn m m' c.ptr (c.ptr + c.size)
  below : SameOn m m' 0 2688
  reusable : ∃ s, s < 4 ∧ ∃ b ∈ (V' s).blocks, b.use = .free ∧ a.InBlock s b.start b.size

/-- A shard whose free block b has been given to a: a rest of 56 bytes or more stays free in its
    place. -/
def takenShard (a : Alloc) (bs cs : List Block) (b : Block) (pre post : List Nat) : ShardView :=
  if required b.start a.size a.align + 56 ≤ b.size then
    ⟨bs ++ ⟨b.start, required b.start a.size a.align, .live a⟩ ::
        ⟨b.start + required b.start a.size a.align, b.size - required b.start a.size a.align, .free⟩ :: cs,
      pre ++ (b.start + required b.start a.size a.align) :: post⟩
  else ⟨bs ++ { b with use := .live a } :: cs, pre ++ post⟩

def releasedShard (bs cs : List Block) (b : Block) (free : List Nat) : ShardView :=
  ⟨bs ++ { b with use := .free } :: cs, b.start :: free⟩

/-- The heap as its users see it change: a free block is given away, whole or in part, or a live
    one becomes free. -/
inductive ViewStep (V : HeapView) : HeapView → Prop where
  | take {s : Nat} {a : Alloc} {bs cs : List Block} {b : Block} {pre post : List Nat} (shard : s < 4)
      (here : (V s).blocks = bs ++ b :: cs) (list : (V s).free = pre ++ b.start :: post) (free : b.use = .free)
      (fits : a.InBlock s b.start b.size) : ViewStep V (Function.update V s (takenShard a bs cs b pre post))
  | release {s : Nat} {a : Alloc} {bs cs : List Block} {b : Block} (shard : s < 4)
      (here : (V s).blocks = bs ++ b :: cs) (live : b.use = .live a) :
      ViewStep V (Function.update V s (releasedShard bs cs b (V s).free))

/-- Every store of a call goes to the block it works on or to one link cell. -/
def Touches (b : Block) (cell : Nat) (ws : List Store) : Prop :=
  ∀ w ∈ ws, (b.start ≤ w.1 ∧ w.1 + w.2.1 ≤ b.start + b.size) ∨ (w.1 = cell ∧ w.2.1 = 8)

section Touches
variable {n s cell : Nat} {m : Mem} {V : HeapView} {b : Block} {ws : List Store}

theorem Touches.outside (touch : Touches b cell ws) {x : Nat}
    (block : x < b.start ∨ b.start + b.size ≤ x) (link : x < cell ∨ cell + 8 ≤ x) :
    applyStores m ws x = m x := by
  apply applyStores_outside
  intro w mem
  rcases touch w mem with inside | ⟨place, width⟩
  · omega
  · omega

/-- The cells a call may touch besides its block: the list head and the links of
   free blocks. -/
def FreeCell (V : HeapView) (s cell : Nat) : Prop :=
  cell = headCell s ∨ ∃ d ∈ (V s).blocks, d.use = .free ∧ cell = d.start + 8

theorem ShardInv.free_cell {lo hi : Nat} (inv : ShardInv m lo hi s (V s)) {pre rest : List Nat}
    (list : (V s).free = pre ++ rest) : FreeCell V s (cellAfter 8 (headCell s) pre) := by
  rcases cellAfter_cases 8 (headCell s) pre with ⟨_, eq⟩ | ⟨x, mem, eq⟩
  · exact Or.inl eq
  · obtain ⟨d, md, start, free⟩ := inv.block_of_free (x := x) (by simp [list, mem])
    exact Or.inr ⟨d, md, free, by rw [eq, start]⟩

theorem Touches.frame (touch : Touches b cell ws) (inv : HeapInv n m V) (shard : s < 4)
    (mem : b ∈ (V s).blocks) (place : FreeCell V s cell) : ShardFrame n s m (applyStores m ws) := by
  intro x range head
  have inside := (inv.shards s shard).bounds mem
  apply touch.outside (by omega)
  rcases place with eq | ⟨d, md, _, eq⟩
  · omega
  · have insideD := (inv.shards s shard).bounds md
    omega

theorem headCell_eq (s : Nat) : headCell s = 2688 + 8 * s := rfl

theorem Touches.below (touch : Touches b cell ws) (inv : HeapInv n m V) (shard : s < 4)
    (mem : b ∈ (V s).blocks) (place : FreeCell V s cell) : SameOn m (applyStores m ws) 0 2688 := by
  intro x _ high
  have start := shardStart_ge n s
  apply touch.frame inv shard mem place x (Or.inl (by omega))
  rw [headCell_eq]
  omega

/-- Every byte of the block of another allocation is left alone. -/
theorem Touches.block (touch : Touches b cell ws) (inv : HeapInv n m V) (shard : s < 4)
    (mem : b ∈ (V s).blocks) (place : FreeCell V s cell) {c : Alloc} {t : Nat} {d : Block} (small : t < 4)
    (md : d ∈ (V t).blocks) (kind : d.use = .live c) (other : b.use ≠ .live c) :
    SameOn m (applyStores m ws) d.start (d.start + d.size) := by
  intro x left right
  have low := ((inv.shards t small).bounds md).1
  have start := shardStart_ge n t
  apply touch.outside
  · rcases inv.blocks_apart shard small mem md with ⟨_, eq⟩ | apart | apart
    · rw [← eq] at kind
      exact absurd kind other
    · omega
    · omega
  · rcases place with eq | ⟨e, me, free, eq⟩
    · rw [eq, headCell_eq]
      omega
    · have room := ((inv.shards s shard).bounds me).2.2
      rcases inv.blocks_apart shard small me md with ⟨_, same⟩ | apart | apart
      · rw [← same, free] at kind
        exact absurd kind (by simp)
      · omega
      · omega

theorem Touches.payload (touch : Touches b cell ws) (inv : HeapInv n m V) (shard : s < 4)
    (mem : b ∈ (V s).blocks) (place : FreeCell V s cell) {c : Alloc} (live : V.Live c)
    (other : b.use ≠ .live c) : SameOn m (applyStores m ws) c.ptr (c.ptr + c.size) := by
  obtain ⟨t, small, d, md, kind, fits, low, _⟩ := inv.live_block live
  have ptrLow := fits.ptr_ge
  have ptrHigh := fits.ptr_le
  exact (touch.block inv shard mem place small md kind other).narrow (by omega) (by omega)

theorem Touches.width (touch : Touches b cell ws) (inv : HeapInv n m V) (shard : s < 4)
    (mem : b ∈ (V s).blocks) (place : FreeCell V s cell) {c : Alloc} (live : V.Live c)
    (other : b.use ≠ .live c) : load (applyStores m ws) c.block 8 = load m c.block 8 := by
  obtain ⟨t, small, d, md, kind, fits, low, _⟩ := inv.live_block live
  have large := (inv.shards t small).large d md
  rw [fits.block]
  exact load_congr ((touch.block inv shard mem place small md kind other).narrow (by omega) (by omega))

theorem releaseStores_touch {lo hi h : Nat} {v : ShardView} (inv : ShardInv m lo hi s v) (mem : b ∈ v.blocks) :
    Touches b (headCell s) (releaseStores b.start h ++ [(headCell s, 8, b.start)]) := by
  intro w listed
  have large := inv.large b mem
  rcases List.mem_append.mp listed with left | right
  · exact Or.inl ((releaseStores_harmless (s := s) h large w left).inside large)
  · rw [List.mem_singleton.mp right]
    exact Or.inr ⟨rfl, rfl⟩

end Touches

/-- The stores of one successful allocation, as its walk chose the block. -/
def takeStores (m : Mem) (s cell x payload size : Nat) : List Store :=
  if size + 56 ≤ load m x 8 then
    restStores (x + size) (load m x 8 - size) (load m (x + 8) 8) s ++ moveLinkStores cell x size ++
      markStores x s payload
  else (cell, 8, load m (x + 8) 8) :: markStores x s payload

theorem burst_take {region : ShmRegion} {m : Mem} {n s x p size link cell : Nat}
    (map : region.Mapped) (total : region.size = n) (at_cell : LinkAt region link cell)
    (low : 40 ≤ p) (high : p ≤ size) (least : size ≤ load m x 8)
    (inside : x + load m x 8 ≤ n) :
    burst m (allocTake region s link x (add64 region.base x) p size) =
      (takeStores m s cell x p size, takenExit region s x p) := by
  unfold takeStores
  split
  · rename_i room
    exact burst_take_split map total at_cell low high room inside
  · exact burst_take_whole map total at_cell low high least (by omega) inside

theorem takeStores_touch {m : Mem} {s cell payload size : Nat} {b : Block}
    (word : load m b.start 8 = b.size) (low : 40 ≤ payload) (high : payload < size)
    (large : 56 ≤ size) (least : size ≤ b.size) :
    Touches b cell (takeStores m s cell b.start payload size) := by
  have marks : ∀ w ∈ markStores b.start s payload,
      b.start ≤ w.1 ∧ w.1 + w.2.1 ≤ b.start + b.size := by
    intro w mem
    exact (markStores_harmless low (Nat.lt_of_lt_of_le high least) w mem).inside (by omega)
  intro w mem
  unfold takeStores at mem
  rw [word] at mem
  split at mem
  · rename_i room
    rcases List.mem_append.mp mem with left | mark
    · rcases List.mem_append.mp left with rest | move
      · have inside := restStores_inside 5 w (by simpa [restStores] using rest)
        exact Or.inl (by omega)
      · simp only [moveLinkStores, List.mem_cons, List.not_mem_nil, or_false] at move
        rcases move with rfl | rfl
        · exact Or.inr ⟨rfl, rfl⟩
        · exact Or.inl ⟨by simp only; omega, by simp only; omega⟩
    · exact Or.inl (marks w mark)
  · rcases List.mem_cons.mp mem with eq | mark
    · rw [eq]
      exact Or.inr ⟨rfl, rfl⟩
    · exact Or.inl (marks w mark)

theorem takeStores_width {s cell x payload width : Nat} (low : 40 ≤ payload) (word : width < 2 ^ 64)
    (apart : cell + 8 ≤ x ∨ x + 8 ≤ cell) (large : 56 ≤ width) :
    load (applyStores m (takeStores m s cell x payload width)) x 8 =
      if width + 56 ≤ load m x 8 then width else load m x 8 := by
  unfold takeStores
  split
  · simp only [restStores, moveLinkStores, markStores, List.cons_append, List.nil_append, applyStores_cons, applyStores_nil]
    simp (disch := omega) only [load_store_apart, load_store_mod]
    omega
  · simp only [markStores, applyStores_cons, applyStores_nil]
    simp (disch := omega) only [load_store_apart]

theorem required_le {start size align : Nat} (least : 16 ≤ align) :
    required start size align ≤ size + align + 69 := by
  have ptr : payloadPtr start align < start + 40 + align := roundUp_lt (by omega)
  have whole := @roundUp_lt size 16 (by omega)
  have total := @roundUp_lt (payloadPtr start align - start + roundUp size 16) 16 (by omega)
  unfold required
  omega

theorem live_replace_unused {V : HeapView} {s : Nat} (shard : s < 4) {bs cs : List Block}
    {b : Block} (here : (V s).blocks = bs ++ b :: cs) (unused : ∀ a, b.use ≠ .live a)
    (new : List Block) (free : List Nat) (a : Alloc) :
    HeapView.Live (Function.update V s ⟨bs ++ (new ++ cs), free⟩) a ↔
      (∃ c ∈ new, c.use = .live a) ∨ V.Live a := by
  rw [live_replace shard here new free]
  constructor
  · rintro (fresh | ⟨t, small, c, mem, kind, _⟩)
    · exact Or.inl fresh
    · exact Or.inr ⟨t, small, c, mem, kind⟩
  · rintro (fresh | ⟨t, small, c, mem, kind⟩)
    · exact Or.inl fresh
    · refine Or.inr ⟨t, small, c, mem, kind, ?_⟩
      intro same
      rw [same, here] at mem
      rcases List.mem_append.mp mem with left | right
      · exact Or.inl left
      · rcases List.mem_cons.mp right with eq | right
        · rw [eq] at kind
          exact absurd kind (unused a)
        · exact Or.inr right

theorem intact_replace {V : HeapView} {s : Nat} {bs cs : List Block} {b : Block}
    (intact : V.Intact) (here : (V s).blocks = bs ++ b :: cs) (new : List Block) (free : List Nat)
    (whole : ∀ c ∈ new, c.use ≠ .leaked) :
    HeapView.Intact (Function.update V s ⟨bs ++ (new ++ cs), free⟩) := by
  intro t small c mem
  by_cases same : t = s
  · subst same
    rw [Function.update_self] at mem
    simp only [List.mem_append] at mem
    rcases mem with left | here' | right
    · exact intact t small c (by simp [here, left])
    · exact whole c here'
    · exact intact t small c (by simp [here, right])
  · rw [Function.update_of_ne same] at mem
    exact intact t small c mem

theorem room_other {V : HeapView} {s t r : Nat} {bs cs : List Block} {b d : Block}
    (here : (V s).blocks = bs ++ b :: cs) (new : List Block) (free : List Nat)
    (mem : d ∈ (V t).blocks) (kind : d.use = .free) (large : r ≤ d.size) (other : t = s → d ≠ b) :
    HeapView.HasRoom (Function.update V s ⟨bs ++ (new ++ cs), free⟩) t r := by
  refine ⟨d, ?_, kind, large⟩
  by_cases same : t = s
  · subst same
    rw [Function.update_self]
    rw [here] at mem
    simp only [List.mem_append, List.mem_cons] at mem ⊢
    rcases mem with left | eq | right
    · exact Or.inl left
    · exact absurd eq (other rfl)
    · exact Or.inr (Or.inr right)
  · rw [Function.update_of_ne same]
    exact mem

namespace HeapInv
variable {n s x : Nat} {m : Mem} {V : HeapView} {pre post : List Nat} {a : Alloc}

/-- The stores of a split rebuild the shard with a live head and a free rest. -/
theorem taken_split (inv : HeapInv n m V) (word : n < 2 ^ 64) (shard : s < 4)
    {bs cs : List Block} {b : Block} (here : (V s).blocks = bs ++ b :: cs)
    (list : (V s).free = pre ++ b.start :: post) (free : b.use = .free)
    (fits : a.InBlock s b.start (required b.start a.size a.align))
    (room : required b.start a.size a.align + 56 ≤ b.size) :
    ShardInv (applyStores m (restStores (b.start + required b.start a.size a.align)
          (b.size - required b.start a.size a.align) (load m (b.start + 8) 8) s ++
        moveLinkStores (cellAfter 8 (headCell s) pre) b.start (required b.start a.size a.align) ++
        markStores b.start s (a.ptr - b.start)))
      (shardStart heapBase n s) (shardStart heapBase n s + shardSize heapBase n) s
      ⟨bs ++ ⟨b.start, required b.start a.size a.align, .live a⟩ ::
          ⟨b.start + required b.start a.size a.align,
            b.size - required b.start a.size a.align, .free⟩ :: cs,
        pre ++ (b.start + required b.start a.size a.align) :: post⟩ := by
  have inside := (inv.shards s shard).bounds (by simp [here] : b ∈ (V s).blocks)
  have finish := shardStart_end_le (Nat.le_of_lt inv.base_lt) shard
  have large := @required_ge b.start _ _ fits.positive fits.least
  have moved := (inv.shards s shard).split_moved list here free large room shard (by omega)
  rw [applyStores_append]
  exact moved.mark_live rfl rfl fits shard (by simp only; omega)

theorem taken_whole (inv : HeapInv n m V) (word : n < 2 ^ 64) (shard : s < 4)
    {bs cs : List Block} {b : Block} (here : (V s).blocks = bs ++ b :: cs)
    (list : (V s).free = pre ++ b.start :: post) (free : b.use = .free)
    (fits : a.InBlock s b.start b.size) :
    ShardInv (applyStores m ((cellAfter 8 (headCell s) pre, 8, load m (b.start + 8) 8) ::
        markStores b.start s (a.ptr - b.start)))
      (shardStart heapBase n s) (shardStart heapBase n s + shardSize heapBase n) s
      ⟨bs ++ { b with use := .live a } :: cs, pre ++ post⟩ := by
  have inside := (inv.shards s shard).bounds (by simp [here] : b ∈ (V s).blocks)
  have finish := shardStart_end_le (Nat.le_of_lt inv.base_lt) shard
  have unlinked := (inv.shards s shard).unlink here list free
  exact unlinked.mark_live rfl rfl fits shard (by simp only; omega)

/-- What fits into a block that holds nothing is not live. -/
theorem not_live_inside (inv : HeapInv n m V) (shard : s < 4) {b : Block} (mb : b ∈ (V s).blocks)
    (unused : ∀ c, b.use ≠ .live c) (fits : a.InBlock s b.start b.size) : ¬V.Live a := by
  intro live
  obtain ⟨t, small, d, md, kind, inD, _⟩ := inv.live_block live
  have lowB := fits.ptr_ge
  have highB := fits.ptr_le
  have lowD := inD.ptr_ge
  have highD := inD.ptr_le
  have positive := fits.positive
  rcases inv.blocks_apart shard small mb md with ⟨_, same⟩ | apart | apart
  · rw [← same] at kind
    exact unused a kind
  · omega
  · omega

theorem taken_step (inv : HeapInv n m V) (word : n < 2 ^ 64) (shard : s < 4)
    (list : (V s).free = pre ++ x :: post) (fits : a.InBlock s x (load m x 8)) :
    ∃ V', ViewStep V V' ∧ Taken n m (applyStores m (takeStores m s (cellAfter 8 (headCell s) pre) x (a.ptr - x)
        (required x a.size a.align))) V V' a ∧
      ShardFrame n s m (applyStores m (takeStores m s (cellAfter 8 (headCell s) pre) x (a.ptr - x)
        (required x a.size a.align))) := by
  have shardInv := inv.shards s shard
  obtain ⟨b, mb, start, free⟩ := shardInv.block_of_free (x := x) (by simp [list])
  obtain ⟨bs, cs, here⟩ := List.append_of_mem mb
  have size := (shardInv.repr b mb).size
  subst start
  rw [size] at fits
  have large : 56 ≤ required b.start a.size a.align := required_ge fits.positive fits.least
  have small : required b.start a.size a.align ≤ a.size + a.align + 69 := required_le fits.least
  have head : a.InBlock s b.start (required b.start a.size a.align) :=
    ⟨fits.owner, fits.block, fits.positive, fits.power, fits.least, fits.place, Nat.le_refl _⟩
  have ptrLow := head.ptr_ge
  have ptrHigh := head.ptr_le
  have positive := fits.positive
  have touch : Touches b (cellAfter 8 (headCell s) pre) (takeStores m s
      (cellAfter 8 (headCell s) pre) b.start (a.ptr - b.start) (required b.start a.size a.align)) :=
    takeStores_touch size (by omega) (by omega) large fits.fits
  have place := shardInv.free_cell list
  have unused : ∀ c, b.use ≠ .live c := by
    intro c
    rw [free]
    simp
  have frame := touch.frame inv shard mb place
  have fresh : ¬V.Live a := inv.not_live_inside shard mb unused fits
  have payload : ∀ c, V.Live c → SameOn m (applyStores m (takeStores m s
      (cellAfter 8 (headCell s) pre) b.start (a.ptr - b.start) (required b.start a.size a.align)))
      c.ptr (c.ptr + c.size) := fun c live => touch.payload inv shard mb place live (unused c)
  have below := touch.below inv shard mb place
  refine ⟨_, .take shard here list free fits, ?_, frame⟩
  unfold takenShard
  unfold takeStores at frame payload below ⊢
  rw [size] at frame payload below ⊢
  by_cases room : required b.start a.size a.align + 56 ≤ b.size
  · rw [if_pos room] at frame payload below ⊢
    rw [if_pos room]
    have rebuilt := inv.taken_split word shard here list free head room
    refine ⟨inv.change shard rebuilt frame, fresh, ?_, ?_, payload, below, ?_⟩
    · intro c
      have live := live_replace_unused shard here unused
        [⟨b.start, required b.start a.size a.align, .live a⟩,
          ⟨b.start + required b.start a.size a.align, b.size - required b.start a.size a.align, .free⟩]
        (pre ++ (b.start + required b.start a.size a.align) :: post) c
      refine live.trans ?_
      simp [or_comm, eq_comm]
    · intro intact
      exact intact_replace intact here [_, _] _ (by simp)
    · intro t r ht least has
      obtain ⟨d, md, kind, wide⟩ := has
      by_cases same : t = s ∧ d = b
      · obtain ⟨rfl, rfl⟩ := same
        refine ⟨⟨d.start + required d.start a.size a.align, d.size - required d.start a.size a.align,
          .free⟩, ?_, rfl, ?_⟩
        · simp
        · simp only
          omega
      · exact room_other here [_, _] _ md kind (by omega) (fun eq other => same ⟨eq, other⟩)
  · rw [if_neg room] at frame payload below ⊢
    rw [if_neg room]
    have rebuilt := inv.taken_whole word shard here list free fits
    refine ⟨inv.change shard rebuilt frame, fresh, ?_, ?_, payload, below, ?_⟩
    · intro c
      have live := live_replace_unused shard here unused [{ b with use := .live a }] (pre ++ post) c
      refine live.trans ?_
      simp [or_comm, eq_comm]
    · intro intact
      exact intact_replace intact here [_] _ (by simp)
    · intro t r ht least has
      obtain ⟨d, md, kind, wide⟩ := has
      refine room_other here [_] _ md kind (by omega) ?_
      intro _ eq
      rw [eq] at wide
      omega

theorem taken (inv : HeapInv n m V) (word : n < 2 ^ 64) (shard : s < 4)
    (list : (V s).free = pre ++ x :: post) (fits : a.InBlock s x (load m x 8)) :
    ∃ V', Taken n m (applyStores m (takeStores m s (cellAfter 8 (headCell s) pre) x (a.ptr - x)
      (required x a.size a.align))) V V' a := by
  obtain ⟨V', _, taken, _⟩ := inv.taken_step word shard list fits
  exact ⟨V', taken⟩

/-- An allocation is live in one block only. -/
theorem live_alone (inv : HeapInv n m V) {t : Nat} (shard : s < 4) (small : t < 4) {b d : Block} (mb : b ∈ (V s).blocks)
    (md : d ∈ (V t).blocks) (kind : b.use = .live a) (kindD : d.use = .live a) : s = t ∧ b = d := by
  have fits := ((inv.shards s shard).repr b mb).in_block kind
  have fitsD := ((inv.shards t small).repr d md).in_block kindD
  have lowB := fits.ptr_ge
  have highB := fits.ptr_le
  have lowD := fitsD.ptr_ge
  have highD := fitsD.ptr_le
  rcases inv.blocks_apart shard small mb md with same | apart | apart
  · exact same
  · omega
  · omega

/-- With its block free, an allocation is no longer live, and every other one still is. -/
theorem live_released (inv : HeapInv n m V) (shard : s < 4) {bs cs : List Block} {b : Block}
    (here : (V s).blocks = bs ++ b :: cs) (kind : b.use = .live a) (free : List Nat) (c : Alloc) :
    HeapView.Live (Function.update V s ⟨bs ++ { b with use := .free } :: cs, free⟩) c ↔ V.Live c ∧ c ≠ a := by
  have mb : b ∈ (V s).blocks := by simp [here]
  have split := List.nodup_append.mp ((inv.shards s shard).distinct here)
  refine (live_replace shard here [{ b with use := .free }] _ c).trans ?_
  constructor
  · rintro (⟨d, md, kindD⟩ | ⟨t, small, d, md, kindD, other⟩)
    · rw [List.mem_singleton.mp md] at kindD
      exact absurd kindD (by simp)
    · refine ⟨⟨t, small, d, md, kindD⟩, ?_⟩
      rintro rfl
      obtain ⟨rfl, rfl⟩ := inv.live_alone shard small mb md kind kindD
      rcases other rfl with left | right
      · exact split.2.2 b left b (by simp) rfl
      · exact (List.nodup_cons.mp split.2.1).1 right
  · rintro ⟨⟨t, small, d, md, kindD⟩, other⟩
    refine Or.inr ⟨t, small, d, md, kindD, ?_⟩
    rintro rfl
    rw [here] at md
    rcases List.mem_append.mp md with left | right
    · exact Or.inl left
    · rcases List.mem_cons.mp right with eq | right
      · rw [eq, kind] at kindD
        exact absurd (Use.live.inj kindD).symm other
      · exact Or.inr right

theorem released_step (inv : HeapInv n m V) (word : n < 2 ^ 64) (shard : s < 4) {b : Block}
    (mb : b ∈ (V s).blocks) (kind : b.use = .live a) :
    ∃ V', ViewStep V V' ∧ Released n m (applyStores m (releaseStores b.start (load m (headCell s) 8) ++
        [(headCell s, 8, b.start)])) V V' a ∧
      ShardFrame n s m (applyStores m (releaseStores b.start (load m (headCell s) 8) ++
        [(headCell s, 8, b.start)])) := by
  have shardInv := inv.shards s shard
  obtain ⟨bs, cs, here⟩ := List.append_of_mem mb
  have inside := shardInv.bounds mb
  have finish := shardStart_end_le (Nat.le_of_lt inv.base_lt) shard
  have fits := (shardInv.repr b mb).in_block kind
  have low := shardInv.low
  have touch := releaseStores_touch (h := load m (headCell s) 8) shardInv mb
  have place : FreeCell V s (headCell s) := Or.inl rfl
  have rebuilt : ShardInv (applyStores m (releaseStores b.start (load m (headCell s) 8) ++
      [(headCell s, 8, b.start)])) (shardStart heapBase n s)
      (shardStart heapBase n s + shardSize heapBase n) s
      ⟨bs ++ { b with use := .free } :: cs, b.start :: (V s).free⟩ := by
    have retired := (shardInv.retire here kind).leaked_stores (b := { b with use := .leaked }) rfl rfl
      shard (releaseStores_harmless (load m (headCell s) 8) inside.2.2)
    have word := load_eight_lt m (headCell s)
    rw [applyStores_append]
    refine retired.push (b := { b with use := .leaked }) rfl rfl ?_ ?_ ?_ (by simp only; omega)
    all_goals simp (disch := omega) only [releaseStores, applyStores_cons, applyStores_nil,
      load_store_apart, load_store_mod]
    all_goals omega
  have frame := touch.frame inv shard mb place
  refine ⟨_, .release shard here kind, ⟨inv.change shard rebuilt frame, ?_, ?_, ?_, touch.below inv shard mb place,
    ?_⟩, frame⟩
  · exact inv.live_released shard here kind _
  · intro intact
    exact intact_replace intact here [_] _ (by simp)
  · intro c live other
    refine touch.payload inv shard mb place live ?_
    intro same
    rw [kind] at same
    exact other (by simpa using same.symm)
  · exact ⟨s, shard, { b with use := .free }, by simp [releasedShard], rfl, fits⟩

theorem released (inv : HeapInv n m V) (word : n < 2 ^ 64) (shard : s < 4) {b : Block}
    (mb : b ∈ (V s).blocks) (kind : b.use = .live a) :
    ∃ V', Released n m (applyStores m (releaseStores b.start (load m (headCell s) 8) ++
      [(headCell s, 8, b.start)])) V V' a := by
  obtain ⟨V', _, released, _⟩ := inv.released_step word shard mb kind
  exact ⟨V', released⟩

end HeapInv

end OffsetStore
