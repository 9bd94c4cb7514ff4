import OffsetStore.Allocator
import OffsetStore.Lib.Tiling
import OffsetStore.Lib.CellChain

/- What the bytes of the heap stand for. A view lists the blocks of each shard in
   address order and the nodes of its free list in link order; the invariant says
   that memory carries the view. A leaked block is allocated by nobody and on no
   free list; only a process that dies inside a call leaves one. -/
namespace OffsetStore
open ByteMemory Program Words Tiling CellChain

/-- A live allocation: its block, the shard of the block, offset of the payload,
   requested size, effective alignment. -/
structure Alloc where
  block : Nat
  shard : Nat
  ptr : Nat
  size : Nat
  align : Nat
  deriving DecidableEq, Repr

inductive Use where
  | free
  | live (a : Alloc)
  | leaked
  deriving DecidableEq, Repr

structure Block where
  start : Nat
  size : Nat
  use : Use
  deriving DecidableEq, Repr

structure ShardView where
  blocks : List Block
  free : List Nat

abbrev HeapView := Nat → ShardView

def heapBase : Nat := 2736
def shardSize (base n : Nat) : Nat := (n - base) / 4
def shardStart (base n s : Nat) : Nat := base + s * shardSize base n
def headCell (s : Nat) : Nat := allocatorMetadataOffset + AllocatorHeader.shardFreeListHeads + 8 * s

/-- Offset of the payload in a block that starts here, and the room it takes. -/
def payloadPtr (start align : Nat) : Nat := roundUp (start + 40) align
def required (start size align : Nat) : Nat :=
  roundUp (payloadPtr start align - start + roundUp size 16) 16

structure Alloc.InBlock (a : Alloc) (s start size : Nat) : Prop where
  owner : a.shard = s
  block : a.block = start
  positive : 0 < a.size
  power : ∃ k, a.align = 2 ^ k
  least : 16 ≤ a.align
  place : a.ptr = payloadPtr start a.align
  fits : required start a.size a.align ≤ size

def UseRepr (m : Mem) (s : Nat) (b : Block) : Prop :=
  match b.use with
  | .free => load m (b.start + 16) 4 = 1 ∧ load m (b.start + 24) 4 = 0
  | .leaked => load m (b.start + 16) 4 = 0 ∨ load m (b.start + 16) 4 = 1
  | .live a => load m (b.start + 16) 4 = 0 ∧ a.InBlock s b.start b.size ∧
      load m (b.start + 24) 4 = (a.ptr - b.start) % 2 ^ 32 ∧ load m (a.ptr - 8) 8 = b.start

structure BlockRepr (m : Mem) (s : Nat) (b : Block) : Prop where
  size : load m b.start 8 = b.size
  shard : load m (b.start + 20) 4 = s
  payloadOffset : load m (b.start + 24) 4 < b.size
  use : UseRepr m s b

structure ShardInv (m : Mem) (lo hi s : Nat) (v : ShardView) : Prop where
  tiles : Tiles Block.start Block.size lo hi v.blocks
  large : ∀ b ∈ v.blocks, 56 ≤ b.size
  repr : ∀ b ∈ v.blocks, BlockRepr m s b
  chain : Chain (fun c => load m c 8) 8 (headCell s) v.free
  nodup : v.free.Nodup
  free_iff : ∀ x, x ∈ v.free ↔ ∃ b ∈ v.blocks, b.start = x ∧ b.use = .free
  low : headCell s + 8 ≤ lo

/-- A valid allocator header of a region of n bytes whose heap starts at base. -/
structure HeaderRepr (n base : Nat) (m : Mem) : Prop where
  magic : load m 2496 8 = allocatorMagic
  version : load m 2504 4 = allocatorVersion
  shards : load m 2508 4 = shardCount
  heapOffset : load m 2512 8 = base
  heapSize : load m 2520 8 = n - base
  inside : base < n

theorem HeaderRepr.congr {n base : Nat} {m m' : Mem} (header : HeaderRepr n base m) (same : SameOn m m' 2496 2528) :
    HeaderRepr n base m' := by
  refine ⟨?_, ?_, ?_, ?_, ?_, header.inside⟩
  · rw [load_congr (same.narrow (by omega) (by omega)), header.magic]
  · rw [load_congr (same.narrow (by omega) (by omega)), header.version]
  · rw [load_congr (same.narrow (by omega) (by omega)), header.shards]
  · rw [load_congr (same.narrow (by omega) (by omega)), header.heapOffset]
  · rw [load_congr (same.narrow (by omega) (by omega)), header.heapSize]

structure HeapInv (n : Nat) (m : Mem) (V : HeapView) : Prop where
  room : heapBase + 224 ≤ n
  header : HeaderRepr n heapBase m
  shards : ∀ s, s < 4 →
    ShardInv m (shardStart heapBase n s) (shardStart heapBase n s + shardSize heapBase n) s (V s)

def HeapView.Live (V : HeapView) (a : Alloc) : Prop :=
  ∃ s, s < 4 ∧ ∃ b ∈ (V s).blocks, b.use = .live a

/-- No block is leaked. -/
def HeapView.Intact (V : HeapView) : Prop :=
  ∀ s, s < 4 → ∀ b ∈ (V s).blocks, b.use ≠ .leaked

theorem shardStart_ge (n s : Nat) : 2736 ≤ shardStart heapBase n s := Nat.le_add_right _ _

theorem shardStart_end_le {base n s : Nat} (inside : base ≤ n) (shard : s < 4) :
    shardStart base n s + shardSize base n ≤ n := by
  have last : s * shardSize base n ≤ 3 * shardSize base n := Nat.mul_le_mul_right _ (by omega)
  unfold shardStart
  unfold shardSize at *
  omega

theorem heap_end_le {n s : Nat} (room : heapBase + 224 ≤ n) (shard : s < 4) :
    shardStart heapBase n s + shardSize heapBase n ≤ n := shardStart_end_le (by omega) shard

theorem shardStart_mono {base n s t : Nat} (less : s < t) :
    shardStart base n s + shardSize base n ≤ shardStart base n t := by
  have next : (s + 1) * shardSize base n ≤ t * shardSize base n := Nat.mul_le_mul_right _ less
  rw [Nat.add_mul, Nat.one_mul] at next
  unfold shardStart
  omega

theorem payloadPtr_ge {start align : Nat} (least : 16 ≤ align) :
    start + 40 ≤ payloadPtr start align := roundUp_le (by omega)

theorem payload_end_le_required (start size align : Nat) :
    payloadPtr start align - start + size ≤ required start size align := by
  have first := @roundUp_le size 16 (by omega)
  have second := @roundUp_le (payloadPtr start align - start + roundUp size 16) 16 (by omega)
  unfold required
  omega

theorem required_ge {start size align : Nat} (positive : 0 < size) (least : 16 ≤ align) :
    56 ≤ required start size align := by
  have ptr : start + 40 ≤ payloadPtr start align := payloadPtr_ge least
  have whole := roundUp_sixteen size
  have total := roundUp_sixteen (payloadPtr start align - start + roundUp size 16)
  unfold required
  omega

namespace Alloc.InBlock
variable {a : Alloc} {s start size : Nat}

theorem ptr_ge (h : a.InBlock s start size) : start + 40 ≤ a.ptr := by
  rw [h.place]
  exact payloadPtr_ge h.least

theorem ptr_le (h : a.InBlock s start size) : a.ptr + a.size ≤ start + size := by
  have inside := payload_end_le_required start a.size a.align
  have fits := h.fits
  have place := h.place
  have low := h.ptr_ge
  omega

end Alloc.InBlock

section BlockFrame
variable {m m' : Mem} {s : Nat} {b : Block}

/-- A block is read through its header, except the link, and through its prefix. -/
theorem BlockRepr.congr (repr : BlockRepr m s b) (size : SameOn m m' b.start (b.start + 8))
    (rest : SameOn m m' (b.start + 16) (b.start + 32))
    (pre : ∀ a, b.use = .live a → SameOn m m' (a.ptr - 8) a.ptr) : BlockRepr m' s b := by
  have flags : load m' (b.start + 16) 4 = load m (b.start + 16) 4 :=
    load_congr (rest.narrow (by omega) (by omega))
  have offset : load m' (b.start + 24) 4 = load m (b.start + 24) 4 :=
    load_congr (rest.narrow (by omega) (by omega))
  refine ⟨?_, ?_, ?_, ?_⟩
  · rw [load_congr size]
    exact repr.size
  · rw [load_congr (rest.narrow (by omega) (by omega))]
    exact repr.shard
  · rw [offset]
    exact repr.payloadOffset
  · have use := repr.use
    unfold UseRepr at use ⊢
    cases kind : b.use with
    | free =>
      rw [kind] at use
      simpa only [flags, offset] using use
    | leaked =>
      rw [kind] at use
      simpa only [flags] using use
    | live a =>
      rw [kind] at use
      have low := use.2.1.ptr_ge
      have same : load m' (a.ptr - 8) 8 = load m (a.ptr - 8) 8 :=
        load_congr ((pre a kind).narrow (by omega) (by omega))
      simpa only [flags, offset, same] using use

theorem BlockRepr.congr_block (repr : BlockRepr m s b) (large : 56 ≤ b.size)
    (same : SameOn m m' b.start (b.start + b.size)) : BlockRepr m' s b := by
  apply repr.congr (same.narrow (by omega) (by omega)) (same.narrow (by omega) (by omega))
  intro a kind
  have use := repr.use
  unfold UseRepr at use
  rw [kind] at use
  have low := use.2.1.ptr_ge
  have high := use.2.1.ptr_le
  exact same.narrow (by omega) (by omega)

theorem BlockRepr.in_block (repr : BlockRepr m s b) {a : Alloc} (kind : b.use = .live a) :
    a.InBlock s b.start b.size := by
  have use := repr.use
  unfold UseRepr at use
  rw [kind] at use
  exact use.2.1

end BlockFrame

namespace ShardInv
variable {m m' : Mem} {lo hi s : Nat} {v : ShardView}

theorem bounds (inv : ShardInv m lo hi s v) {b : Block} (mem : b ∈ v.blocks) :
    lo ≤ b.start ∧ b.start + b.size ≤ hi ∧ 56 ≤ b.size :=
  have inside := tiles_member_bounds inv.tiles mem
  ⟨inside.1, inside.2.1, inv.large b mem⟩

theorem block_of_free (inv : ShardInv m lo hi s v) {x : Nat} (mem : x ∈ v.free) :
    ∃ b ∈ v.blocks, b.start = x ∧ b.use = .free := (inv.free_iff x).mp mem

theorem congr (inv : ShardInv m lo hi s v) (same : SameOn m m' lo hi)
    (head : load m' (headCell s) 8 = load m (headCell s) 8) : ShardInv m' lo hi s v := by
  refine ⟨inv.tiles, inv.large, ?_, ?_, inv.nodup, inv.free_iff, inv.low⟩
  · intro b mem
    have inside := inv.bounds mem
    exact (inv.repr b mem).congr_block inside.2.2 (same.narrow inside.1 inside.2.1)
  · refine chain_move inv.chain head ?_
    intro x mem
    obtain ⟨b, mb, start, _⟩ := inv.block_of_free mem
    have inside := inv.bounds mb
    exact load_congr (same.narrow (by omega) (by omega))

/-- The link cells of the shard: the list head and one word in every block. -/
def IsCell (s : Nat) (v : ShardView) (e : Nat) : Prop :=
  e = headCell s ∨ ∃ b ∈ v.blocks, e = b.start + 8

theorem cells_apart (inv : ShardInv m lo hi s v) {e e' : Nat} (he : IsCell s v e)
    (he' : IsCell s v e') : e = e' ∨ e + 8 ≤ e' ∨ e' + 8 ≤ e := by
  have low := inv.low
  rcases he with eq | ⟨b, mb, eq⟩ <;> rcases he' with eq' | ⟨c, mc, eq'⟩
  · exact Or.inl (eq.trans eq'.symm)
  · have inside := inv.bounds mc
    omega
  · have inside := inv.bounds mb
    omega
  · have insideB := inv.bounds mb
    have insideC := inv.bounds mc
    rcases tiles_apart inv.tiles mb mc with same | left | right
    · exact Or.inl (by rw [eq, eq', same])
    · omega
    · omega

theorem cell_of_free (inv : ShardInv m lo hi s v) {x : Nat} (mem : x ∈ v.free) :
    IsCell s v (x + 8) := by
  obtain ⟨b, mb, start, _⟩ := inv.block_of_free mem
  exact Or.inr ⟨b, mb, by rw [start]⟩

theorem cell_after (inv : ShardInv m lo hi s v) {pre rest : List Nat}
    (list : v.free = pre ++ rest) : IsCell s v (cellAfter 8 (headCell s) pre) := by
  rcases cellAfter_cases 8 (headCell s) pre with ⟨_, eq⟩ | ⟨x, mem, eq⟩
  · exact Or.inl eq
  · rw [eq]
    exact inv.cell_of_free (by simp [list, mem])

theorem cell_read (inv : ShardInv m lo hi s v) {pre rest : List Nat}
    (list : v.free = pre ++ rest) {e : Nat} (mem : e ∈ readCells 8 (headCell s) pre) :
    IsCell s v e := by
  rcases mem_readCells mem with eq | ⟨x, mx, eq⟩
  · exact Or.inl eq
  · rw [eq]
    exact inv.cell_of_free (by simp [list, mx])

/-- Storing a link leaves every block as it is. -/
theorem repr_store_cell (inv : ShardInv m lo hi s v) {e w : Nat} (cell : IsCell s v e) :
    ∀ b ∈ v.blocks, BlockRepr (store m e 8 w) s b := by
  intro b mb
  have inside := inv.bounds mb
  have low := inv.low
  have place : e = b.start + 8 ∨ e + 8 ≤ b.start ∨ b.start + b.size ≤ e := by
    rcases cell with eq | ⟨c, mc, eq⟩
    · omega
    · have insideC := inv.bounds mc
      rcases tiles_apart inv.tiles mb mc with same | left | right
      · exact Or.inl (by rw [eq, same])
      · omega
      · omega
  apply (inv.repr b mb).congr (SameOn.store (by omega)) (SameOn.store (by omega))
  intro a kind
  have low := ((inv.repr b mb).in_block kind).ptr_ge
  have high := ((inv.repr b mb).in_block kind).ptr_le
  exact SameOn.store (by omega)

section Link
variable {pre post : List Nat} {x w : Nat} (inv : ShardInv m lo hi s v)
  (list : v.free = pre ++ x :: post)
include inv list

/-- The cells a storing of the link before x does not touch. -/
theorem link_before {e : Nat} (mem : e ∈ readCells 8 (headCell s) pre) :
    load (store m (cellAfter 8 (headCell s) pre) 8 w) e 8 = load m e 8 := by
  have distinct := inv.nodup
  rw [list] at distinct
  have other : cellAfter 8 (headCell s) pre ∉ readCells 8 (headCell s) pre := by
    apply cellAfter_not_read (List.nodup_append.mp distinct).1
    intro y my eq
    obtain ⟨b, mb, start, _⟩ := inv.block_of_free (x := y) (by simp [list, my])
    have inside := inv.bounds mb
    have low := inv.low
    omega
  rcases inv.cells_apart (inv.cell_after list) (inv.cell_read list mem) with same | apart | apart
  · exact absurd (same ▸ mem) other
  · exact load_store_apart (by omega)
  · exact load_store_apart (by omega)

theorem link_other {y : Nat} (mem : y ∈ x :: post) :
    load (store m (cellAfter 8 (headCell s) pre) 8 w) (y + 8) 8 = load m (y + 8) 8 := by
  have distinct := inv.nodup
  rw [list] at distinct
  have free : y ∈ v.free := by
    rw [list]
    exact List.mem_append.mpr (Or.inr mem)
  rcases inv.cells_apart (inv.cell_after list) (inv.cell_of_free free) with same | apart | apart
  · rcases cellAfter_cases 8 (headCell s) pre with ⟨_, eq⟩ | ⟨z, mz, eq⟩
    · obtain ⟨b, mb, start, _⟩ := inv.block_of_free free
      have inside := inv.bounds mb
      have low := inv.low
      omega
    · have eq : z = y := by omega
      exact absurd rfl ((List.nodup_append.mp distinct).2.2 z mz z (eq ▸ mem))
  · exact load_store_apart (by omega)
  · exact load_store_apart (by omega)

end Link

theorem distinct (inv : ShardInv m lo hi s v) {bs cs : List Block} {b : Block}
    (here : v.blocks = bs ++ b :: cs) : (bs ++ b :: cs).Nodup := here ▸ tiles_nodup inv.tiles

theorem apart_of_ne (inv : ShardInv m lo hi s v) {b c : Block} (mb : b ∈ v.blocks) (mc : c ∈ v.blocks) (other : c ≠ b) :
    c.start + c.size ≤ b.start ∨ b.start + b.size ≤ c.start := (tiles_apart inv.tiles mc mb).resolve_left other

/-- A block of the free list starts where b does, before b or behind it. -/
theorem free_apart (inv : ShardInv m lo hi s v) {b : Block} (mb : b ∈ v.blocks) {x : Nat} (mem : x ∈ v.free) :
    x = b.start ∨ x + 56 ≤ b.start ∨ b.start + b.size ≤ x := by
  obtain ⟨c, mc, startC, _⟩ := inv.block_of_free mem
  have large := inv.large c mc
  by_cases same : c = b
  · exact Or.inl (by rw [← startC, same])
  · have apart := inv.apart_of_ne mb mc same
    omega

/-- The nodes of the free list other than x. -/
theorem free_others (inv : ShardInv m lo hi s v) {pre post : List Nat} {x y : Nat} (list : v.free = pre ++ x :: post) :
    y ∈ pre ++ post ↔ y ∈ v.free ∧ y ≠ x := by
  have nodup := inv.nodup
  rw [list] at nodup ⊢
  have replaced := mem_replace [] (c := y) nodup
  simpa using replaced

section Replace
variable {bs cs : List Block} {b : Block} (inv : ShardInv m lo hi s v) (here : v.blocks = bs ++ b :: cs)
include inv here

/-- A block gives way to others, in the free list too. -/
theorem replace (new : List Block) {free : List Nat} (tiles : Tiles Block.start Block.size lo hi (bs ++ (new ++ cs)))
    (large : ∀ c ∈ new, 56 ≤ c.size) (fresh : ∀ c ∈ new, BlockRepr m' s c)
    (others : ∀ c ∈ v.blocks, c ≠ b → BlockRepr m' s c) (chain : Chain (fun c => load m' c 8) 8 (headCell s) free)
    (nodup : free.Nodup)
    (listed : ∀ x, x ∈ free ↔ (x ∈ v.free ∧ x ≠ b.start) ∨ ∃ c ∈ new, c.start = x ∧ c.use = .free) :
    ShardInv m' lo hi s ⟨bs ++ (new ++ cs), free⟩ := by
  have mb : b ∈ v.blocks := by simp [here]
  have members : ∀ c, c ∈ bs ++ (new ++ cs) ↔ c ∈ new ∨ (c ∈ v.blocks ∧ c ≠ b) := by
    intro c
    rw [here]
    exact mem_replace new (inv.distinct here)
  refine ⟨tiles, fun c mc => ?_, fun c mc => ?_, chain, nodup, fun x => ?_, inv.low⟩
  · rcases (members c).mp mc with mem | ⟨mem, _⟩
    · exact large c mem
    · exact inv.large c mem
  · rcases (members c).mp mc with mem | ⟨mem, other⟩
    · exact fresh c mem
    · exact others c mem other
  · rw [listed x]
    constructor
    · rintro (⟨mem, other⟩ | ⟨c, mc, startC, freeC⟩)
      · obtain ⟨c, mc, startC, freeC⟩ := inv.block_of_free mem
        exact ⟨c, (members c).mpr (Or.inr ⟨mc, fun eq => other (by rw [← startC, eq])⟩), startC, freeC⟩
      · exact ⟨c, (members c).mpr (Or.inl mc), startC, freeC⟩
    · rintro ⟨c, mc, startC, freeC⟩
      rcases (members c).mp mc with mem | ⟨mem, other⟩
      · exact Or.inr ⟨c, mem, startC, freeC⟩
      · exact Or.inl ⟨(inv.free_iff x).mpr ⟨c, mem, startC, freeC⟩,
          fun eq => other (tiles_start_injective inv.tiles mem mb (startC.trans eq))⟩

/-- A change inside one block that keeps its place, its membership in the free list
   and its link. -/
theorem update {b' : Block} (start : b'.start = b.start) (size : b'.size = b.size) (kind : b'.use = .free ↔ b.use = .free)
    (same : SameOff m m' b.start (b.start + b.size))
    (link : b.use = .free → load m' (b.start + 8) 8 = load m (b.start + 8) 8)
    (repr : BlockRepr m' s b') : ShardInv m' lo hi s ⟨bs ++ b' :: cs, v.free⟩ := by
  have mb : b ∈ v.blocks := by simp [here]
  have inside := inv.bounds mb
  have low := inv.low
  have others : ∀ c ∈ v.blocks, c ≠ b → SameOn m m' c.start (c.start + c.size) :=
    fun c mc other => same.on (inv.apart_of_ne mb mc other)
  refine inv.replace here [b'] (tiles_replace (here ▸ inv.tiles) start size) (by simpa [size] using inside.2.2)
    (by simpa using repr) (fun c mc other => (inv.repr c mc).congr_block (inv.large c mc) (others c mc other)) ?_ inv.nodup
    fun x => ?_
  · refine chain_move inv.chain (same.load (Or.inl (by omega))) fun x mem => ?_
    obtain ⟨c, mc, startC, free⟩ := inv.block_of_free mem
    by_cases eq : c = b
    · subst eq
      rw [← startC]
      exact link free
    · have room := inv.large c mc
      exact load_congr ((others c mc eq).narrow (by omega) (by omega))
  · have listed : b.start ∈ v.free ↔ b.use = .free := by
      refine ⟨fun mem => ?_, fun free => (inv.free_iff _).mpr ⟨b, mb, rfl, free⟩⟩
      obtain ⟨c, mc, startC, free⟩ := inv.block_of_free mem
      rwa [tiles_start_injective inv.tiles mc mb startC] at free
    by_cases eq : x = b.start
    · simp [eq, start, kind, listed]
    · simp [eq, start, Ne.symm eq]

/-- Taking a whole block off the free list: its predecessor's link skips it. -/
theorem unlink {pre post : List Nat} (list : v.free = pre ++ b.start :: post) (free : b.use = .free) :
    ShardInv (store m (cellAfter 8 (headCell s) pre) 8 (load m (b.start + 8) 8)) lo hi s
      ⟨bs ++ { b with use := .leaked } :: cs, pre ++ post⟩ := by
  have mb : b ∈ v.blocks := by simp [here]
  have reprs := inv.repr_store_cell (w := load m (b.start + 8) 8) (inv.cell_after list)
  have nodup := inv.nodup
  rw [list] at nodup
  have tiles := inv.tiles
  rw [here] at tiles
  refine inv.replace here [{ b with use := .leaked }] (tiles_replace tiles rfl rfl)
    (by simpa using inv.large b mb) ?_ (fun c mc _ => reprs c mc) ?_
    (nodup.sublist (List.Sublist.append_left (List.sublist_cons_self _ _) _)) fun x => ?_
  · have repr := reprs b mb
    have use := repr.use
    unfold UseRepr at use
    rw [free] at use
    simpa using (⟨repr.size, repr.shard, repr.payloadOffset, Or.inr use.1⟩ : BlockRepr _ s { b with use := .leaked })
  · have chain := inv.chain
    rw [list] at chain
    exact chain_remove chain (fun e mem => inv.link_before list mem) (load_store_eight (load_eight_lt m _))
      fun y my => inv.link_other list (List.mem_cons_of_mem _ my)
  · simpa using inv.free_others list

/-- Splitting a free block whose tail already carries the header of the rest: the
   link moves to the rest, and the head keeps the first bytes. -/
theorem split {pre post : List Nat} {size : Nat} (list : v.free = pre ++ b.start :: post) (free : b.use = .free)
    (first : 56 ≤ size) (rest : size + 56 ≤ b.size) (word : size < 2 ^ 64)
    (header : BlockRepr m s ⟨b.start + size, b.size - size, .free⟩)
    (next : load m (b.start + size + 8) 8 = load m (b.start + 8) 8)
    (small : b.start + size < 2 ^ 64) :
    ShardInv (store (store m (cellAfter 8 (headCell s) pre) 8 (b.start + size)) b.start 8 size)
      lo hi s
      ⟨bs ++ ⟨b.start, size, .leaked⟩ :: ⟨b.start + size, b.size - size, .free⟩ :: cs,
        pre ++ (b.start + size) :: post⟩ := by
  have mb : b ∈ v.blocks := by simp [here]
  have inside := inv.bounds mb
  have low := inv.low
  have nodup := inv.nodup
  rw [list] at nodup
  have parts := List.nodup_append.mp nodup
  have fresh := List.nodup_cons.mp parts.2.1
  have reprs := inv.repr_store_cell (w := b.start + size) (inv.cell_after list)
  have notPre : ∀ y ∈ pre, y ≠ b.start := fun y my => parts.2.2 y my b.start (by simp)
  have notPost : ∀ y ∈ post, y ≠ b.start := fun y my eq => fresh.1 (eq ▸ my)
  have inPre : ∀ y ∈ pre, y ∈ v.free := fun y my => by simp [list, my]
  have inPost : ∀ y ∈ post, y ∈ v.free := fun y my => by simp [list, my]
  -- the link cell lies before this block, after it, or is the head of the list
  have outside : cellAfter 8 (headCell s) pre + 8 ≤ b.start ∨ b.start + b.size ≤ cellAfter 8 (headCell s) pre := by
    rcases cellAfter_cases 8 (headCell s) pre with ⟨_, eq⟩ | ⟨x, mx, eq⟩
    · omega
    · have apart := (inv.free_apart mb (inPre x mx)).resolve_left (notPre x mx)
      omega
  have tiles := inv.tiles
  rw [here] at tiles
  refine inv.replace here [⟨b.start, size, .leaked⟩, ⟨b.start + size, b.size - size, .free⟩]
    (tiles_split tiles rfl rfl (by simp only; omega) (by simp only; omega) (by simp only; omega))
    ?_ ?_ ?_ ?_ ?_ fun x => ?_
  · intro c mc
    rcases List.mem_pair.mp mc with rfl | rfl
    · exact first
    · simp only
      omega
  · intro c mc
    rcases List.mem_pair.mp mc with rfl | rfl
    · have repr := reprs b mb
      have use := repr.use
      unfold UseRepr at use
      rw [free] at use
      refine ⟨load_store_eight word, ?_, ?_, Or.inr ?_⟩
      · rw [load_store_apart (by simp only; omega)]
        exact repr.shard
      · rw [load_store_apart (by simp only; omega), use.2]
        exact (by omega : 0 < size)
      · rw [load_store_apart (by simp only; omega)]
        exact use.1
    · refine header.congr ?_ ?_ fun a kind => by simp at kind
      · exact (SameOn.store (by simp only; omega)).trans (SameOn.store (by simp only; omega))
      · exact (SameOn.store (by simp only; omega)).trans (SameOn.store (by simp only; omega))
  · intro c mc other
    have apart := inv.apart_of_ne mb mc other
    exact (reprs c mc).congr_block (inv.large c mc) (SameOn.store (by omega))
  · have chain := inv.chain
    rw [list] at chain
    refine chain_replace chain ?_ ?_ (by omega) ?_ ?_
    · intro e mem
      have place : e + 8 ≤ b.start ∨ b.start + 8 ≤ e := by
        rcases mem_readCells mem with eq | ⟨y, my, eq⟩
        · omega
        · have apart := (inv.free_apart mb (inPre y my)).resolve_left (notPre y my)
          omega
      rw [load_store_apart place]
      exact inv.link_before list mem
    · rw [load_store_apart (by omega)]
      exact load_store_eight small
    · rw [load_store_apart (by omega), load_store_apart (by omega)]
      exact next
    · intro y my
      have apart := (inv.free_apart mb (inPost y my)).resolve_left (notPost y my)
      rw [load_store_apart (by omega)]
      exact inv.link_other list (List.mem_cons_of_mem _ my)
  · have inner : ∀ y ∈ v.free, y ≠ b.start + size := by
      intro y my
      have apart := inv.free_apart mb my
      omega
    refine List.nodup_append.mpr ⟨parts.1, List.nodup_cons.mpr ⟨fun mem => inner _ (inPost _ mem) rfl, fresh.2⟩, ?_⟩
    intro y my z mz
    rcases List.mem_cons.mp mz with rfl | later
    · exact inner y (inPre y my)
    · exact parts.2.2 y my z (List.mem_cons_of_mem _ later)
  · rw [← inv.free_others list]
    simp only [List.mem_append, List.mem_cons, List.not_mem_nil, or_false]
    constructor
    · rintro (left | rfl | right)
      · exact Or.inl (Or.inl left)
      · exact Or.inr ⟨_, Or.inr rfl, rfl, rfl⟩
      · exact Or.inl (Or.inr right)
    · rintro ((left | right) | ⟨c, rfl | rfl, startC, freeC⟩)
      · exact Or.inl left
      · exact Or.inr (Or.inr right)
      · simp at freeC
      · exact Or.inr (Or.inl startC.symm)

/-- Pushing a released block on the free list. -/
theorem push (leaked : b.use = .leaked) (flags : load m (b.start + 16) 4 = 1) (offset : load m (b.start + 24) 4 = 0)
    (next : load m (b.start + 8) 8 = load m (headCell s) 8) (small : b.start < 2 ^ 64) :
    ShardInv (store m (headCell s) 8 b.start) lo hi s
      ⟨bs ++ { b with use := .free } :: cs, b.start :: v.free⟩ := by
  have mb : b ∈ v.blocks := by simp [here]
  have inside := inv.bounds mb
  have low := inv.low
  have reprs := inv.repr_store_cell (w := b.start) (Or.inl rfl)
  have fresh : b.start ∉ v.free := by
    intro mem
    obtain ⟨c, mc, startC, free⟩ := inv.block_of_free mem
    rw [tiles_start_injective inv.tiles mc mb startC, leaked] at free
    simp at free
  have tiles := inv.tiles
  rw [here] at tiles
  refine inv.replace here [{ b with use := .free }] (tiles_replace tiles rfl rfl)
    (by simpa using inv.large b mb) ?_ (fun c mc _ => reprs c mc) ?_ (List.nodup_cons.mpr ⟨fresh, inv.nodup⟩) fun x => ?_
  · have repr := reprs b mb
    have freed : BlockRepr (store m (headCell s) 8 b.start) s { b with use := .free } := by
      refine ⟨repr.size, repr.shard, repr.payloadOffset, ?_, ?_⟩
      · exact (load_store_apart (by simp only; omega)).trans flags
      · exact (load_store_apart (by simp only; omega)).trans offset
    simpa using freed
  · refine chain_push inv.chain (load_store_eight small) (by omega) ((load_store_apart (by omega)).trans next) ?_
    intro x mem
    obtain ⟨c, mc, startC, _⟩ := inv.block_of_free mem
    have insideC := inv.bounds mc
    exact load_store_apart (by omega)
  · rw [List.mem_cons]
    constructor
    · rintro (rfl | mem)
      · exact Or.inr ⟨_, List.mem_singleton.mpr rfl, rfl, rfl⟩
      · exact Or.inl ⟨mem, fun eq => fresh (eq ▸ mem)⟩
    · rintro (⟨mem, _⟩ | ⟨c, mc, startC, _⟩)
      · exact Or.inr mem
      · rw [List.mem_singleton.mp mc] at startC
        exact Or.inl startC.symm

end Replace

end ShardInv

end OffsetStore
