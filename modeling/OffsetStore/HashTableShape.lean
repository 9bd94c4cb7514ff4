import OffsetStore.Objects
import OffsetStore.HashTable
import OffsetStore.Lib.CellChain

/- The hash table in the memory that it owns. Its items form one list, the newest first;
   the chain of a bucket runs through the items of that bucket in this order. An item
   owns three allocations: the entry, the key string and the value buffer. -/
namespace OffsetStore
open ByteMemory Program Prog Words Pool CellChain

structure TableParams where
  numBuckets : Nat
  keySize : Nat
  valSize : Nat
  deriving DecidableEq, Repr

structure Item where
  bucket : Nat
  stored : List UInt8
  value : List UInt8
  node : Alloc
  key : Alloc
  val : Alloc

def Item.allocs (it : Item) : List Alloc := [it.node, it.key, it.val]

def tableAllocs (hdr array : Alloc) (items : List Item) : List Alloc := hdr :: array :: items.flatMap Item.allocs

def tableFoot (hdr array : Alloc) (items : List Item) : Set Alloc := {a | a ∈ tableAllocs hdr array items}

/-- The entries of the chain of bucket i. -/
def chainItems (items : List Item) (i : Nat) : List Item := items.filter fun it => it.bucket = i

def chainPtrs (items : List Item) (i : Nat) : List Nat := (chainItems items i).map fun it => it.node.ptr

/-- The allocations of an item hold its entry, key and value; where its chain goes on is
    said elsewhere. -/
structure ItemStands (v : Nat) (it : Item) (μ : Mem) : Prop where
  nodeSize : it.node.size = 24
  keySize : it.key.size = 5 + it.stored.length
  valSize : it.val.size = v
  plain : ∀ a ∈ it.allocs, a.align = 16
  keyOffset : load μ it.node.ptr 8 = it.key.ptr
  valueOffset : load μ (it.node.ptr + 8) 8 = it.val.ptr
  length : load μ it.key.ptr 4 = it.stored.length % 2 ^ 32
  chars : loadBytes μ (it.key.ptr + 4) it.stored.length = it.stored
  value : loadBytes μ it.val.ptr v = it.value

structure TableStands (p : TableParams) (hdr array : Alloc) (items : List Item) (μ : Mem) : Prop where
  size : hdr.size = 88 ∧ hdr.align = 16
  positive : 0 < p.numBuckets ∧ 0 < p.keySize ∧ 0 < p.valSize
  numBuckets : load μ hdr.ptr 8 = p.numBuckets
  keySize : load μ (hdr.ptr + 8) 8 = p.keySize
  valSize : load μ (hdr.ptr + 16) 8 = p.valSize
  buckets : load μ (hdr.ptr + 24) 8 = array.ptr
  arraySize : array.size = p.numBuckets * 8 ∧ array.align = 16
  distinct : (tableAllocs hdr array items).Nodup
  inside : ∀ it ∈ items, it.bucket < p.numBuckets
  each : ∀ it ∈ items, ItemStands p.valSize it μ
  chains : ∀ i < p.numBuckets, Chain (fun c => load μ c 8) 16 (array.ptr + 8 * i) (chainPtrs items i)

/-- A cell of the table: where a chain begins or goes on. -/
def IsCell (p : TableParams) (array : Alloc) (items : List Item) (c : Nat) : Prop :=
  (∃ i < p.numBuckets, c = array.ptr + 8 * i) ∨ ∃ it ∈ items, c = it.node.ptr + 16

section Chains
variable {items pre post : List Item} {it x : Item} {i : Nat}

theorem chainItems_cons : chainItems (it :: items) i =
    if it.bucket = i then it :: chainItems items i else chainItems items i := by
  unfold chainItems
  by_cases here : it.bucket = i
  · rw [if_pos here, List.filter_cons_of_pos (by simpa using here)]
  · rw [if_neg here, List.filter_cons_of_neg (by simpa using here)]

theorem chainItems_append : chainItems (pre ++ post) i = chainItems pre i ++ chainItems post i :=
  List.filter_append pre post

theorem mem_chainItems : x ∈ chainItems items i ↔ x ∈ items ∧ x.bucket = i := by
  simp [chainItems]

theorem chainPtrs_cons : chainPtrs (it :: items) i =
    if it.bucket = i then it.node.ptr :: chainPtrs items i else chainPtrs items i := by
  unfold chainPtrs
  rw [chainItems_cons]
  split
  · rfl
  · rfl

theorem chainPtrs_append : chainPtrs (pre ++ post) i = chainPtrs pre i ++ chainPtrs post i := by
  unfold chainPtrs
  rw [chainItems_append, List.map_append]

theorem mem_chainPtrs {c : Nat} (mem : c ∈ chainPtrs items i) : ∃ x ∈ items, x.bucket = i ∧ c = x.node.ptr := by
  obtain ⟨x, mx, rfl⟩ := List.mem_map.mp mem
  obtain ⟨here, bucket⟩ := mem_chainItems.mp mx
  exact ⟨x, here, bucket, rfl⟩

end Chains

section Foot
variable {hdr array : Alloc} {items pre post : List Item} {it x y : Item} {a b : Alloc}

theorem tableFoot_header : hdr ∈ tableFoot hdr array items := List.mem_cons_self

theorem tableFoot_array : array ∈ tableFoot hdr array items := List.mem_cons_of_mem _ List.mem_cons_self

theorem tableFoot_item (mem : it ∈ items) (part : a ∈ it.allocs) : a ∈ tableFoot hdr array items :=
  List.mem_cons_of_mem _ (List.mem_cons_of_mem _ (List.mem_flatMap.mpr ⟨it, mem, part⟩))

theorem node_mem : it.node ∈ it.allocs := by simp [Item.allocs]
theorem key_mem : it.key ∈ it.allocs := by simp [Item.allocs]
theorem val_mem : it.val ∈ it.allocs := by simp [Item.allocs]

theorem allocs_middle : (tableAllocs hdr array (pre ++ it :: post)).Perm (it.allocs ++ tableAllocs hdr array (pre ++ post)) := by
  unfold tableAllocs
  rw [List.flatMap_append, List.flatMap_cons, List.flatMap_append]
  have move : (pre.flatMap Item.allocs ++ (it.allocs ++ post.flatMap Item.allocs)).Perm
      (it.allocs ++ (pre.flatMap Item.allocs ++ post.flatMap Item.allocs)) := by
    rw [← List.append_assoc, ← List.append_assoc]
    exact List.perm_append_comm.append_right _
  refine ((move.cons array).cons hdr).trans ?_
  have turn : ([hdr, array] ++ it.allocs).Perm (it.allocs ++ [hdr, array]) := List.perm_append_comm
  simpa using turn.append_right (pre.flatMap Item.allocs ++ post.flatMap Item.allocs)

theorem foot_middle : tableFoot hdr array (pre ++ it :: post) =
    {a | a ∈ it.allocs} ∪ tableFoot hdr array (pre ++ post) := by
  ext a
  exact allocs_middle.mem_iff.trans List.mem_append

/-- An item has no allocation in common with the rest of the table. -/
theorem rest_apart (distinct : (tableAllocs hdr array (pre ++ it :: post)).Nodup) (part : a ∈ it.allocs) :
    a ∉ tableFoot hdr array (pre ++ post) := by
  have whole := allocs_middle.nodup_iff.mp distinct
  intro mem
  exact (List.nodup_append'.mp whole).2.2 part mem

theorem mem_middle : x ∈ pre ++ it :: post ↔ x = it ∨ x ∈ pre ++ post := by
  simp only [List.mem_append, List.mem_cons]
  tauto

theorem header_ne_array (distinct : (tableAllocs hdr array items).Nodup) : hdr ≠ array := by
  have fresh := (List.nodup_cons.mp distinct).1
  rintro rfl
  exact fresh List.mem_cons_self

theorem header_ne_part (distinct : (tableAllocs hdr array items).Nodup) (mem : it ∈ items) (part : a ∈ it.allocs) :
    hdr ≠ a := by
  have fresh := (List.nodup_cons.mp distinct).1
  rintro rfl
  exact fresh (List.mem_cons_of_mem _ (List.mem_flatMap.mpr ⟨it, mem, part⟩))

theorem array_ne_part (distinct : (tableAllocs hdr array items).Nodup) (mem : it ∈ items) (part : a ∈ it.allocs) :
    array ≠ a := by
  have fresh := (List.nodup_cons.mp (List.nodup_cons.mp distinct).2).1
  rintro rfl
  exact fresh (List.mem_flatMap.mpr ⟨it, mem, part⟩)

theorem parts_distinct (distinct : (tableAllocs hdr array items).Nodup) (mem : it ∈ items) :
    it.node ≠ it.key ∧ it.node ≠ it.val ∧ it.key ≠ it.val := by
  have all := (List.nodup_cons.mp (List.nodup_cons.mp distinct).2).2
  have own := (List.nodup_flatMap.mp all).1 it mem
  simp only [Item.allocs, List.nodup_cons, List.mem_cons, List.not_mem_nil, or_false, not_or] at own
  exact ⟨own.1.1, own.1.2, own.2.1⟩

/-- Two items are one, or have no allocation in common. -/
theorem items_distinct (distinct : (tableAllocs hdr array items).Nodup) (mx : x ∈ items) (my : y ∈ items)
    (px : a ∈ x.allocs) (py : b ∈ y.allocs) : x = y ∨ a ≠ b := by
  have all := (List.nodup_cons.mp (List.nodup_cons.mp distinct).2).2
  have pairs := (List.nodup_flatMap.mp all).2
  by_cases same : x = y
  · exact Or.inl same
  · right
    rintro rfl
    have symmetric : Std.Symm (Function.onFun List.Disjoint Item.allocs) := ⟨fun _ _ d => d.symm⟩
    have away : List.Disjoint x.allocs y.allocs := pairs.forall mx my same
    exact away px py

end Foot

/-- The allocations of a table have their sizes and lie apart. -/
structure TableLayout (p : TableParams) (hdr array : Alloc) (items : List Item) : Prop where
  headerSize : hdr.size = 88
  arraySize : array.size = p.numBuckets * 8
  nodes : ∀ x ∈ items, x.node.size = 24
  distinct : (tableAllocs hdr array items).Nodup
  apart : ∀ a ∈ tableFoot hdr array items, ∀ b ∈ tableFoot hdr array items, a ≠ b →
    a.ptr + a.size ≤ b.ptr ∨ b.ptr + b.size ≤ a.ptr

section Layout
variable {p : TableParams} {hdr array : Alloc} {items : List Item} {it x : Item} {a : Alloc} {μ μ' : Mem} {c d v w : Nat}

theorem ItemStands.congr (stands : ItemStands v it μ) (node : SameOn μ μ' it.node.ptr (it.node.ptr + 16))
    (key : SameOn μ μ' it.key.ptr (it.key.ptr + it.key.size)) (val : SameOn μ μ' it.val.ptr (it.val.ptr + it.val.size)) :
    ItemStands v it μ' := by
  have keySize := stands.keySize
  have valSize := stands.valSize
  refine ⟨stands.nodeSize, keySize, valSize, stands.plain, ?_, ?_, ?_, ?_, ?_⟩
  · rw [load_congr (node.narrow (by omega) (by omega)), stands.keyOffset]
  · rw [load_congr (node.narrow (by omega) (by omega)), stands.valueOffset]
  · rw [load_congr (key.narrow (by omega) (by omega)), stands.length]
  · rw [loadBytes_congr (key.narrow (by omega) (by omega)), stands.chars]
  · rw [loadBytes_congr (val.narrow (by omega) (by omega)), stands.value]

namespace TableLayout

/-- A cell is the last word of an entry, or outside the allocations of the items. -/
theorem cell_part (layout : TableLayout p hdr array items) (cell : IsCell p array items c) (mem : x ∈ items)
    (part : a ∈ x.allocs) : (a = x.node ∧ c = x.node.ptr + 16) ∨ c + 8 ≤ a.ptr ∨ a.ptr + a.size ≤ c := by
  have inFoot : a ∈ tableFoot hdr array items := tableFoot_item mem part
  rcases cell with ⟨i, inside, rfl⟩ | ⟨y, my, rfl⟩
  · have apart := layout.apart array tableFoot_array a inFoot (array_ne_part layout.distinct mem part)
    have size := layout.arraySize
    omega
  · have size := layout.nodes y my
    rcases items_distinct layout.distinct my mem node_mem part with rfl | other
    · by_cases self : y.node = a
      · exact Or.inl ⟨self.symm, rfl⟩
      · have apart := layout.apart y.node (tableFoot_item my node_mem) a inFoot self
        omega
    · have apart := layout.apart y.node (tableFoot_item my node_mem) a inFoot other
      omega

theorem cell_header (layout : TableLayout p hdr array items) (cell : IsCell p array items c) :
    c + 8 ≤ hdr.ptr ∨ hdr.ptr + 88 ≤ c := by
  have size := layout.headerSize
  rcases cell with ⟨i, inside, rfl⟩ | ⟨y, my, rfl⟩
  · have apart := layout.apart hdr tableFoot_header array tableFoot_array (header_ne_array layout.distinct)
    have width := layout.arraySize
    omega
  · have apart := layout.apart hdr tableFoot_header y.node (tableFoot_item my node_mem)
      (header_ne_part layout.distinct my node_mem)
    have width := layout.nodes y my
    omega

theorem cells_apart (layout : TableLayout p hdr array items) (hc : IsCell p array items c)
    (hd : IsCell p array items d) : c = d ∨ c + 8 ≤ d ∨ d + 8 ≤ c := by
  rcases hc with ⟨i, inside, rfl⟩ | ⟨x, mx, rfl⟩
  · rcases hd with ⟨j, inside', rfl⟩ | ⟨y, my, rfl⟩
    · omega
    · have apart := layout.cell_part (Or.inl ⟨i, inside, rfl⟩) my node_mem
      have size := layout.nodes y my
      omega
  · have apart := layout.cell_part hd mx node_mem
    have size := layout.nodes x mx
    omega

theorem keep_item (layout : TableLayout p hdr array items) (cell : IsCell p array items c) (mem : x ∈ items)
    (stands : ItemStands v x μ) : ItemStands v x (store μ c 8 w) := by
  obtain ⟨_, _, _⟩ := parts_distinct layout.distinct mem
  have node := layout.cell_part cell mem node_mem
  have key := layout.cell_part cell mem key_mem
  have val := layout.cell_part cell mem val_mem
  have size := stands.nodeSize
  refine stands.congr (SameOn.store ?_) (SameOn.store ?_) (SameOn.store ?_)
  · omega
  · rcases key with ⟨same, _⟩ | apart
    · exact absurd same.symm (by assumption)
    · omega
  · rcases val with ⟨same, _⟩ | apart
    · exact absurd same.symm (by assumption)
    · omega

theorem next_ne_bucket (layout : TableLayout p hdr array items) {i : Nat} (inside : i < p.numBuckets) (mem : x ∈ items) :
    x.node.ptr + 16 ≠ array.ptr + 8 * i := by
  have apart := layout.apart array tableFoot_array x.node (tableFoot_item mem node_mem)
    (array_ne_part layout.distinct mem node_mem)
  have size := layout.nodes x mem
  have width := layout.arraySize
  omega

theorem ptr_injective (layout : TableLayout p hdr array items) {y : Item} (mx : x ∈ items) (my : y ∈ items)
    (same : x.node.ptr = y.node.ptr) : x = y := by
  rcases items_distinct layout.distinct mx my node_mem node_mem with eq | other
  · exact eq
  · have apart := layout.apart _ (tableFoot_item mx node_mem) _ (tableFoot_item my node_mem) other
    have sizeX := layout.nodes x mx
    have sizeY := layout.nodes y my
    omega

theorem load_cell (layout : TableLayout p hdr array items) (hc : IsCell p array items c)
    (hd : IsCell p array items d) (other : d ≠ c) : load (store μ c 8 w) d 8 = load μ d 8 := by
  have apart := layout.cells_apart hc hd
  exact load_store_apart (by omega)

end TableLayout

theorem TableLayout.ptrs_nodup (layout : TableLayout p hdr array items) : (items.map fun x => x.node.ptr).Nodup := by
  have all := (List.nodup_cons.mp (List.nodup_cons.mp layout.distinct).2).2
  have distinct : items.Nodup := by
    refine (List.nodup_flatMap.mp all).2.imp ?_
    rintro x _ away rfl
    exact away node_mem node_mem
  exact List.Nodup.map_on (fun x mx y my same => layout.ptr_injective mx my same) distinct

theorem TableLayout.chain_nodup (layout : TableLayout p hdr array items) (i : Nat) : (chainPtrs items i).Nodup :=
  layout.ptrs_nodup.sublist (List.Sublist.map _ List.filter_sublist)

theorem chain_cells {i : Nat} (inside : i < p.numBuckets) : IsCell p array items (array.ptr + 8 * i) :=
  Or.inl ⟨i, inside, rfl⟩

end Layout

/-- The item with another value buffer. -/
def Item.revalued (it : Item) (a : Alloc) (bytes : List UInt8) : Item := { it with val := a, value := bytes }

section Fresh
variable {hdr array : Alloc} {items pre post : List Item} {it : Item} {a : Alloc} {bytes : List UInt8}

theorem foot_cons : tableFoot hdr array (it :: items) = {a | a ∈ it.allocs} ∪ tableFoot hdr array items :=
  @foot_middle hdr array [] items it

theorem distinct_cons (distinct : (tableAllocs hdr array items).Nodup) (own : it.allocs.Nodup)
    (fresh : ∀ a ∈ it.allocs, a ∉ tableFoot hdr array items) : (tableAllocs hdr array (it :: items)).Nodup :=
  (@allocs_middle hdr array [] items it).nodup_iff.mpr (List.nodup_append'.mpr ⟨own, distinct, fun a part => fresh a part⟩)

theorem distinct_rest (distinct : (tableAllocs hdr array (pre ++ it :: post)).Nodup) :
    (tableAllocs hdr array (pre ++ post)).Nodup :=
  (List.nodup_append'.mp (allocs_middle.nodup_iff.mp distinct)).2.1

theorem rest_subset (distinct : (tableAllocs hdr array (pre ++ it :: post)).Nodup) (part : a ∈ it.allocs) :
    tableFoot hdr array (pre ++ post) ⊆ tableFoot hdr array (pre ++ it :: post) \ {a} := by
  intro b mb
  refine ⟨foot_middle ▸ Or.inr mb, ?_⟩
  rintro rfl
  exact rest_apart distinct part mb

theorem foot_revalued (distinct : (tableAllocs hdr array (pre ++ it :: post)).Nodup) :
    tableFoot hdr array (pre ++ it.revalued a bytes :: post) = insert a (tableFoot hdr array (pre ++ it :: post) \ {it.val}) := by
  obtain ⟨_, nodeVal, keyVal⟩ := parts_distinct distinct (show it ∈ pre ++ it :: post by simp)
  have rest : it.val ∉ tableFoot hdr array (pre ++ post) := rest_apart distinct val_mem
  ext b
  rw [foot_middle, foot_middle]
  simp only [Item.allocs, Item.revalued, Set.mem_union, Set.mem_insert_iff, Set.mem_sdiff, Set.mem_singleton_iff,
    Set.mem_ofPred_eq, List.mem_cons, List.not_mem_nil, or_false]
  constructor
  · rintro ((rfl | rfl | rfl) | mem)
    · exact Or.inr ⟨Or.inl (Or.inl rfl), nodeVal⟩
    · exact Or.inr ⟨Or.inl (Or.inr (Or.inl rfl)), keyVal⟩
    · exact Or.inl rfl
    · exact Or.inr ⟨Or.inr mem, fun eq => rest (eq ▸ mem)⟩
  · rintro (rfl | ⟨(rfl | rfl | rfl) | mem, other⟩)
    · exact Or.inl (Or.inr (Or.inr rfl))
    · exact Or.inl (Or.inl rfl)
    · exact Or.inl (Or.inr (Or.inl rfl))
    · exact absurd rfl other
    · exact Or.inr mem

theorem distinct_revalued (distinct : (tableAllocs hdr array (pre ++ it :: post)).Nodup)
    (fresh : a ∉ tableFoot hdr array (pre ++ it :: post) \ {it.val}) :
    (tableAllocs hdr array (pre ++ it.revalued a bytes :: post)).Nodup := by
  have here : it ∈ pre ++ it :: post := by simp
  obtain ⟨nodeKey, nodeVal, keyVal⟩ := parts_distinct distinct here
  have notNode : it.node ≠ a := by
    rintro rfl
    exact fresh ⟨tableFoot_item here node_mem, nodeVal⟩
  have notKey : it.key ≠ a := by
    rintro rfl
    exact fresh ⟨tableFoot_item here key_mem, keyVal⟩
  refine allocs_middle.nodup_iff.mpr (List.nodup_append'.mpr ⟨?_, distinct_rest distinct, ?_⟩)
  · simp [Item.allocs, Item.revalued, nodeKey, notNode, notKey]
  · intro b part mem
    simp only [Item.allocs, Item.revalued, List.mem_cons, List.not_mem_nil, or_false] at part
    rcases part with rfl | rfl | rfl
    · exact rest_apart distinct node_mem mem
    · exact rest_apart distinct key_mem mem
    · exact fresh (rest_subset distinct val_mem mem)

end Fresh

section Changes
variable {p : TableParams} {hdr array : Alloc} {items pre post : List Item} {it x : Item} {a : Alloc} {μ μ' : Mem}
  {n : Nat} {L : Set Alloc}

theorem TableStands.layout (stands : TableStands p hdr array items μ) (foot : Footprint n L)
    (whole : tableFoot hdr array items ⊆ L) : TableLayout p hdr array items :=
  ⟨stands.size.1, stands.arraySize.1, fun x mx => (stands.each x mx).nodeSize, stands.distinct,
    fun _ ma _ mb => foot.disjoint (whole ma) (whole mb)⟩

theorem TableStands.congr (stands : TableStands p hdr array items μ)
    (same : ∀ a ∈ tableFoot hdr array items, SameOn μ μ' a.ptr (a.ptr + a.size)) : TableStands p hdr array items μ' := by
  have header := same hdr tableFoot_header
  have cells := same array tableFoot_array
  have size := stands.size.1
  have width := stands.arraySize.1
  refine ⟨stands.size, stands.positive, ?_, ?_, ?_, ?_, stands.arraySize, stands.distinct, stands.inside, ?_, ?_⟩
  · rw [load_congr (header.narrow (by omega) (by omega)), stands.numBuckets]
  · rw [load_congr (header.narrow (by omega) (by omega)), stands.keySize]
  · rw [load_congr (header.narrow (by omega) (by omega)), stands.valSize]
  · rw [load_congr (header.narrow (by omega) (by omega)), stands.buckets]
  · intro x mx
    have nodeSize := (stands.each x mx).nodeSize
    exact (stands.each x mx).congr ((same x.node (tableFoot_item mx node_mem)).narrow (by omega) (by omega))
      (same x.key (tableFoot_item mx key_mem)) (same x.val (tableFoot_item mx val_mem))
  · intro i inside
    refine chain_congr (stands.chains i inside) (load_congr (cells.narrow (by omega) (by omega))) ?_
    intro c mem
    obtain ⟨x, mx, _, rfl⟩ := mem_chainPtrs mem
    have nodeSize := (stands.each x mx).nodeSize
    exact load_congr ((same x.node (tableFoot_item mx node_mem)).narrow (by omega) (by omega))

/-- The three allocations of a new item, in the order in which they are made. -/
theorem foot_insert : tableFoot hdr array (it :: items) =
    insert it.node (insert it.val (insert it.key (tableFoot hdr array items))) := by
  rw [foot_cons]
  ext b
  simp only [Item.allocs, Set.mem_union, Set.mem_insert_iff, Set.mem_ofPred_eq, List.mem_cons, List.not_mem_nil, or_false]
  constructor
  · rintro ((rfl | rfl | rfl) | mem)
    · exact Or.inl rfl
    · exact Or.inr (Or.inr (Or.inl rfl))
    · exact Or.inr (Or.inl rfl)
    · exact Or.inr (Or.inr (Or.inr mem))
  · rintro (rfl | rfl | rfl | mem)
    · exact Or.inl (Or.inl rfl)
    · exact Or.inl (Or.inr (Or.inr rfl))
    · exact Or.inl (Or.inr (Or.inl rfl))
    · exact Or.inr mem

theorem TableStands.layout_cons {n : Nat} (stands : TableStands p hdr array items μ)
    (foot : Footprint n (tableFoot hdr array (it :: items))) (size : it.node.size = 24)
    (node : it.node ∉ insert it.val (insert it.key (tableFoot hdr array items)))
    (val : it.val ∉ insert it.key (tableFoot hdr array items)) (key : it.key ∉ tableFoot hdr array items) :
    TableLayout p hdr array (it :: items) := by
  simp only [Set.mem_insert_iff, not_or] at node val
  refine ⟨stands.size.1, stands.arraySize.1, ?_, distinct_cons stands.distinct ?_ ?_,
    fun b mb c mc => foot.disjoint mb mc⟩
  · intro x mx
    rcases List.mem_cons.mp mx with rfl | old
    · exact size
    · exact (stands.each x old).nodeSize
  · simp [Item.allocs, node, Ne.symm val.1]
  · intro b part
    simp only [Item.allocs, List.mem_cons, List.not_mem_nil, or_false] at part
    rcases part with rfl | rfl | rfl
    · exact node.2.2
    · exact key
    · exact val.2

/-- A new entry in front of its chain. -/
theorem TableStands.inserted (stands : TableStands p hdr array items μ) (layout : TableLayout p hdr array (it :: items))
    (new : ItemStands p.valSize it μ) (bucket : it.bucket < p.numBuckets) (positive : 0 < it.node.ptr)
    (small : it.node.ptr < 2 ^ 64) (next : load μ (it.node.ptr + 16) 8 = load μ (array.ptr + 8 * it.bucket) 8) :
    TableStands p hdr array (it :: items) (store μ (array.ptr + 8 * it.bucket) 8 it.node.ptr) := by
  have cell : IsCell p array (it :: items) (array.ptr + 8 * it.bucket) := chain_cells bucket
  have away := layout.cell_header cell
  refine ⟨stands.size, stands.positive, ?_, ?_, ?_, ?_, stands.arraySize, layout.distinct, ?_, ?_, ?_⟩
  · rw [load_store_apart (by omega), stands.numBuckets]
  · rw [load_store_apart (by omega), stands.keySize]
  · rw [load_store_apart (by omega), stands.valSize]
  · rw [load_store_apart (by omega), stands.buckets]
  · intro x mx
    rcases List.mem_cons.mp mx with rfl | old
    · exact bucket
    · exact stands.inside x old
  · intro x mx
    refine layout.keep_item cell mx ?_
    rcases List.mem_cons.mp mx with rfl | old
    · exact new
    · exact stands.each x old
  · intro i inside
    have others : ∀ c ∈ chainPtrs items i, load (store μ (array.ptr + 8 * it.bucket) 8 it.node.ptr) (c + 16) 8 =
        load μ (c + 16) 8 := by
      intro c mem
      obtain ⟨x, mx, _, rfl⟩ := mem_chainPtrs mem
      have mx' := List.mem_cons_of_mem it mx
      exact layout.load_cell cell (Or.inr ⟨x, mx', rfl⟩) (layout.next_ne_bucket bucket mx')
    rw [chainPtrs_cons]
    by_cases here : it.bucket = i
    · rw [if_pos here, ← here]
      rw [← here] at others
      refine chain_push (stands.chains it.bucket bucket) (load_store_eight small) (by omega) ?_ others
      have mem : it ∈ it :: items := List.mem_cons_self
      exact (layout.load_cell cell (Or.inr ⟨it, mem, rfl⟩) (layout.next_ne_bucket bucket mem)).trans next
    · rw [if_neg here]
      exact chain_congr (stands.chains i inside) (layout.load_cell cell (chain_cells inside) (by omega)) others

/-- An entry that leads to another value buffer. -/
theorem TableStands.updated (stands : TableStands p hdr array (pre ++ it :: post) μ) {bytes : List UInt8}
    (layout : TableLayout p hdr array (pre ++ it.revalued a bytes :: post))
    (same : ∀ b ∈ tableFoot hdr array (pre ++ it :: post), b ≠ it.val → SameOn μ μ' b.ptr (b.ptr + b.size))
    (width : a.size = p.valSize) (plain : a.align = 16) (there : loadBytes μ' a.ptr p.valSize = bytes)
    (word : a.ptr < 2 ^ 64) :
    TableStands p hdr array (pre ++ it.revalued a bytes :: post) (store μ' (it.node.ptr + 8) 8 a.ptr) := by
  have here : it ∈ pre ++ it :: post := by simp
  have here' : it.revalued a bytes ∈ pre ++ it.revalued a bytes :: post := by simp
  have old := stands.each it here
  have nodeSize : it.node.size = 24 := old.nodeSize
  have keySize : it.key.size = 5 + it.stored.length := old.keySize
  obtain ⟨nodeKey, nodeVal, keyVal⟩ := parts_distinct stands.distinct here
  obtain ⟨_, newVal, _⟩ := parts_distinct layout.distinct here'
  -- the word that changes lies in the entry of the item
  have apart : ∀ b ∈ tableFoot hdr array (pre ++ it.revalued a bytes :: post), it.node ≠ b →
      it.node.ptr + 16 ≤ b.ptr ∨ b.ptr + b.size ≤ it.node.ptr + 8 := by
    intro b mb other
    have apart := layout.apart it.node (tableFoot_item here' node_mem) b mb other
    omega
  have rest : ∀ b ∈ tableFoot hdr array (pre ++ post),
      SameOn μ (store μ' (it.node.ptr + 8) 8 a.ptr) b.ptr (b.ptr + b.size) := by
    intro b mb
    have left : it.val ∉ tableFoot hdr array (pre ++ post) := rest_apart stands.distinct val_mem
    have right : it.node ∉ tableFoot hdr array (pre ++ post) := rest_apart stands.distinct node_mem
    have before : b ∈ tableFoot hdr array (pre ++ it :: post) := foot_middle ▸ Or.inr mb
    have after : b ∈ tableFoot hdr array (pre ++ it.revalued a bytes :: post) := foot_middle ▸ Or.inr mb
    have keep := apart b after fun eq => right (eq ▸ mb)
    exact (same b before fun eq => left (eq ▸ mb)).trans (SameOn.store (by omega))
  have header := rest hdr tableFoot_header
  have cells := rest array tableFoot_array
  have node := same it.node (tableFoot_item here node_mem) nodeVal
  have key := same it.key (tableFoot_item here key_mem) keyVal
  have size := stands.size.1
  have wide := stands.arraySize.1
  refine ⟨stands.size, stands.positive, ?_, ?_, ?_, ?_, stands.arraySize, layout.distinct, ?_, ?_, ?_⟩
  · rw [load_congr (header.narrow (by omega) (by omega)), stands.numBuckets]
  · rw [load_congr (header.narrow (by omega) (by omega)), stands.keySize]
  · rw [load_congr (header.narrow (by omega) (by omega)), stands.valSize]
  · rw [load_congr (header.narrow (by omega) (by omega)), stands.buckets]
  · intro x mx
    rcases mem_middle.mp mx with rfl | other
    · exact stands.inside it here
    · exact stands.inside x (mem_middle.mpr (Or.inr other))
  · intro x mx
    rcases mem_middle.mp mx with rfl | other
    · have keepKey := apart it.key (tableFoot_item here' key_mem) nodeKey
      have keepVal := apart a (tableFoot_item here' val_mem) newVal
      refine ⟨nodeSize, keySize, width, ?_, ?_, load_store_eight word, ?_, ?_, ?_⟩
      · intro b part
        simp only [Item.allocs, Item.revalued, List.mem_cons, List.not_mem_nil, or_false] at part
        rcases part with rfl | rfl | rfl
        · exact old.plain _ node_mem
        · exact old.plain _ key_mem
        · exact plain
      · simp only [Item.revalued]
        rw [load_store_apart (by omega), load_congr (node.narrow (by omega) (by omega)), old.keyOffset]
      · simp only [Item.revalued]
        rw [load_store_apart (by omega), load_congr (key.narrow (by omega) (by omega)), old.length]
      · simp only [Item.revalued]
        rw [loadBytes_congr (SameOn.store (by omega)), loadBytes_congr (key.narrow (by omega) (by omega)), old.chars]
      · simp only [Item.revalued]
        rw [loadBytes_congr (SameOn.store (by omega)), there]
    · have nodeX := (stands.each x (mem_middle.mpr (Or.inr other))).nodeSize
      exact (stands.each x (mem_middle.mpr (Or.inr other))).congr
        ((rest x.node (tableFoot_item other node_mem)).narrow (by omega) (by omega))
        (rest x.key (tableFoot_item other key_mem)) (rest x.val (tableFoot_item other val_mem))
  · intro i inside
    have ptrs : chainPtrs (pre ++ it.revalued a bytes :: post) i = chainPtrs (pre ++ it :: post) i := by
      rw [chainPtrs_append, chainPtrs_append, chainPtrs_cons, chainPtrs_cons]
      rfl
    rw [ptrs]
    refine chain_congr (stands.chains i inside) (load_congr (cells.narrow (by omega) (by omega))) ?_
    intro c mem
    obtain ⟨x, mx, _, rfl⟩ := mem_chainPtrs mem
    rcases mem_middle.mp mx with rfl | other
    · exact (load_store_apart (by omega)).trans (load_congr (node.narrow (by omega) (by omega)))
    · have nodeX := (stands.each x mx).nodeSize
      exact load_congr ((rest x.node (tableFoot_item other node_mem)).narrow (by omega) (by omega))

/-- The cell that leads to an item: that of its bucket, or the last word of the entry before. -/
def cellOf (array : Alloc) (pre : List Item) (it : Item) : Nat :=
  cellAfter 16 (array.ptr + 8 * it.bucket) (chainPtrs pre it.bucket)

theorem cellOf_cell (bucket : it.bucket < p.numBuckets) : IsCell p array (pre ++ post) (cellOf array pre it) := by
  unfold cellOf
  rcases cellAfter_cases 16 (array.ptr + 8 * it.bucket) (chainPtrs pre it.bucket) with ⟨_, same⟩ | ⟨c, mem, same⟩
  · rw [same]
    exact chain_cells bucket
  · rw [same]
    obtain ⟨x, mx, _, rfl⟩ := mem_chainPtrs mem
    exact Or.inr ⟨x, List.mem_append_left _ mx, rfl⟩

/-- An entry that is no longer reached. -/
theorem TableStands.removed (stands : TableStands p hdr array (pre ++ it :: post) μ)
    (layout : TableLayout p hdr array (pre ++ it :: post)) :
    TableStands p hdr array (pre ++ post) (store μ (cellOf array pre it) 8 (load μ (it.node.ptr + 16) 8)) := by
  have here : it ∈ pre ++ it :: post := by simp
  have bucket := stands.inside it here
  have cell : IsCell p array (pre ++ it :: post) (cellOf array pre it) := cellOf_cell bucket
  have away := layout.cell_header cell
  refine ⟨stands.size, stands.positive, ?_, ?_, ?_, ?_, stands.arraySize, distinct_rest stands.distinct, ?_, ?_, ?_⟩
  · rw [load_store_apart (by omega), stands.numBuckets]
  · rw [load_store_apart (by omega), stands.keySize]
  · rw [load_store_apart (by omega), stands.valSize]
  · rw [load_store_apart (by omega), stands.buckets]
  · exact fun x mx => stands.inside x (mem_middle.mpr (Or.inr mx))
  · exact fun x mx => layout.keep_item cell (mem_middle.mpr (Or.inr mx)) (stands.each x (mem_middle.mpr (Or.inr mx)))
  · intro i inside
    -- cells of other entries and buckets are not the one that changes
    have other : ∀ y ∈ pre ++ post, y ∉ chainItems pre it.bucket → y.node.ptr + 16 ≠ cellOf array pre it := by
      intro y my fresh
      have my' : y ∈ pre ++ it :: post := mem_middle.mpr (Or.inr my)
      unfold cellOf
      rcases cellAfter_cases 16 (array.ptr + 8 * it.bucket) (chainPtrs pre it.bucket) with ⟨_, same⟩ | ⟨c, mem, same⟩
      · rw [same]
        exact layout.next_ne_bucket bucket my'
      · obtain ⟨x, mx, rfl⟩ := List.mem_map.mp mem
        rw [same]
        intro eq
        have mx' : x ∈ pre ++ it :: post := List.mem_append_left _ (mem_chainItems.mp mx).1
        have one := layout.ptr_injective my' mx' (by omega)
        exact fresh (one ▸ mx)
    have chain := stands.chains i inside
    have nodup := layout.chain_nodup i
    rw [chainPtrs_append, chainPtrs_cons] at chain nodup
    rw [chainPtrs_append]
    by_cases same : it.bucket = i
    · subst same
      rw [if_pos rfl] at chain nodup
      have halves := List.nodup_append'.mp nodup
      refine chain_remove chain ?_ (load_store_eight (load_eight_lt _ _)) ?_
      · intro e mem
        have head : ∀ c ∈ chainPtrs pre it.bucket, c + 16 ≠ array.ptr + 8 * it.bucket := by
          intro c mc
          obtain ⟨x, mx, _, rfl⟩ := mem_chainPtrs mc
          exact layout.next_ne_bucket bucket (List.mem_append_left _ mx)
        have last := cellAfter_not_read halves.1 head
        have fresh : e ≠ cellOf array pre it := by
          rintro rfl
          exact last mem
        refine layout.load_cell cell ?_ fresh
        rcases mem_readCells mem with rfl | ⟨c, mc, rfl⟩
        · exact chain_cells bucket
        · obtain ⟨x, mx, _, rfl⟩ := mem_chainPtrs mc
          exact Or.inr ⟨x, List.mem_append_left _ mx, rfl⟩
      · intro c mc
        obtain ⟨y, my, rfl⟩ := List.mem_map.mp mc
        have inPost := (mem_chainItems.mp my).1
        have fresh : y ∉ chainItems pre it.bucket := fun mem =>
          halves.2.2 (List.mem_map_of_mem mem) (List.mem_cons_of_mem _ mc)
        exact layout.load_cell cell (Or.inr ⟨y, mem_middle.mpr (Or.inr (List.mem_append_right _ inPost)), rfl⟩)
          (other y (List.mem_append_right _ inPost) fresh)
    · rw [if_neg same, ← chainPtrs_append] at chain
      rw [← chainPtrs_append]
      refine chain_congr chain (layout.load_cell cell (chain_cells inside) ?_) ?_
      · unfold cellOf
        rcases cellAfter_cases 16 (array.ptr + 8 * it.bucket) (chainPtrs pre it.bucket) with ⟨_, eq⟩ | ⟨c, mem, eq⟩
        · omega
        · obtain ⟨x, mx, _, rfl⟩ := mem_chainPtrs mem
          rw [eq]
          exact (layout.next_ne_bucket inside (List.mem_append_left _ mx)).symm
      · intro c mc
        obtain ⟨y, my, bucketY, rfl⟩ := mem_chainPtrs mc
        have fresh : y ∉ chainItems pre it.bucket := fun mem => same ((mem_chainItems.mp mem).2.symm.trans bucketY)
        exact layout.load_cell cell (Or.inr ⟨y, mem_middle.mpr (Or.inr my), rfl⟩) (other y my fresh)

end Changes

end OffsetStore
