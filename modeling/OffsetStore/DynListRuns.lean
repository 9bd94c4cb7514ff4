import OffsetStore.ContainerRuns
import OffsetStore.DynList
import OffsetStore.Lib.CellChain

/- The linked list as a double-ended list. The list owns its header object and one
   allocation for each node; following next from head and following prev from tail
   visits the same nodes in opposite order. -/
namespace OffsetStore
open ByteMemory Program Prog Words Pool CellChain

structure ListState where
  handle : Nat
  elemSize : Nat
  elems : List (List UInt8)

inductive ListOp where
  | create (elemSize : Nat)
  | pushBack (list : Nat) (elem : Mem)
  | pushFront (list : Nat) (elem : Mem)
  | get (list index : Nat)
  | length (list : Nat)

inductive ListResult where
  | handle (h : Nat)
  | code (rc : Int)
  | element (bytes : Option (List UInt8))
  | length (len : Nat)

def listCode (fuel : Nat) (region : ShmRegion) : ListOp → Code ListResult
  | .create elemSize => do
    let h ← dynlistCreate fuel region elemSize
    return .handle h
  | .pushBack list elem => do
    let rc ← dynlistPushBack fuel region list elem
    return .code rc
  | .pushFront list elem => do
    let rc ← dynlistPushFront fuel region list elem
    return .code rc
  | .get list index => do
    let bytes ← dynlistGet region list index
    return .element bytes
  | .length list => do
    let len ← dynlistLength region list
    return .length len

/-- One list is created, with nodes no larger than the region; its calls name its handle. -/
def listEnabled (n : Nat) : Option ListState → ListOp → Prop
  | none, .create elemSize => 16 + elemSize ≤ n
  | some s, .pushBack list _ => list = s.handle
  | some s, .pushFront list _ => list = s.handle
  | some s, .get list _ => list = s.handle
  | some s, .length list => list = s.handle
  | _, _ => False

/-- The double-ended list: what each call may return, and the list after it. -/
def listNext : Option ListState → ListOp → ListResult → Option (Option ListState)
  | none, .create elemSize, .handle h =>
      if h = 0 then some none
      else if elemSize = 0 then none
      else some (some ⟨h, elemSize, []⟩)
  | some s, .pushBack _ elem, .code rc =>
      if rc = 0 then some (some { s with elems := s.elems ++ [loadBytes elem 0 s.elemSize] })
      else if rc = -1 then some (some s)
      else none
  | some s, .pushFront _ elem, .code rc =>
      if rc = 0 then some (some { s with elems := loadBytes elem 0 s.elemSize :: s.elems })
      else if rc = -1 then some (some s)
      else none
  | some s, .get _ index, .element bytes => if bytes = s.elems[index]? then some (some s) else none
  | some s, .length _, .length len => if len = s.elems.length then some (some s) else none
  | _, _, _ => none

def listComponent (fuel n : Nat) : Component ListOp ListResult (Option ListState) where
  code := listCode fuel
  enabled := listEnabled n
  next := listNext

def listFoot (hdr : Alloc) (nodes : List Alloc) : Set Alloc := insert hdr {a | a ∈ nodes}

/-- The header and the nodes lie apart and have their sizes. -/
structure ListLayout (e : Nat) (hdr : Alloc) (nodes : List Alloc) : Prop where
  size : hdr.size = 88
  width : ∀ a ∈ nodes, a.size = 16 + e
  distinct : (hdr :: nodes).Nodup
  apart : ∀ a ∈ hdr :: nodes, ∀ b ∈ hdr :: nodes, a = b ∨ a.ptr + a.size ≤ b.ptr ∨ b.ptr + b.size ≤ a.ptr

/-- The header and the nodes stand for a list. -/
structure ListStands (s : ListState) (hdr : Alloc) (nodes : List Alloc) (μ : Mem) : Prop where
  place : hdr.ptr = s.handle
  positive : 0 < s.elemSize
  layout : ListLayout s.elemSize hdr nodes
  length : load μ hdr.ptr 8 = s.elems.length
  elemSize : load μ (hdr.ptr + 8) 8 = s.elemSize
  links : Paired (fun c => load μ c 8) 0 8 (hdr.ptr + 16) (hdr.ptr + 24) (nodes.map Alloc.ptr)
  elements : nodes.map (fun a => loadBytes μ (a.ptr + 16) s.elemSize) = s.elems

def listRepr (n : Nat) : Option ListState → Set Alloc → Mem → Prop
  | none, L, _ => L = ∅
  | some s, L, μ => 16 + s.elemSize ≤ n ∧ ∃ hdr nodes, ListStands s hdr nodes μ ∧ L = listFoot hdr nodes

/-- The words of the list: four in the header and two in each node. -/
def IsWord (hdr : Alloc) (nodes : List Alloc) (c : Nat) : Prop :=
  (c = hdr.ptr ∨ c = hdr.ptr + 8 ∨ c = hdr.ptr + 16 ∨ c = hdr.ptr + 24) ∨
    ∃ a ∈ nodes, c = a.ptr ∨ c = a.ptr + 8

section Layout
variable {e : Nat} {hdr : Alloc} {nodes : List Alloc} {μ : Mem} {c d : Nat}

theorem ListLayout.header_apart (layout : ListLayout e hdr nodes) {a : Alloc} (mem : a ∈ nodes) :
    hdr.ptr + 88 ≤ a.ptr ∨ a.ptr + (16 + e) ≤ hdr.ptr := by
  have size := layout.size
  have width := layout.width a mem
  rcases layout.apart hdr (by simp) a (by simp [mem]) with same | before | after
  · have fresh := (List.nodup_cons.mp layout.distinct).1
    rw [same] at fresh
    exact absurd mem fresh
  · omega
  · omega

theorem ListLayout.node_apart (layout : ListLayout e hdr nodes) {a b : Alloc} (ma : a ∈ nodes) (mb : b ∈ nodes) :
    a = b ∨ a.ptr + (16 + e) ≤ b.ptr ∨ b.ptr + (16 + e) ≤ a.ptr := by
  have widthA := layout.width a ma
  have widthB := layout.width b mb
  rcases layout.apart a (by simp [ma]) b (by simp [mb]) with same | before | after
  · exact Or.inl same
  · omega
  · omega

theorem ListLayout.ptrs_nodup (layout : ListLayout e hdr nodes) : (nodes.map Alloc.ptr).Nodup := by
  refine List.Nodup.map_on ?_ (List.nodup_cons.mp layout.distinct).2
  intro a ma b mb same
  rcases layout.node_apart ma mb with eq | before | after
  · exact eq
  · omega
  · omega

/-- Two words of the list are one, or do not meet. -/
theorem ListLayout.words_apart (layout : ListLayout e hdr nodes) (hc : IsWord hdr nodes c)
    (hd : IsWord hdr nodes d) : c = d ∨ c + 8 ≤ d ∨ d + 8 ≤ c := by
  rcases hc with inC | ⟨a, ma, inC⟩
  · rcases hd with inD | ⟨b, mb, inD⟩
    · omega
    · have apart := layout.header_apart mb
      omega
  · rcases hd with inD | ⟨b, mb, inD⟩
    · have apart := layout.header_apart ma
      omega
    · rcases layout.node_apart ma mb with same | apart
      · rw [same] at inC
        omega
      · omega

theorem ListLayout.load_store (layout : ListLayout e hdr nodes) (hc : IsWord hdr nodes c)
    (hd : IsWord hdr nodes d) {v : Nat} (word : v < 2 ^ 64) :
    load (store μ c 8 v) d 8 = if d = c then v else load μ d 8 := by
  by_cases same : d = c
  · rw [if_pos same, same, load_store_eight word]
  · rw [if_neg same]
    have apart := layout.words_apart hc hd
    exact load_store_apart (by omega)

/-- A word of the list is no byte of an element. -/
theorem ListLayout.element_store (layout : ListLayout e hdr nodes) (hc : IsWord hdr nodes c) {a : Alloc}
    (mem : a ∈ nodes) (v : Nat) :
    loadBytes (store μ c 8 v) (a.ptr + 16) e = loadBytes μ (a.ptr + 16) e := by
  refine loadBytes_congr (SameOn.store ?_)
  rcases hc with inC | ⟨b, mb, inC⟩
  · have apart := layout.header_apart mem
    omega
  · rcases layout.node_apart mem mb with same | apart
    · rw [same]
      omega
    · omega

end Layout

section Stands
variable {s : ListState} {hdr a : Alloc} {nodes : List Alloc} {μ μ' : Mem} {n : Nat} {L : Set Alloc}

theorem header_in (hdr : Alloc) (nodes : List Alloc) : hdr ∈ listFoot hdr nodes := Set.mem_insert _ _

theorem node_in (hdr : Alloc) {nodes : List Alloc} (mem : a ∈ nodes) : a ∈ listFoot hdr nodes :=
  Set.mem_insert_of_mem _ mem

theorem ListStands.congr (stands : ListStands s hdr nodes μ)
    (same : ∀ a ∈ listFoot hdr nodes, SameOn μ μ' a.ptr (a.ptr + a.size)) : ListStands s hdr nodes μ' := by
  have header := same hdr (header_in hdr nodes)
  have size := stands.layout.size
  have node : ∀ x ∈ nodes, SameOn μ μ' x.ptr (x.ptr + (16 + s.elemSize)) := by
    intro x mem
    rw [← stands.layout.width x mem]
    exact same x (node_in hdr mem)
  have cell : ∀ x ∈ nodes.map Alloc.ptr, load μ' x 8 = load μ x 8 ∧ load μ' (x + 8) 8 = load μ (x + 8) 8 := by
    intro x mem
    obtain ⟨b, mb, rfl⟩ := List.mem_map.mp mem
    exact ⟨load_congr ((node b mb).narrow (by omega) (by omega)),
      load_congr ((node b mb).narrow (by omega) (by omega))⟩
  refine ⟨stands.place, stands.positive, stands.layout, ?_, ?_, ⟨?_, ?_⟩, ?_⟩
  · rw [load_congr (header.narrow (by omega) (by omega)), stands.length]
  · rw [load_congr (header.narrow (by omega) (by omega)), stands.elemSize]
  · exact chain_congr stands.links.forward (load_congr (header.narrow (by omega) (by omega)))
      fun x mem => (cell x mem).1
  · exact chain_congr stands.links.backward (load_congr (header.narrow (by omega) (by omega)))
      fun x mem => (cell x (List.mem_reverse.mp mem)).2
  · rw [← stands.elements]
    refine List.map_congr_left fun x mem => loadBytes_congr ((node x mem).narrow (by omega) (by omega))

/-- A node in front: it leads to the old head, the old head (or the tail cell) to it. -/
theorem ListStands.front (stands : ListStands s hdr nodes μ) (layout : ListLayout s.elemSize hdr (a :: nodes))
    (positive : 0 < a.ptr) {bs : List UInt8} (length : load μ' hdr.ptr 8 = s.elems.length + 1)
    (head : load μ' (hdr.ptr + 16) 8 = a.ptr) (next : load μ' a.ptr 8 = load μ (hdr.ptr + 16) 8)
    (prev : load μ' (a.ptr + 8) 8 = 0)
    (turn : load μ' (frontCell 8 (hdr.ptr + 24) (nodes.map Alloc.ptr)) 8 = a.ptr)
    (kept : ∀ c, IsWord hdr nodes c → c ≠ hdr.ptr → c ≠ hdr.ptr + 16 →
      c ≠ frontCell 8 (hdr.ptr + 24) (nodes.map Alloc.ptr) → load μ' c 8 = load μ c 8)
    (bytes : loadBytes μ' (a.ptr + 16) s.elemSize = bs)
    (elements : ∀ x ∈ nodes, loadBytes μ' (x.ptr + 16) s.elemSize = loadBytes μ (x.ptr + 16) s.elemSize) :
    ListStands { s with elems := bs :: s.elems } hdr (a :: nodes) μ' := by
  have old := stands.layout
  have turnCell : frontCell 8 (hdr.ptr + 24) (nodes.map Alloc.ptr) = hdr.ptr + 24 ∨
      ∃ x ∈ nodes, frontCell 8 (hdr.ptr + 24) (nodes.map Alloc.ptr) = x.ptr + 8 := by
    cases nodes with
    | nil => exact Or.inl rfl
    | cons x xs => exact Or.inr ⟨x, by simp, rfl⟩
  refine ⟨stands.place, stands.positive, layout, length, ?_, ?_, ?_⟩
  · rw [kept _ (Or.inl (by omega)) (by omega) (by omega) ?_, stands.elemSize]
    rcases turnCell with same | ⟨y, my, same⟩
    · omega
    · have apart := old.header_apart my
      omega
  · refine stands.links.push_front old.ptrs_nodup ?_ (by omega) head next ?_ prev turn ?_
    · intro x mem
      obtain ⟨b, mb, rfl⟩ := List.mem_map.mp mem
      have apart := old.header_apart mb
      omega
    · intro x mem
      obtain ⟨b, mb, rfl⟩ := List.mem_map.mp mem
      have apart := old.header_apart mb
      refine kept _ (Or.inr ⟨b, mb, Or.inl rfl⟩) (by omega) (by omega) ?_
      rcases turnCell with same | ⟨y, my, same⟩
      · omega
      · rcases old.node_apart mb my with eq | apart'
        · rw [same, eq]
          omega
        · omega
    · intro c reached other
      rcases reached with same | ⟨x, mem, same⟩
      · exact kept c (Or.inl (by omega)) (by omega) (by omega) other
      · obtain ⟨b, mb, rfl⟩ := List.mem_map.mp mem
        have apart := old.header_apart mb
        exact kept c (Or.inr ⟨b, mb, Or.inr same⟩) (by omega) (by omega) other
  · rw [List.map_cons, bytes, ← stands.elements]
    exact congrArg _ (List.map_congr_left elements)

theorem ListLayout.rotate {e : Nat} (layout : ListLayout e hdr (a :: nodes)) : ListLayout e hdr (nodes ++ [a]) := by
  have perm : (hdr :: (nodes ++ [a])).Perm (hdr :: a :: nodes) := (List.perm_append_singleton a nodes).cons hdr
  refine ⟨layout.size, ?_, perm.nodup_iff.mpr layout.distinct, ?_⟩
  · intro b mb
    exact layout.width b ((List.perm_append_singleton a nodes).mem_iff.mp mb)
  · intro b mb d md
    exact layout.apart b (perm.mem_iff.mp mb) d (perm.mem_iff.mp md)

/-- A node at the end, linked the other way round. -/
theorem ListStands.back (stands : ListStands s hdr nodes μ) (layout : ListLayout s.elemSize hdr (a :: nodes))
    (positive : 0 < a.ptr) {bs : List UInt8} (length : load μ' hdr.ptr 8 = s.elems.length + 1)
    (tail : load μ' (hdr.ptr + 24) 8 = a.ptr) (prev : load μ' (a.ptr + 8) 8 = load μ (hdr.ptr + 24) 8)
    (next : load μ' a.ptr 8 = 0)
    (turn : load μ' (frontCell 0 (hdr.ptr + 16) (nodes.map Alloc.ptr).reverse) 8 = a.ptr)
    (kept : ∀ c, IsWord hdr nodes c → c ≠ hdr.ptr → c ≠ hdr.ptr + 24 →
      c ≠ frontCell 0 (hdr.ptr + 16) (nodes.map Alloc.ptr).reverse → load μ' c 8 = load μ c 8)
    (bytes : loadBytes μ' (a.ptr + 16) s.elemSize = bs)
    (elements : ∀ x ∈ nodes, loadBytes μ' (x.ptr + 16) s.elemSize = loadBytes μ (x.ptr + 16) s.elemSize) :
    ListStands { s with elems := s.elems ++ [bs] } hdr (nodes ++ [a]) μ' := by
  have old := stands.layout
  have turnCell : frontCell 0 (hdr.ptr + 16) (nodes.map Alloc.ptr).reverse = hdr.ptr + 16 ∨
      ∃ x ∈ nodes, frontCell 0 (hdr.ptr + 16) (nodes.map Alloc.ptr).reverse = x.ptr := by
    cases order : (nodes.map Alloc.ptr).reverse with
    | nil => exact Or.inl rfl
    | cons x xs =>
      have mem : x ∈ nodes.map Alloc.ptr := List.mem_reverse.mp (order ▸ List.mem_cons_self)
      obtain ⟨b, mb, rfl⟩ := List.mem_map.mp mem
      exact Or.inr ⟨b, mb, rfl⟩
  refine ⟨stands.place, stands.positive, layout.rotate, ?_, ?_, ?_, ?_⟩
  · rw [length, List.length_append, List.length_singleton]
  · rw [kept _ (Or.inl (by omega)) (by omega) (by omega) ?_, stands.elemSize]
    rcases turnCell with same | ⟨y, my, same⟩
    · omega
    · have apart := old.header_apart my
      omega
  · rw [List.map_append]
    refine stands.links.push_back old.ptrs_nodup ?_ (by omega) tail prev ?_ next turn ?_
    · intro x mem
      obtain ⟨b, mb, rfl⟩ := List.mem_map.mp mem
      have apart := old.header_apart mb
      omega
    · intro x mem
      obtain ⟨b, mb, rfl⟩ := List.mem_map.mp mem
      have apart := old.header_apart mb
      refine kept _ (Or.inr ⟨b, mb, Or.inr rfl⟩) (by omega) (by omega) ?_
      rcases turnCell with same | ⟨y, my, same⟩
      · omega
      · rcases old.node_apart mb my with eq | apart'
        · rw [same, eq]
          omega
        · omega
    · intro c reached other
      rcases reached with same | ⟨x, mem, same⟩
      · exact kept c (Or.inl (by omega)) (by omega) (by omega) other
      · obtain ⟨b, mb, rfl⟩ := List.mem_map.mp mem
        have apart := old.header_apart mb
        exact kept c (Or.inr ⟨b, mb, Or.inl same⟩) (by omega) (by omega) other
  · rw [List.map_append, List.map_singleton, bytes, ← stands.elements]
    exact congrArg (· ++ [bs]) (List.map_congr_left elements)

/-- The new node stands at the end; only the count is to be raised. -/
structure Enqueued (e : Nat) (hdr a : Alloc) (nodes : List Alloc) (bs : List UInt8) (μ μ' : Mem) : Prop where
  tail : load μ' (hdr.ptr + 24) 8 = a.ptr
  prev : load μ' (a.ptr + 8) 8 = load μ (hdr.ptr + 24) 8
  next : load μ' a.ptr 8 = 0
  turn : load μ' (frontCell 0 (hdr.ptr + 16) (nodes.map Alloc.ptr).reverse) 8 = a.ptr
  kept : ∀ c, IsWord hdr nodes c → c ≠ hdr.ptr + 24 →
    c ≠ frontCell 0 (hdr.ptr + 16) (nodes.map Alloc.ptr).reverse → load μ' c 8 = load μ c 8
  bytes : loadBytes μ' (a.ptr + 16) e = bs
  elements : ∀ x ∈ nodes, loadBytes μ' (x.ptr + 16) e = loadBytes μ (x.ptr + 16) e

theorem headerWord {c : Nat} (hdr : Alloc) (nodes : List Alloc)
    (here : c = hdr.ptr ∨ c = hdr.ptr + 8 ∨ c = hdr.ptr + 16 ∨ c = hdr.ptr + 24) : IsWord hdr nodes c :=
  Or.inl here

theorem newWord {c : Nat} (hdr a : Alloc) (nodes : List Alloc) (here : c = a.ptr ∨ c = a.ptr + 8) :
    IsWord hdr (a :: nodes) c := Or.inr ⟨a, List.mem_cons_self, here⟩

theorem IsWord.grow {c : Nat} (word : IsWord hdr nodes c) : IsWord hdr (a :: nodes) c := by
  rcases word with field | ⟨b, mb, link⟩
  · exact Or.inl field
  · exact Or.inr ⟨b, List.mem_cons_of_mem a mb, link⟩

theorem IsWord.not_new {e c : Nat} (word : IsWord hdr nodes c) (layout : ListLayout e hdr (a :: nodes)) :
    c ≠ a.ptr ∧ c ≠ a.ptr + 8 := by
  have fresh : a ∉ nodes := (List.nodup_cons.mp (List.nodup_cons.mp layout.distinct).2).1
  rcases word with field | ⟨b, mb, link⟩
  · have apart := layout.header_apart List.mem_cons_self
    omega
  · rcases layout.node_apart List.mem_cons_self (List.mem_cons_of_mem a mb) with same | apart
    · rw [← same] at mb
      exact absurd mb fresh
    · omega

/-- The cell of the last link is no counter. -/
theorem ListLayout.turn_cell {e : Nat} (layout : ListLayout e hdr nodes) :
    frontCell 0 (hdr.ptr + 16) (nodes.map Alloc.ptr).reverse ≠ hdr.ptr ∧
      IsWord hdr nodes (frontCell 0 (hdr.ptr + 16) (nodes.map Alloc.ptr).reverse) := by
  cases order : (nodes.map Alloc.ptr).reverse with
  | nil => exact ⟨by simp only [frontCell]; omega, headerWord _ _ (by simp [frontCell])⟩
  | cons x xs =>
    have mem : x ∈ nodes.map Alloc.ptr := List.mem_reverse.mp (order ▸ List.mem_cons_self)
    obtain ⟨b, mb, rfl⟩ := List.mem_map.mp mem
    have apart := layout.header_apart mb
    exact ⟨by simp only [frontCell]; omega, Or.inr ⟨b, mb, Or.inl rfl⟩⟩

/-- The last step of an insertion at the end: the header counts the node. -/
theorem ListStands.enqueue (stands : ListStands s hdr nodes μ) (layout : ListLayout s.elemSize hdr (a :: nodes))
    (positive : 0 < a.ptr) {bs : List UInt8} (queued : Enqueued s.elemSize hdr a nodes bs μ μ')
    (small : s.elems.length + 1 < 2 ^ 64) :
    ListStands { s with elems := s.elems ++ [bs] } hdr (nodes ++ [a])
      (store μ' hdr.ptr 8 (s.elems.length + 1)) := by
  have counter := headerWord hdr (a :: nodes) (Or.inl rfl)
  have apart := layout.header_apart List.mem_cons_self
  have turnCell := stands.layout.turn_cell
  refine stands.back layout positive (load_store_eight small) ?_ ?_ ?_ ?_ ?_ ?_ ?_
  · rw [layout.load_store counter (headerWord _ _ (by omega)) small, if_neg (by omega), queued.tail]
  · rw [layout.load_store counter (newWord _ _ _ (Or.inr rfl)) small, if_neg (by omega), queued.prev]
  · rw [layout.load_store counter (newWord _ _ _ (Or.inl rfl)) small, if_neg (by omega), queued.next]
  · rw [layout.load_store counter turnCell.2.grow small, if_neg turnCell.1, queued.turn]
  · intro c word other notTail notTurn
    rw [layout.load_store counter word.grow small, if_neg other, queued.kept c word notTail notTurn]
  · rw [layout.element_store counter List.mem_cons_self, queued.bytes]
  · intro x mem
    rw [layout.element_store counter (List.mem_cons_of_mem a mem), queued.elements x mem]

/-- A node that is written and not yet linked; nothing else has changed. -/
structure NodeWritten (e : Nat) (a : Alloc) (next prev : Nat) (bs : List UInt8) (μ μ' : Mem) : Prop where
  off : SameOff μ μ' a.ptr (a.ptr + (16 + e))
  next : load μ' a.ptr 8 = next
  prev : load μ' (a.ptr + 8) 8 = prev
  bytes : loadBytes μ' (a.ptr + 16) e = bs

theorem nodeWritten {e next prev : Nat} {bs : List UInt8} {μ₀ : Mem} (off : SameOff μ₀ μ a.ptr (a.ptr + 16))
    (toNext : load μ a.ptr 8 = next) (toPrev : load μ (a.ptr + 8) 8 = prev) (length : bs.length = e) :
    NodeWritten e a next prev bs μ₀ (storeBytes μ (a.ptr + 16) bs) := by
  refine ⟨fun x out => ?_, ?_, ?_, length ▸ loadBytes_storeBytes μ (a.ptr + 16) bs⟩
  · rw [storeBytes_outside (by omega), off x (by omega)]
  · rw [load_congr (SameOn.storeBytes (by omega)), toNext]
  · rw [load_congr (SameOn.storeBytes (by omega)), toPrev]

/-- The first node becomes the head and the tail. -/
theorem NodeWritten.enqueued_first {e : Nat} {bs : List UInt8} {μ₀ : Mem} (new : NodeWritten e a 0 0 bs μ₀ μ)
    (layout : ListLayout e hdr [a]) (noTail : load μ (hdr.ptr + 24) 8 = 0) (word : a.ptr < 2 ^ 64) :
    Enqueued e hdr a [] bs μ (store (store μ (hdr.ptr + 16) 8 a.ptr) (hdr.ptr + 24) 8 a.ptr) := by
  have apart := layout.header_apart List.mem_cons_self
  refine ⟨load_store_eight word, ?_, ?_, ?_, ?_, ?_, by simp⟩
  · rw [load_store_apart (by omega), load_store_apart (by omega), new.prev, noTail]
  · rw [load_store_apart (by omega), load_store_apart (by omega), new.next]
  · rw [show frontCell 0 (hdr.ptr + 16) (([] : List Alloc).map Alloc.ptr).reverse = hdr.ptr + 16 from rfl,
      load_store_apart (by omega), load_store_eight word]
  · intro c place notTail notTurn
    have notHead : c ≠ hdr.ptr + 16 := notTurn
    rw [layout.load_store (headerWord _ _ (by omega)) place.grow word, if_neg notTail,
      layout.load_store (headerWord _ _ (by omega)) place.grow word, if_neg notHead]
  · rw [layout.element_store (headerWord _ _ (by omega)) List.mem_cons_self,
      layout.element_store (headerWord _ _ (by omega)) List.mem_cons_self, new.bytes]

/-- A node in front of the head h: h links back to it, the header names and counts it. -/
theorem ListStands.prepended {h : Alloc} {rest : List Alloc} {bs : List UInt8} {μ₀ : Mem} (stands : ListStands s hdr nodes μ)
    (layout : ListLayout s.elemSize hdr (a :: nodes)) (order : nodes = h :: rest)
    (new : NodeWritten s.elemSize a h.ptr 0 bs μ₀ μ) (positive : 0 < a.ptr) (word : a.ptr < 2 ^ 64)
    (small : s.elems.length + 1 < 2 ^ 64) :
    ListStands { s with elems := bs :: s.elems } hdr (a :: nodes)
      (store (store (store μ (h.ptr + 8) 8 a.ptr) (hdr.ptr + 16) 8 a.ptr) hdr.ptr 8 (s.elems.length + 1)) := by
  have isNode : h ∈ nodes := by simp [order]
  have next := newWord hdr a nodes (Or.inl rfl)
  have prev := newWord hdr a nodes (Or.inr rfl)
  have turnWord : IsWord hdr nodes (h.ptr + 8) := Or.inr ⟨h, isNode, Or.inr rfl⟩
  have headWord : IsWord hdr nodes (hdr.ptr + 16) := headerWord _ _ (by omega)
  have countWord : IsWord hdr nodes hdr.ptr := headerWord _ _ (Or.inl rfl)
  have otherTurn := turnWord.not_new layout
  have apartA := layout.header_apart List.mem_cons_self
  have apartH := stands.layout.header_apart isNode
  have head : load μ (hdr.ptr + 16) 8 = h.ptr := by
    have links := stands.links
    rw [order] at links
    exact links.forward.1
  have turn : frontCell 8 (hdr.ptr + 24) (nodes.map Alloc.ptr) = h.ptr + 8 := by
    rw [order]
    rfl
  refine stands.front layout positive (load_store_eight small) ?_ ?_ ?_ ?_ ?_ ?_ ?_
  · rw [layout.load_store countWord.grow headWord.grow small, if_neg (by omega)]
    exact load_store_eight word
  · rw [layout.load_store countWord.grow next small, if_neg (by omega),
      layout.load_store headWord.grow next word, if_neg (by omega),
      layout.load_store turnWord.grow next word, if_neg (Ne.symm otherTurn.1), new.next, head]
  · rw [layout.load_store countWord.grow prev small, if_neg (by omega),
      layout.load_store headWord.grow prev word, if_neg (by omega),
      layout.load_store turnWord.grow prev word, if_neg (Ne.symm otherTurn.2), new.prev]
  · rw [turn, layout.load_store countWord.grow turnWord.grow small, if_neg (by omega),
      layout.load_store headWord.grow turnWord.grow word, if_neg (by omega)]
    exact load_store_eight word
  · intro c place notCount notHead notTurn
    rw [turn] at notTurn
    rw [layout.load_store countWord.grow place.grow small, if_neg notCount,
      layout.load_store headWord.grow place.grow word, if_neg notHead,
      layout.load_store turnWord.grow place.grow word, if_neg notTurn]
  · rw [layout.element_store countWord.grow List.mem_cons_self, layout.element_store headWord.grow List.mem_cons_self,
      layout.element_store turnWord.grow List.mem_cons_self, new.bytes]
  · intro x mem
    have mem' := List.mem_cons_of_mem a mem
    rw [layout.element_store countWord.grow mem', layout.element_store headWord.grow mem',
      layout.element_store turnWord.grow mem']

end Stands

section Calls
variable {s : ListState} {hdr a : Alloc} {nodes : List Alloc} {μ μ' : Mem} {n fuel : Nat} {region : ShmRegion}
  {L : Set Alloc}

theorem listFoot_cons (hdr a : Alloc) (nodes : List Alloc) :
    insert a (listFoot hdr nodes) = listFoot hdr (a :: nodes) := by
  ext x
  simp only [listFoot, Set.mem_insert_iff, Set.mem_ofPred_eq, List.mem_cons]
  tauto

theorem listFoot_rotate (hdr a : Alloc) (nodes : List Alloc) :
    listFoot hdr (nodes ++ [a]) = listFoot hdr (a :: nodes) := by
  ext x
  simp only [listFoot, Set.mem_insert_iff, Set.mem_ofPred_eq, List.mem_cons, List.mem_append]
  tauto

/-- A new node joins the layout. -/
theorem ListLayout.join {e : Nat} (layout : ListLayout e hdr nodes) (foot : Footprint n (listFoot hdr (a :: nodes)))
    (fresh : a ∉ listFoot hdr nodes) (size : a.size = 16 + e) : ListLayout e hdr (a :: nodes) := by
  obtain ⟨headFresh, distinct⟩ := List.nodup_cons.mp layout.distinct
  have members : ∀ x ∈ hdr :: a :: nodes, x ∈ listFoot hdr (a :: nodes) := by
    intro x mem
    simpa [listFoot] using mem
  refine ⟨layout.size, ?_, ?_, fun x mx y my => foot.apart x (members x mx) y (members y my)⟩
  · intro x mem
    rcases List.mem_cons.mp mem with same | old
    · rw [same, size]
    · exact layout.width x old
  · refine List.nodup_cons.mpr ⟨?_, List.nodup_cons.mpr ⟨fun mem => fresh (node_in hdr mem), distinct⟩⟩
    intro mem
    rcases List.mem_cons.mp mem with same | old
    · exact fresh (same ▸ header_in hdr nodes)
    · exact headFresh old

theorem resolve_list (map : region.Mapped) (total : region.size = n) (foot : Footprint n (listFoot hdr nodes))
    (stands : ListStands s hdr nodes μ) :
    dynlistResolveHeader region s.handle = some (add64 region.base hdr.ptr) := by
  have bounds := foot.bounds hdr (header_in hdr nodes)
  have size := stands.layout.size
  rw [← stands.place]
  exact resolve_eq_some map (by omega) (by omega) (by simp only [DynListHeader.sizeof]; omega)

theorem resolve_node (map : region.Mapped) (total : region.size = n) (foot : Footprint n L) {e : Nat}
    (mem : a ∈ L) (size : a.size = 16 + e) :
    dynlistResolveNode region a.ptr = some (add64 region.base a.ptr) := by
  have bounds := foot.bounds a mem
  exact resolve_eq_some map (by omega) (by omega) (by simp only [DynListNodeHeader.sizeof]; omega)

/-- The nodes are fewer than the bytes of the region. -/
theorem ListStands.count_lt (stands : ListStands s hdr nodes μ) (foot : Footprint n (listFoot hdr nodes)) :
    s.elems.length ≤ n := by
  have sub : (nodes.map Alloc.ptr).toFinset ⊆ Finset.range n := by
    intro x mem
    obtain ⟨b, mb, rfl⟩ := List.mem_map.mp (List.mem_toFinset.mp mem)
    have bounds := foot.bounds b (node_in hdr mb)
    exact Finset.mem_range.mpr (by omega)
  have few := Finset.card_le_card sub
  rw [List.toFinset_card_of_nodup stands.layout.ptrs_nodup, Finset.card_range, List.length_map] at few
  rwa [← stands.elements, List.length_map]

theorem does_count (map : region.Mapped) (total : region.size = n) (mem : hdr ∈ L) (size : hdr.size = 88) {k : Nat}
    (value : load μ hdr.ptr 8 = k) (small : k + 1 < 2 ^ 64) :
    Does n L μ (dynlistCount region (add64 region.base hdr.ptr))
      (fun _ L' μ' => L' = L ∧ μ' = store μ hdr.ptr 8 (k + 1)) := by
  unfold dynlistCount
  simp only [DynListHeader.length]
  refine does_load64 map total mem (by omega) (by omega) value ?_
  rw [add64_eq small]
  exact does_store64_last map total mem (by omega) (by omega)

/-- The tail word, and the cell that leads to a node put at the end. -/
theorem ListStands.tail_cases (stands : ListStands s hdr nodes μ) :
    (nodes = [] ∧ load μ (hdr.ptr + 24) 8 = 0 ∧ load μ (hdr.ptr + 16) 8 = 0) ∨
    ∃ before t, nodes = before ++ [t] ∧ load μ (hdr.ptr + 24) 8 = t.ptr ∧ load μ t.ptr 8 = 0 := by
  have links := stands.links
  rcases List.eq_nil_or_concat nodes with empty | ⟨before, t, last⟩
  · rw [empty] at links
    exact Or.inl ⟨empty, links.backward, links.forward⟩
  · rw [List.concat_eq_append] at last
    rw [last, List.map_append] at links
    have backward := links.backward
    rw [List.reverse_append] at backward
    exact Or.inr ⟨before, t, last, backward.1, (chain_append.mp links.forward).2.2.2⟩

/-- A store into the payload of the new node only. -/
theorem ListStands.off (stands : ListStands s hdr nodes μ) (layout : ListLayout s.elemSize hdr (a :: nodes))
    (off : SameOff μ μ' a.ptr (a.ptr + (16 + s.elemSize))) : ListStands s hdr nodes μ' := by
  have fresh : a ∉ nodes := (List.nodup_cons.mp (List.nodup_cons.mp layout.distinct).2).1
  refine stands.congr fun x mem => ?_
  rcases mem with same | node
  · have apart := layout.header_apart List.mem_cons_self
    have size := layout.size
    rw [same]
    exact off.on (by omega)
  · have width := layout.width x (List.mem_cons_of_mem a node)
    rcases layout.node_apart List.mem_cons_self (List.mem_cons_of_mem a node) with same | apart
    · exact absurd (same ▸ node) fresh
    · exact off.on (by omega)

/-- A new node beside those of the list, in dynlist_insert_node and dynlist_push_front. -/
theorem does_newNode (map : region.Mapped) (total : region.size = n) (large : 2728 ≤ n) (enough : n ≤ fuel)
    (stands : ListStands s hdr nodes μ) (small : s.elemSize + 128 ≤ 2 ^ 64) {refused : Code Int} {lost : Nat → Code Int}
    {next : Nat → Nat → Code Int} {post : Int → Set Alloc → Mem → Prop} (failed : Does n (listFoot hdr nodes) μ refused post)
    (made : ∀ a μ', load μ' (hdr.ptr + 24) 8 = load μ (hdr.ptr + 24) 8 →
      Footprint n (listFoot hdr (a :: nodes)) → ListStands s hdr nodes μ' → ListLayout s.elemSize hdr (a :: nodes) →
      Does n (listFoot hdr (a :: nodes)) μ' (next (add64 region.base a.ptr) a.ptr) post) :
    Does n (listFoot hdr nodes) μ (do
      let elemSize ← region.load64 (add64 region.base hdr.ptr) DynListHeader.elemSize
      let storage ← allocatorAlloc fuel region (add64 DynListNodeHeader.sizeof elemSize) 16
      match storage with
      | .error _ => refused
      | .ok buf =>
        match offsetPtrTryFromRaw region.base region.size buf with
        | none => lost buf
        | some nodeOffset => next buf nodeOffset) post := by
  have size := stands.layout.size
  simp only [DynListHeader.elemSize, DynListNodeHeader.sizeof]
  refine does_load64 map total (header_in hdr nodes) (by omega) (by omega) stands.elemSize ?_
  rw [add64_eq (by omega)]
  refine does_bind (does_alloc map total large enough (by omega) (by omega)) ?_
  intro result L' μ' holds
  cases result with
  | error status =>
    obtain ⟨rfl, rfl⟩ := holds
    exact failed
  | ok buf =>
    obtain ⟨a, fresh, grown, kept, address, wide, align⟩ := holds
    subst address
    rw [listFoot_cons] at grown
    subst grown
    refine does_foot fun foot => ?_
    have bounds := foot.bounds a (node_in hdr List.mem_cons_self)
    simp only [from_raw_eq_some map (show 0 < a.ptr by omega) (by omega)]
    exact made a μ' (load_congr ((kept hdr (header_in hdr nodes)).narrow (by omega) (by omega))) foot (stands.congr kept)
      (stands.layout.join foot fresh wide)

/-- The links of a node that follows the last one. -/
theorem does_linkAfter (map : region.Mapped) (total : region.size = n) (stands : ListStands s hdr nodes μ)
    (layout : ListLayout s.elemSize hdr (a :: nodes)) {before : List Alloc} {t : Alloc}
    (order : nodes = before ++ [t]) (tail : load μ (hdr.ptr + 24) 8 = t.ptr) (last : load μ t.ptr 8 = 0)
    {bs : List UInt8} (bytes : loadBytes μ (a.ptr + 16) s.elemSize = bs) :
    Does n (listFoot hdr (a :: nodes)) μ
      (dynlistLinkAfter region (add64 region.base hdr.ptr) (add64 region.base a.ptr) a.ptr t.ptr)
      (fun linked L' μ' => linked = true ∧ L' = listFoot hdr (a :: nodes) ∧
        Enqueued s.elemSize hdr a nodes bs μ μ') := by
  have user := map.user
  have size := layout.size
  have isNode : t ∈ nodes := by simp [order]
  have isNode' := List.mem_cons_of_mem a isNode
  have memA : a ∈ listFoot hdr (a :: nodes) := node_in hdr List.mem_cons_self
  have memT : t ∈ listFoot hdr (a :: nodes) := node_in hdr isNode'
  have memH := header_in hdr (a :: nodes)
  have widthA := layout.width a List.mem_cons_self
  have widthT := layout.width t isNode'
  have wordT : IsWord hdr nodes t.ptr := Or.inr ⟨t, isNode, Or.inl rfl⟩
  have wordTail : IsWord hdr nodes (hdr.ptr + 24) := headerWord _ _ (by omega)
  have next := newWord hdr a nodes (Or.inl rfl)
  have prev := newWord hdr a nodes (Or.inr rfl)
  have otherT := wordT.not_new layout
  have otherTail := wordTail.not_new layout
  have apartT := stands.layout.header_apart isNode
  refine does_foot fun foot => ?_
  have boundsA := foot.bounds a memA
  have boundsT := foot.bounds t memT
  have wordA : a.ptr < 2 ^ 64 := by omega
  have wordTptr : t.ptr < 2 ^ 64 := by omega
  unfold dynlistLinkAfter
  simp only [resolve_node map total foot memT widthT, DynListNodeHeader.prev, DynListNodeHeader.next,
    DynListHeader.tail]
  refine does_store64 map total memA (by omega) (by omega) ?_
  refine does_load64 map total memT (v := 0) (by omega) (by omega) ?_ ?_
  · simp only [Nat.add_zero]
    rw [layout.load_store prev wordT.grow wordTptr, if_neg otherT.2, last]
  refine does_store64 map total memA (by omega) (by omega) ?_
  refine does_store64 map total memT (by omega) (by omega) ?_
  refine does_load64 map total memA (v := 0) (by omega) (by omega) ?_ ?_
  · simp only [Nat.add_zero]
    rw [layout.load_store wordT.grow next wordA, if_neg otherT.1.symm,
      layout.load_store next next (by omega), if_pos rfl]
  rw [if_pos (by decide)]
  refine does_store64 map total memH (by omega) (by omega) (does_ret ⟨rfl, rfl, ?_⟩)
  simp only [Nat.add_zero]
  have turn : frontCell 0 (hdr.ptr + 16) (nodes.map Alloc.ptr).reverse = t.ptr := by
    rw [order, List.map_append, List.reverse_append]
    rfl
  refine ⟨?_, ?_, ?_, ?_, ?_, ?_, ?_⟩
  · exact load_store_eight wordA
  · rw [layout.load_store wordTail.grow prev wordA, if_neg otherTail.2.symm,
      layout.load_store wordT.grow prev wordA, if_neg otherT.2.symm,
      layout.load_store next prev (by omega), if_neg (by omega),
      layout.load_store prev prev wordTptr, if_pos rfl, tail]
  · rw [layout.load_store wordTail.grow next wordA, if_neg otherTail.1.symm,
      layout.load_store wordT.grow next wordA, if_neg otherT.1.symm,
      layout.load_store next next (by omega), if_pos rfl]
  · rw [turn, layout.load_store wordTail.grow wordT.grow wordA, if_neg (by omega),
      layout.load_store wordT.grow wordT.grow wordA, if_pos rfl]
  · intro c word notTail notTurn
    have other := word.not_new layout
    rw [turn] at notTurn
    rw [layout.load_store wordTail.grow word.grow wordA, if_neg notTail,
      layout.load_store wordT.grow word.grow wordA, if_neg notTurn,
      layout.load_store next word.grow (by omega), if_neg other.1,
      layout.load_store prev word.grow wordTptr, if_neg other.2]
  · rw [layout.element_store wordTail.grow List.mem_cons_self, layout.element_store wordT.grow List.mem_cons_self,
      layout.element_store next List.mem_cons_self, layout.element_store prev List.mem_cons_self, bytes]
  · intro x mem
    have mem' := List.mem_cons_of_mem a mem
    rw [layout.element_store wordTail.grow mem', layout.element_store wordT.grow mem',
      layout.element_store next mem', layout.element_store prev mem']

/-- The last steps of dynlist_insert_node: the node is counted. -/
theorem does_enqueued (map : region.Mapped) (total : region.size = n) (stands : ListStands s hdr nodes μ)
    (layout : ListLayout s.elemSize hdr (a :: nodes)) (foot : Footprint n (listFoot hdr (a :: nodes))) {bs : List UInt8}
    (queued : Enqueued s.elemSize hdr a nodes bs μ μ') :
    Does n (listFoot hdr (a :: nodes)) μ' (do dynlistCount region (add64 region.base hdr.ptr); return 0)
      (fun rc L' μ' => (rc = -1 ∧ L' = listFoot hdr nodes ∧ ListStands s hdr nodes μ') ∨
        (rc = 0 ∧ ∃ a, L' = listFoot hdr (nodes ++ [a]) ∧
          ListStands { s with elems := s.elems ++ [bs] } hdr (nodes ++ [a]) μ')) := by
  have user := map.user
  have bounds := foot.bounds a (node_in hdr List.mem_cons_self)
  have count : s.elems.length ≤ n := stands.count_lt (foot.mono (by rw [← listFoot_cons]; exact Set.subset_insert _ _))
  have turn := stands.layout.turn_cell
  refine does_bind (does_count map total (header_in hdr (a :: nodes)) layout.size (k := s.elems.length) ?_ (by omega)) ?_
  · rw [queued.kept _ (headerWord _ _ (by omega)) (by omega) (Ne.symm turn.1), stands.length]
  · rintro _ L' μ'' ⟨rfl, rfl⟩
    exact does_ret (Or.inr ⟨rfl, a, (listFoot_rotate hdr a nodes).symm, stands.enqueue layout (by omega) queued (by omega)⟩)

/-- dynlist_insert_node after the tail, or into the empty list. -/
theorem does_insertNode (map : region.Mapped) (total : region.size = n) (large : 2728 ≤ n) (enough : n ≤ fuel)
    (stands : ListStands s hdr nodes μ) (small : s.elemSize + 128 ≤ 2 ^ 64) {after : Nat}
    (tail : after = load μ (hdr.ptr + 24) 8) (elem : Mem) :
    Does n (listFoot hdr nodes) μ (dynlistInsertNode fuel region (add64 region.base hdr.ptr) after elem)
      (fun rc L' μ' => (rc = -1 ∧ L' = listFoot hdr nodes ∧ ListStands s hdr nodes μ') ∨
        (rc = 0 ∧ ∃ a, L' = listFoot hdr (nodes ++ [a]) ∧
          ListStands { s with elems := s.elems ++ [loadBytes elem 0 s.elemSize] } hdr (nodes ++ [a]) μ')) := by
  have size := stands.layout.size
  have user := map.user
  unfold dynlistInsertNode
  refine does_newNode map total large enough stands small (does_ret (Or.inl ⟨rfl, rfl, stands⟩)) ?_
  intro a μ₁ tail₁ foot stands₁ layout
  have memA : a ∈ listFoot hdr (a :: nodes) := node_in hdr List.mem_cons_self
  have memH := header_in hdr (a :: nodes)
  have boundsA := foot.bounds a memA
  have apartA := layout.header_apart List.mem_cons_self
  have wide := layout.width a List.mem_cons_self
  have bytes : (loadBytes elem 0 s.elemSize).length = s.elemSize := loadBytes_length _ _ _
  simp only [DynListHeader.elemSize, DynListHeader.head, DynListHeader.tail, DynListNodeHeader.sizeof,
    DynListNodeHeader.next, DynListNodeHeader.prev, offsetPtrNull]
  refine does_store64 map total memA (by omega) (by omega) ?_
  refine does_store64 map total memA (by omega) (by omega) ?_
  refine does_load64 map total memH (v := s.elemSize) (by omega) (by omega) ?_ ?_
  · rw [load_store_apart (by omega), load_store_apart (by omega), stands₁.elemSize]
  refine does_bind (does_copyIn map total memA (by omega) (by omega)) ?_
  rintro _ L' μ₂ ⟨rfl, same⟩
  have new : NodeWritten s.elemSize a 0 0 (loadBytes elem 0 s.elemSize) μ₁ μ₂ := by
    rw [same]
    refine nodeWritten (fun x out => ?_) ?_ (load_store_eight (by omega)) bytes
    · rw [store_outside (by omega), store_outside (by omega)]
    · rw [load_store_apart (by omega)]
      exact load_store_eight (by omega)
  have stands₂ := stands₁.off layout new.off
  have tail₂ : after = load μ₂ (hdr.ptr + 24) 8 := by
    rw [tail, ← tail₁, new.off.load (by omega)]
  rcases stands₂.tail_cases with ⟨empty, noTail, noHead⟩ | ⟨before, t, order, isTail, last⟩
  · -- the first node
    rw [if_pos (by simp [tail₂, noTail])]
    refine does_store64 map total memH (by omega) (by omega) ?_
    refine does_store64 map total memH (by omega) (by omega) ?_
    subst empty
    exact does_enqueued map total stands₂ layout foot (new.enqueued_first layout noTail (by omega))
  · -- after the last node
    have boundsT := foot.bounds t (node_in hdr (List.mem_cons_of_mem a (by simp [order])))
    have present : offsetPtrIsNull after = false := by
      rw [tail₂, isTail]
      simp [offsetPtrIsNull]
      omega
    simp only [present, Bool.false_eq_true, if_false]
    rw [tail₂, isTail]
    refine does_bind (does_linkAfter map total stands₂ layout order isTail last new.bytes) ?_
    rintro linked L' μ₃ ⟨rfl, rfl, queued⟩
    simp only [if_true]
    exact does_enqueued map total stands₂ layout foot queued

/-- What a push leaves: everything as it was, or the node and the bytes in their places. -/
def pushed (s : ListState) (hdr : Alloc) (nodes : List Alloc) (place : Alloc → List Alloc) (elems : List (List UInt8))
    (rc : Int) (L' : Set Alloc) (μ' : Mem) : Prop :=
  (rc = -1 ∧ L' = listFoot hdr nodes ∧ ListStands s hdr nodes μ') ∨
    (rc = 0 ∧ ∃ a, L' = listFoot hdr (place a) ∧ ListStands { s with elems := elems } hdr (place a) μ')

theorem does_pushedBack (map : region.Mapped) (total : region.size = n) (large : 2728 ≤ n) (enough : n ≤ fuel)
    (stands : ListStands s hdr nodes μ) (small : s.elemSize + 128 ≤ 2 ^ 64) (elem : Mem) :
    Does n (listFoot hdr nodes) μ (dynlistPushBack fuel region s.handle elem)
      (pushed s hdr nodes (fun a => nodes ++ [a]) (s.elems ++ [loadBytes elem 0 s.elemSize])) := by
  have size := stands.layout.size
  refine does_foot fun foot => ?_
  unfold dynlistPushBack
  simp only [resolve_list map total foot stands]
  unfold dynlistLock
  refine does_containerLock ?_
  simp only [DynListHeader.tail]
  refine does_load64 map total (header_in hdr nodes) (by omega) (by omega) rfl ?_
  refine does_bind (does_insertNode map total large enough stands small rfl elem) ?_
  intro rc L' μ' holds
  exact does_containerUnlock (does_ret holds)

theorem does_pushBack (map : region.Mapped) (total : region.size = n) (large : 2728 ≤ n) (enough : n ≤ fuel)
    (stands : ListStands s hdr nodes μ) (width : 16 + s.elemSize ≤ n) (elem : Mem) :
    Does n (listFoot hdr nodes) μ (dynlistPushBack fuel region s.handle elem)
      (fun rc L' μ' => ∃ s', listNext (some s) (.pushBack s.handle elem) (.code rc) = some s' ∧
        listRepr n s' L' μ') := by
  have user := map.user
  refine does_weaken (does_pushedBack map total large enough stands (by omega) elem) ?_
  rintro rc L' μ' (⟨rfl, rfl, kept⟩ | ⟨rfl, a, rfl, grown⟩)
  · exact ⟨some s, rfl, width, hdr, nodes, kept, rfl⟩
  · exact ⟨_, rfl, width, hdr, _, grown, rfl⟩

/-- The first node, when there is one. -/
theorem ListStands.head_cases (stands : ListStands s hdr nodes μ) :
    (nodes = [] ∧ load μ (hdr.ptr + 16) 8 = 0 ∧ load μ (hdr.ptr + 24) 8 = 0) ∨
    ∃ h rest, nodes = h :: rest ∧ load μ (hdr.ptr + 16) 8 = h.ptr ∧ load μ (hdr.ptr + 24) 8 ≠ 0 := by
  have links := stands.links
  cases nodes with
  | nil => exact Or.inl ⟨rfl, links.forward, links.backward⟩
  | cons h rest =>
    refine Or.inr ⟨h, rest, rfl, links.forward.1, ?_⟩
    rcases stands.tail_cases with ⟨empty, _⟩ | ⟨before, t, order, tail, _⟩
    · exact absurd empty (by simp)
    · have mem : t.ptr ∈ (h :: rest).map Alloc.ptr := List.mem_map_of_mem (by simp [order])
      rw [tail]
      exact chain_nonzero links.forward _ mem

/-- dynlist_push_front on a list with a node. -/
theorem does_prepend (map : region.Mapped) (total : region.size = n) (large : 2728 ≤ n) (enough : n ≤ fuel)
    (stands : ListStands s hdr nodes μ) (bound : s.elemSize + 128 ≤ 2 ^ 64) {h : Alloc} {rest : List Alloc}
    (order : nodes = h :: rest) (elem : Mem) :
    Does n (listFoot hdr nodes) μ (dynlistPrepend fuel region (add64 region.base hdr.ptr) elem)
      (fun rc L' μ' => (rc = -1 ∧ L' = listFoot hdr nodes ∧ ListStands s hdr nodes μ') ∨
        (rc = 0 ∧ ∃ a, L' = listFoot hdr (a :: nodes) ∧
          ListStands { s with elems := loadBytes elem 0 s.elemSize :: s.elems } hdr (a :: nodes) μ')) := by
  have size := stands.layout.size
  have user := map.user
  unfold dynlistPrepend
  refine does_newNode map total large enough stands bound (does_containerUnlock (does_ret (Or.inl ⟨rfl, rfl, stands⟩))) ?_
  intro a μ₁ _ foot stands₁ layout
  have isNode' : h ∈ a :: nodes := by simp [order]
  have memA : a ∈ listFoot hdr (a :: nodes) := node_in hdr List.mem_cons_self
  have memF : h ∈ listFoot hdr (a :: nodes) := node_in hdr isNode'
  have memH := header_in hdr (a :: nodes)
  have boundsA := foot.bounds a memA
  have boundsF := foot.bounds h memF
  have wide := layout.width a List.mem_cons_self
  have widthF := layout.width h isNode'
  have apartA := layout.header_apart List.mem_cons_self
  have apartF := layout.header_apart isNode'
  have count : s.elems.length ≤ n := stands₁.count_lt (foot.mono (by rw [← listFoot_cons]; exact Set.subset_insert _ _))
  have bytes : (loadBytes elem 0 s.elemSize).length = s.elemSize := loadBytes_length _ _ _
  have head : load μ₁ (hdr.ptr + 16) 8 = h.ptr := by
    have links := stands₁.links
    rw [order] at links
    exact links.forward.1
  obtain ⟨lastPtr, isTail, present⟩ : ∃ t, load μ₁ (hdr.ptr + 24) 8 = t ∧ t ≠ 0 := by
    rcases stands₁.head_cases with ⟨empty, _⟩ | ⟨_, _, _, _, present⟩
    · exact absurd (order.symm.trans empty) (by simp)
    · exact ⟨_, rfl, present⟩
  simp only [DynListHeader.elemSize, DynListHeader.head, DynListHeader.tail, DynListNodeHeader.sizeof,
    DynListNodeHeader.next, DynListNodeHeader.prev, offsetPtrNull]
  refine does_store64 map total memA (by omega) (by omega) ?_
  refine does_load64 map total memH (v := h.ptr) (by omega) (by omega) ?_ ?_
  · rw [load_store_apart (by omega), head]
  refine does_store64 map total memA (by omega) (by omega) ?_
  refine does_load64 map total memH (v := s.elemSize) (by omega) (by omega) ?_ ?_
  · rw [load_store_apart (by omega), load_store_apart (by omega), stands₁.elemSize]
  refine does_bind (does_copyIn map total memA (by omega) (by omega)) ?_
  rintro _ L' μ₂ ⟨rfl, same⟩
  -- the new node is written, the list is as before
  have new : NodeWritten s.elemSize a h.ptr 0 (loadBytes elem 0 s.elemSize) μ₁ μ₂ := by
    rw [same]
    refine nodeWritten (fun x out => ?_) (load_store_eight (by omega)) ?_ bytes
    · rw [store_outside (by omega), store_outside (by omega)]
    · rw [load_store_apart (by omega)]
      exact load_store_eight (by omega)
  have stands₂ := stands₁.off layout new.off
  simp only [resolve_node map total foot memF widthF]
  refine does_store64 map total memF (by omega) (by omega) ?_
  refine does_store64 map total memH (by omega) (by omega) ?_
  refine does_load64 map total memH (v := lastPtr) (by omega) (by omega) ?_ ?_
  · rw [load_store_apart (by omega), load_store_apart (by omega), new.off.load (by omega), isTail]
  rw [if_neg (by simpa [offsetPtrIsNull] using present)]
  refine does_bind (does_count map total memH size (k := s.elems.length) ?_ (by omega)) ?_
  · rw [load_store_apart (by omega), load_store_apart (by omega), stands₂.length]
  rintro _ L' μ₃ ⟨rfl, rfl⟩
  refine does_containerUnlock (does_ret (Or.inr ⟨rfl, a, rfl, ?_⟩))
  exact stands₂.prepended layout order new (by omega) (by omega) (by omega)

theorem does_pushedFront (map : region.Mapped) (total : region.size = n) (large : 2728 ≤ n) (enough : n ≤ fuel)
    (stands : ListStands s hdr nodes μ) (small : s.elemSize + 128 ≤ 2 ^ 64) (elem : Mem) :
    Does n (listFoot hdr nodes) μ (dynlistPushFront fuel region s.handle elem)
      (pushed s hdr nodes (fun a => a :: nodes) (loadBytes elem 0 s.elemSize :: s.elems)) := by
  have size := stands.layout.size
  refine does_foot fun foot => ?_
  unfold dynlistPushFront
  simp only [resolve_list map total foot stands]
  unfold dynlistLock
  refine does_containerLock ?_
  simp only [DynListHeader.head]
  rcases stands.head_cases with ⟨empty, noHead, noTail⟩ | ⟨h, rest, order, head, _⟩
  · refine does_load64 map total (header_in hdr nodes) (by omega) (by omega) noHead ?_
    rw [if_pos (by decide)]
    refine does_bind (does_insertNode map total large enough stands small noTail.symm elem) ?_
    have none : s.elems = [] := by
      rw [← stands.elements, empty]
      rfl
    rintro rc L' μ' (⟨rfl, rfl, kept⟩ | ⟨rfl, a, rfl, grown⟩)
    · exact does_containerUnlock (does_ret (Or.inl ⟨rfl, rfl, kept⟩))
    · refine does_containerUnlock (does_ret (Or.inr ⟨rfl, a, ?_, ?_⟩))
      · rw [empty]
        rfl
      · rw [none, empty] at grown ⊢
        exact grown
  · have boundsF := foot.bounds h (node_in hdr (by simp [order]))
    refine does_load64 map total (header_in hdr nodes) (by omega) (by omega) head ?_
    rw [if_neg (by simp [offsetPtrIsNull]; omega)]
    exact does_prepend map total large enough stands small order elem

theorem does_pushFront (map : region.Mapped) (total : region.size = n) (large : 2728 ≤ n) (enough : n ≤ fuel)
    (stands : ListStands s hdr nodes μ) (width : 16 + s.elemSize ≤ n) (elem : Mem) :
    Does n (listFoot hdr nodes) μ (dynlistPushFront fuel region s.handle elem)
      (fun rc L' μ' => ∃ s', listNext (some s) (.pushFront s.handle elem) (.code rc) = some s' ∧
        listRepr n s' L' μ') := by
  have user := map.user
  refine does_weaken (does_pushedFront map total large enough stands (by omega) elem) ?_
  rintro rc L' μ' (⟨rfl, rfl, kept⟩ | ⟨rfl, a, rfl, grown⟩)
  · exact ⟨some s, rfl, width, hdr, nodes, kept, rfl⟩
  · exact ⟨_, rfl, width, hdr, _, grown, rfl⟩

/-- The seek follows next and stops at the node with the given index. -/
theorem does_seek (map : region.Mapped) (total : region.size = n) {e : Nat} {cells : List Alloc} {c : Nat}
    (chain : Chain (fun c => load μ c 8) 0 c (cells.map Alloc.ptr)) (sub : ∀ a ∈ cells, a ∈ L)
    (width : ∀ a ∈ cells, a.size = 16 + e) {left : Nat} (inside : left < cells.length) :
    Does n L μ (dynlistSeek region left (load μ c 8))
      (fun cur L' μ' => cur = some cells[left].ptr ∧ L' = L ∧ μ' = μ) := by
  induction left generalizing cells c with
  | zero =>
    cases cells with
    | nil => simp at inside
    | cons x xs =>
      rw [show load μ c 8 = x.ptr from chain.1]
      exact does_ret ⟨rfl, rfl, rfl⟩
  | succ left ih =>
    cases cells with
    | nil => simp at inside
    | cons x xs =>
      have mem := sub x List.mem_cons_self
      have size := width x List.mem_cons_self
      refine does_foot fun foot => ?_
      rw [show load μ c 8 = x.ptr from chain.1]
      simp only [dynlistSeek, resolve_node map total foot mem size, DynListNodeHeader.next]
      refine does_load64 map total mem (by omega) (by omega) rfl ?_
      exact ih chain.2.2 (fun a ma => sub a (List.mem_cons_of_mem x ma))
        (fun a ma => width a (List.mem_cons_of_mem x ma)) (by simpa using inside)

theorem does_listGet (map : region.Mapped) (total : region.size = n) (stands : ListStands s hdr nodes μ) (index : Nat) :
    Does n (listFoot hdr nodes) μ (dynlistGet region s.handle index)
      (fun bytes L' μ' => bytes = s.elems[index]? ∧ L' = listFoot hdr nodes ∧ μ' = μ) := by
  have size := stands.layout.size
  have header := header_in hdr nodes
  refine does_foot fun foot => ?_
  unfold dynlistGet
  simp only [resolve_list map total foot stands]
  unfold dynlistLock
  refine does_containerLock ?_
  simp only [DynListHeader.length, DynListHeader.head, DynListHeader.elemSize, DynListNodeHeader.sizeof]
  refine does_load64 map total header (by omega) (by omega) stands.length ?_
  by_cases beyond : index ≥ s.elems.length
  · rw [if_pos beyond]
    exact does_containerUnlock (does_ret ⟨(List.getElem?_eq_none beyond).symm, rfl, rfl⟩)
  · rw [if_neg beyond]
    have count : nodes.length = s.elems.length := by rw [← stands.elements, List.length_map]
    have inside : index < nodes.length := by omega
    refine does_load64 map total header (by omega) (by omega) rfl ?_
    refine does_bind (does_seek map total stands.links.forward (fun a mem => node_in hdr mem)
      stands.layout.width inside) ?_
    rintro cur L' μ' ⟨rfl, rfl, rfl⟩
    have mem := node_in hdr (List.getElem_mem inside)
    have width := stands.layout.width _ (List.getElem_mem inside)
    simp only [Option.bind_some, resolve_node map total foot mem width]
    refine does_load64 map total header (by omega) (by omega) stands.elemSize ?_
    refine does_copyOut map total mem (by omega) (by omega) (does_containerUnlock (does_ret ⟨?_, rfl, rfl⟩))
    rw [← stands.elements, List.getElem?_map, List.getElem?_eq_getElem inside]
    rfl

theorem does_listLength (map : region.Mapped) (total : region.size = n) (stands : ListStands s hdr nodes μ) :
    Does n (listFoot hdr nodes) μ (dynlistLength region s.handle)
      (fun len L' μ' => len = s.elems.length ∧ L' = listFoot hdr nodes ∧ μ' = μ) := by
  have size := stands.layout.size
  refine does_foot fun foot => ?_
  unfold dynlistLength
  simp only [resolve_list map total foot stands]
  unfold dynlistLock
  refine does_containerLock ?_
  simp only [DynListHeader.length]
  refine does_load64 map total (header_in hdr nodes) (by omega) (by omega) stands.length ?_
  exact does_containerUnlock (does_ret ⟨rfl, rfl, rfl⟩)

/-- No list, or one without nodes. -/
def listMade (elemSize : Nat) (L : Set Alloc) (h : Nat) (L' : Set Alloc) (μ' : Mem) : Prop :=
  (h = 0 ∧ L' = L) ∨ (0 < elemSize ∧ ∃ hdr, hdr ∉ L ∧ h = hdr.ptr ∧ L' = insert hdr L ∧ hdr.align = 16 ∧ 0 < hdr.ptr ∧
    ListStands ⟨h, elemSize, []⟩ hdr [] μ')

theorem does_listMake (map : region.Mapped) (total : region.size = n) (large : 2728 ≤ n) (enough : n ≤ fuel)
    {elemSize : Nat} (bound : elemSize < 2 ^ 64) :
    Does n L μ (dynlistCreate fuel region elemSize) (listMade elemSize L) := by
  unfold dynlistCreate
  by_cases zero : elemSize = 0
  · rw [if_pos zero]
    exact does_ret (Or.inl ⟨rfl, rfl⟩)
  rw [if_neg zero]
  refine does_header map total large enough (by simp) (fun _ => does_ret (Or.inl ⟨rfl, rfl⟩)) ?_
  intro hdr μ' fresh size align low high resolved
  simp only [DynListHeader.sizeof] at size
  have header : hdr ∈ insert hdr L := Set.mem_insert _ _
  simp only [dynlistResolveHeader, resolved, DynListHeader.length, DynListHeader.elemSize, DynListHeader.head,
    DynListHeader.tail, offsetPtrNull]
  refine does_store64 map total header (by omega) (by omega) ?_
  refine does_store64 map total header (by omega) (by omega) ?_
  refine does_store64 map total header (by omega) (by omega) ?_
  refine does_store64 map total header (by omega) (by omega) ?_
  refine does_containerInitLock (does_ret (Or.inr ⟨by omega, hdr, fresh, rfl, rfl, align, by omega, ?_⟩))
  rw [Nat.add_zero]
  refine ⟨rfl, by simp only; omega, ⟨by omega, by simp, by simp, by simp⟩, ?_, ?_, ⟨?_, ?_⟩, rfl⟩
  · rw [load_store_apart (by omega), load_store_apart (by omega), load_store_apart (by omega)]
    exact load_store_eight (by simp)
  · rw [load_store_apart (by omega), load_store_apart (by omega)]
    exact load_store_eight (by omega)
  · exact (load_store_apart (by omega)).trans (load_store_eight (by omega))
  · exact load_store_eight (by omega)

theorem does_listCreate (map : region.Mapped) (total : region.size = n) (large : 2728 ≤ n) (enough : n ≤ fuel)
    {elemSize : Nat} (bound : 16 + elemSize ≤ n) :
    Does n ∅ μ (dynlistCreate fuel region elemSize)
      (fun h L' μ' => ∃ s', listNext none (.create elemSize) (.handle h) = some s' ∧ listRepr n s' L' μ') := by
  have user := map.user
  refine does_weaken (does_listMake map total large enough (by omega)) ?_
  rintro h L' μ' (⟨rfl, rfl⟩ | ⟨positive, hdr, _, rfl, rfl, _, nonzero, stands⟩)
  · exact ⟨none, rfl, rfl⟩
  · refine ⟨some ⟨hdr.ptr, elemSize, []⟩, ?_, bound, hdr, [], stands, ?_⟩
    · simp only [listNext]
      rw [if_neg (by omega), if_neg (by omega)]
    · simp [listFoot]

/-- Every call of the list follows its description. -/
theorem list_refines (map : region.Mapped) (total : region.size = n) (large : 2728 ≤ n) (enough : n ≤ fuel) :
    Refines n region (listComponent fuel n) (listRepr n) := by
  intro s op L μ enabled repr
  cases s with
  | none =>
    subst repr
    cases op with
    | create elemSize =>
      exact does_bind (does_listCreate map total large enough enabled) fun h L' μ' holds => does_ret holds
    | pushBack => exact False.elim enabled
    | pushFront => exact False.elim enabled
    | get => exact False.elim enabled
    | length => exact False.elim enabled
  | some s =>
    obtain ⟨width, hdr, nodes, stands, rfl⟩ := repr
    cases op with
    | create => exact False.elim enabled
    | pushBack list elem =>
      have same : list = s.handle := enabled
      subst same
      exact does_bind (does_pushBack map total large enough stands width elem) fun rc L' μ' holds => does_ret holds
    | pushFront list elem =>
      have same : list = s.handle := enabled
      subst same
      exact does_bind (does_pushFront map total large enough stands width elem) fun rc L' μ' holds => does_ret holds
    | get list index =>
      have same : list = s.handle := enabled
      subst same
      refine does_bind (does_listGet map total stands index) ?_
      rintro bytes L' μ' ⟨rfl, rfl, rfl⟩
      exact does_ret ⟨some s, by simp [listComponent, listNext], width, hdr, nodes, stands, rfl⟩
    | length list =>
      have same : list = s.handle := enabled
      subst same
      refine does_bind (does_listLength map total stands) ?_
      rintro len L' μ' ⟨rfl, rfl, rfl⟩
      exact does_ret ⟨some s, by simp [listComponent, listNext], width, hdr, nodes, stands, rfl⟩

theorem list_local {s : Option ListState} {L : Set Alloc} {μ m : Mem} (repr : listRepr n s L μ)
    (same : ∀ a ∈ L, SameOn μ m a.ptr (a.ptr + a.size)) : listRepr n s L m := by
  cases s with
  | none => exact repr
  | some s =>
    obtain ⟨width, hdr, nodes, stands, rfl⟩ := repr
    exact ⟨width, hdr, nodes, stands.congr same, rfl⟩

end Calls

/-- The list among other users of a heap that allocator_init has laid out: its history is
    one of a double-ended list, and between its calls both chains visit the nodes, live
    allocations of its own, in opposite order. -/
theorem dynlist_runs_refine {S : Type} {n fuel : Nat} {regions : Nat → ShmRegion} {before m : Mem}
    {handle : Sys → S → Int × S} {env env' : S} (creator : Nat)
    {st : State Sys (UserResult ListResult) (UserView ListOp ListResult) (UserRequest ListOp ListResult)}
    (mapped : ∀ p, (regions p).Mapped) (sizes : ∀ p, (regions p).size = n) (enough : n ≤ fuel)
    (init : run handle (allocatorInit (regions creator)) before env = some (.ok, m, env'))
    (runs : Reachable (userRules (listComponent fuel n) none n regions) (userOrigin m) st) :
    ∃ s, (listComponent fuel n).follow none st.client.history = some s ∧
      (st.client.busy = false → ∃ L V, listRepr n s L st.mem ∧ Resting n st L V) := by
  have fresh := (run_allocatorInit (mapped creator) (sizes creator) init).inv
  have room := fresh.room
  unfold heapBase at room
  exact component_runs (fun p => list_refines (mapped p) (sizes p) (by omega) enough) mapped sizes fresh
    (show listRepr n none ∅ m from rfl) (fun _ _ _ _ repr same => list_local repr same) runs

/-- One list of one-byte elements in the small region. It is pushed to at both ends, with an
    allocation of another process in between, and its second element is read. -/
theorem dynlist_runs_refine_small :
    ∃ st L V, Reachable (userRules (listComponent 4096 4096) none 4096 fun _ => smallRegion)
        (userOrigin initialised) st ∧
      st.client.history = [(.create 1, some (.handle 2784)), (.pushBack 2784 fun _ => 7, some (.code 0)),
        (.pushFront 2784 fun _ => 8, some (.code 0)), (.get 2784 1, some (.element (some [7])))] ∧
      st.client.live = {(3120, 100)} ∧ listRepr 4096 (some ⟨2784, 1, [[8], [7]]⟩) L st.mem ∧ Resting 4096 st L V := by
  have served : ((exec (dynlistCreate 4096 smallRegion 1) initialised).bind fun one =>
      (exec (dynlistPushBack 4096 smallRegion 2784 fun _ => 7) one.2).bind fun two =>
        (exec (allocatorAlloc 8 smallRegion 100 16) two.2).bind fun other =>
          (exec (dynlistPushFront 4096 smallRegion 2784 fun _ => 8) other.2).bind fun three =>
            (exec (dynlistGet smallRegion 2784 1) three.2).map fun four =>
              ((one.1, two.1), other.1, three.1, four.1)) =
      some ((2784, 0), .ok (add64 smallRegion.base 3120), 0, some [7]) := by decide +kernel
  have init := initialised_run
  generalize initialised = m at served init ⊢
  obtain ⟨⟨one, m₁⟩, run₁, served⟩ := Option.bind_eq_some_iff.mp served
  obtain ⟨⟨two, m₂⟩, run₂, served⟩ := Option.bind_eq_some_iff.mp served
  obtain ⟨⟨other, m₃⟩, run₃, served⟩ := Option.bind_eq_some_iff.mp served
  obtain ⟨⟨three, m₄⟩, run₄, served⟩ := Option.bind_eq_some_iff.mp served
  obtain ⟨⟨four, m₅⟩, run₅, same⟩ := Option.map_eq_some_iff.mp served
  obtain ⟨⟨rfl, rfl⟩, rfl, rfl, rfl⟩ : (one = 2784 ∧ two = 0) ∧ other = .ok _ ∧ three = 0 ∧ four = some [7] := by
    simpa using same
  have origin : Reachable (userRules (listComponent 4096 4096) none 4096 fun _ => smallRegion) (userOrigin m)
    (userOrigin m) := .refl
  have created := reachable_container origin (p := 0) (.create 1) rfl rfl (by decide : 16 + 1 ≤ 4096)
    (exec_bind_of_some run₁ _)
  have pushed := reachable_container created (p := 0) (.pushBack 2784 fun _ => 7) rfl rfl rfl
    (exec_bind_of_some run₂ _)
  have served : exec (heapCode smallRegion (.alloc 8 100 16)) m₂ = some (.allocated (.ok _), m₃) :=
    exec_bind_of_some run₃ _
  have shared := reachable_other pushed (p := 1) rfl (.alloc 8 (by decide) (by decide)) served (.allocated 8 100 16 _)
  rw [show smallRegion.offsetOf (add64 smallRegion.base 3120) = 3120 by decide] at shared
  have again := reachable_container shared (p := 0) (.pushFront 2784 fun _ => 8) rfl rfl rfl
    (exec_bind_of_some run₄ _)
  have done := reachable_container again (p := 0) (.get 2784 1) rfl rfl rfl (exec_bind_of_some run₅ _)
  obtain ⟨s, follows, rest⟩ := dynlist_runs_refine 0 (fun _ => smallRegion_mapped) (fun _ => rfl)
    (Nat.le_refl _) init done
  obtain ⟨L, V, repr, resting⟩ := rest rfl
  rw [← Option.some.inj follows] at repr
  exact ⟨_, L, V, done, rfl, by simp, repr, resting⟩

end OffsetStore
