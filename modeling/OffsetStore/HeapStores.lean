import OffsetStore.Heap

/- The stores of the allocator, grouped by what they do to the view: writing the
   header of the rest of a split block, moving the link and shrinking the block,
   unlinking a whole block, marking a block live, and releasing it. Every prefix of
   a group is covered, so that a cut between two stores has a view as well. -/
namespace OffsetStore
open ByteMemory Program Prog Words Tiling CellChain

def restStores (start size next s : Nat) : List Store :=
  [(start, 8, size), (start + 8, 8, next), (start + 16, 4, 1), (start + 20, 4, s), (start + 24, 4, 0)]

def moveLinkStores (cell x size : Nat) : List Store := [(cell, 8, x + size), (x, 8, size)]

def markStores (x s payload : Nat) : List Store :=
  [(x + 16, 4, 0), (x + 8, 8, 0), (x + 20, 4, s), (x + 24, 4, payload % 2 ^ 32),
    (x + payload - 8, 8, x)]

def releaseStores (x head : Nat) : List Store := [(x + 16, 4, 1), (x + 24, 4, 0), (x + 8, 8, head)]

theorem applyStores_off {m : Mem} {ws : List Store} {lo hi : Nat}
    (inside : ∀ w ∈ ws, lo ≤ w.1 ∧ w.1 + w.2.1 ≤ hi) : SameOff m (applyStores m ws) lo hi := by
  intro a out
  apply applyStores_outside
  intro w mem
  have := inside w mem
  omega

theorem restStores_inside {start size next s : Nat} (k : Nat) :
    ∀ w ∈ (restStores start size next s).take k, start ≤ w.1 ∧ w.1 + w.2.1 ≤ start + 32 := by
  intro w mem
  have whole := List.mem_of_mem_take mem
  simp only [restStores, List.mem_cons, List.not_mem_nil, or_false] at whole
  rcases whole with rfl | rfl | rfl | rfl | rfl <;> simp

theorem restStores_repr {m : Mem} {start size next s : Nat} (word : size < 2 ^ 64)
    (shard : s < 4) (positive : 0 < size) :
    BlockRepr (applyStores m (restStores start size next s)) s ⟨start, size, .free⟩ := by
  refine ⟨?_, ?_, ?_, ?_, ?_⟩
  all_goals simp (disch := omega) only [restStores, applyStores_cons, applyStores_nil,
    load_store_apart, load_store_mod]
  all_goals omega

/-- A store that keeps a leaked block a leaked block. -/
def Harmless (x size s : Nat) (w : Store) : Prop :=
  (∃ f, f ≤ 1 ∧ w = (x + 16, 4, f)) ∨ (∃ next, w = (x + 8, 8, next)) ∨ w = (x + 20, 4, s) ∨
    (∃ p, p < size ∧ w = (x + 24, 4, p)) ∨ (x + 32 ≤ w.1 ∧ w.1 + w.2.1 ≤ x + size)

theorem Harmless.inside {x size s : Nat} {w : Store} (h : Harmless x size s w)
    (large : 56 ≤ size) : x ≤ w.1 ∧ w.1 + w.2.1 ≤ x + size := by
  rcases h with ⟨f, _, rfl⟩ | ⟨next, rfl⟩ | rfl | ⟨p, _, rfl⟩ | ⟨left, right⟩
  · exact ⟨by simp only; omega, by simp only; omega⟩
  · exact ⟨by simp only; omega, by simp only; omega⟩
  · exact ⟨by simp only; omega, by simp only; omega⟩
  · exact ⟨by simp only; omega, by simp only; omega⟩
  · exact ⟨by omega, right⟩

theorem markStores_harmless {x size s payload : Nat} (low : 40 ≤ payload) (high : payload < size) :
    ∀ w ∈ markStores x s payload, Harmless x size s w := by
  intro w mem
  simp only [markStores, List.mem_cons, List.not_mem_nil, or_false] at mem
  rcases mem with rfl | rfl | rfl | rfl | rfl
  · exact Or.inl ⟨0, by omega, rfl⟩
  · exact Or.inr (Or.inl ⟨0, rfl⟩)
  · exact Or.inr (Or.inr (Or.inl rfl))
  · exact Or.inr (Or.inr (Or.inr (Or.inl ⟨_, Nat.lt_of_le_of_lt (Nat.mod_le _ _) high, rfl⟩)))
  · exact Or.inr (Or.inr (Or.inr (Or.inr ⟨by simp only; omega, by simp only; omega⟩)))

theorem releaseStores_harmless {x size s : Nat} (head : Nat) (large : 56 ≤ size) :
    ∀ w ∈ releaseStores x head, Harmless x size s w := by
  intro w mem
  simp only [releaseStores, List.mem_cons, List.not_mem_nil, or_false] at mem
  rcases mem with rfl | rfl | rfl
  · exact Or.inl ⟨1, by omega, rfl⟩
  · exact Or.inr (Or.inr (Or.inr (Or.inl ⟨0, by omega, rfl⟩)))
  · exact Or.inr (Or.inl ⟨head, rfl⟩)

theorem BlockRepr.leaked_store {m : Mem} {x size s : Nat} {w : Store}
    (repr : BlockRepr m s ⟨x, size, .leaked⟩) (shard : s < 4) (harmless : Harmless x size s w) :
    BlockRepr (store m w.1 w.2.1 w.2.2) s ⟨x, size, .leaked⟩ := by
  have ⟨sizeWord, shardWord, offsetWord, flagsWord⟩ := repr
  simp only [UseRepr] at sizeWord shardWord offsetWord flagsWord
  rcases harmless with ⟨f, bit, rfl⟩ | ⟨next, rfl⟩ | rfl | ⟨p, small, rfl⟩ | ⟨left, right⟩
  · refine ⟨?_, ?_, ?_, ?_⟩ <;> simp (disch := omega) only [UseRepr, load_store_apart, load_store_mod]
    all_goals omega
  · refine ⟨?_, ?_, ?_, ?_⟩ <;> simp (disch := omega) only [UseRepr, load_store_apart]
    all_goals omega
  · refine ⟨?_, ?_, ?_, ?_⟩ <;> simp (disch := omega) only [UseRepr, load_store_apart, load_store_mod]
    all_goals omega
  · refine ⟨?_, ?_, ?_, ?_⟩ <;> simp (disch := omega) only [UseRepr, load_store_apart, load_store_mod]
    · exact sizeWord
    · exact shardWord
    · exact Nat.lt_of_le_of_lt (Nat.mod_le _ _) small
    · exact flagsWord
  · refine ⟨?_, ?_, ?_, ?_⟩ <;> simp (disch := omega) only [UseRepr, load_store_apart]
    all_goals omega

theorem BlockRepr.leaked_stores {m : Mem} {x size s : Nat} {ws : List Store}
    (repr : BlockRepr m s ⟨x, size, .leaked⟩) (shard : s < 4)
    (harmless : ∀ w ∈ ws, Harmless x size s w) :
    BlockRepr (applyStores m ws) s ⟨x, size, .leaked⟩ := by
  induction ws generalizing m with
  | nil => exact repr
  | cons w ws ih =>
    have first := repr.leaked_store shard (harmless w (by simp))
    exact ih first (fun w mem => harmless w (List.mem_cons_of_mem _ mem))

namespace ShardInv
variable {m m' : Mem} {lo hi s : Nat} {v : ShardView} {bs cs : List Block} {b : Block}

/-- The body of a free block belongs to nobody. -/
theorem scribble (inv : ShardInv m lo hi s v) (here : v.blocks = bs ++ b :: cs)
    (free : b.use = .free) (same : SameOff m m' (b.start + 32) (b.start + b.size)) :
    ShardInv m' lo hi s v := by
  have mb : b ∈ v.blocks := by simp [here]
  have wide : SameOff m m' b.start (b.start + b.size) := fun a out => same a (by omega)
  have repr : BlockRepr m' s b := by
    apply (inv.repr b mb).congr (same.on (by omega)) (same.on (by omega))
    intro a kind
    rw [free] at kind
    exact absurd kind (by simp)
  have updated := inv.update here rfl rfl Iff.rfl wide (fun _ => same.load (by omega)) repr
  rw [← here] at updated
  exact updated

/-- Stores inside a leaked block that keep the words of its header plausible. -/
theorem leaked_stores (inv : ShardInv m lo hi s v) (here : v.blocks = bs ++ b :: cs)
    (leaked : b.use = .leaked) (shard : s < 4) {ws : List Store}
    (harmless : ∀ w ∈ ws, Harmless b.start b.size s w) :
    ShardInv (applyStores m ws) lo hi s v := by
  have mb : b ∈ v.blocks := by simp [here]
  have room := inv.large b mb
  have wide : SameOff m (applyStores m ws) b.start (b.start + b.size) := by
    apply applyStores_off
    intro w mem
    exact (harmless w mem).inside room
  have repr := inv.repr b mb
  have shape : b = ⟨b.start, b.size, .leaked⟩ := by
    rw [← leaked]
  rw [shape] at repr
  have after := repr.leaked_stores shard harmless
  rw [← shape] at after
  have updated := inv.update here rfl rfl Iff.rfl wide (fun free => by simp [leaked] at free) after
  rw [← here] at updated
  exact updated

theorem mark_live (inv : ShardInv m lo hi s v) (here : v.blocks = bs ++ b :: cs)
    (leaked : b.use = .leaked) {a : Alloc} (fits : a.InBlock s b.start b.size) (shard : s < 4)
    (small : b.start < 2 ^ 64) :
    ShardInv (applyStores m (markStores b.start s (a.ptr - b.start))) lo hi s
      ⟨bs ++ { b with use := .live a } :: cs, v.free⟩ := by
  have mb : b ∈ v.blocks := by simp [here]
  have size := (inv.repr b mb).size
  have low := fits.ptr_ge
  have high := fits.ptr_le
  have positive := fits.positive
  have wide : SameOff m (applyStores m (markStores b.start s (a.ptr - b.start))) b.start
      (b.start + b.size) := by
    apply applyStores_off
    intro w mem
    exact (markStores_harmless (by omega) (by omega) w mem).inside (inv.large b mb)
  have bound : (a.ptr - b.start) % 2 ^ 32 < b.size :=
    Nat.lt_of_le_of_lt (Nat.mod_le _ _) (by omega)
  refine inv.update here rfl rfl (by simp [leaked]) wide (fun free => by simp [leaked] at free) ?_
  have place : b.start + (a.ptr - b.start) - 8 = a.ptr - 8 := by omega
  refine ⟨?_, ?_, ?_, ?_, fits, ?_, ?_⟩
  all_goals simp (disch := omega) only [markStores, place, applyStores_cons, applyStores_nil,
    load_store_apart, load_store_mod]
  all_goals omega

/-- A block on its way to the free list counts as leaked until it is pushed. -/
theorem retire (inv : ShardInv m lo hi s v) (here : v.blocks = bs ++ b :: cs) {a : Alloc}
    (live : b.use = .live a) : ShardInv m lo hi s ⟨bs ++ { b with use := .leaked } :: cs, v.free⟩ := by
  have mb : b ∈ v.blocks := by simp [here]
  have repr := inv.repr b mb
  have use := repr.use
  unfold UseRepr at use
  rw [live] at use
  have same : SameOff m m b.start (b.start + b.size) := fun _ _ => rfl
  refine inv.update here rfl rfl (by simp [live]) same (fun _ => rfl) ?_
  exact ⟨repr.size, repr.shard, repr.payloadOffset, Or.inl use.1⟩

end ShardInv

end OffsetStore
