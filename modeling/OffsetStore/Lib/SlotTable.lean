import Mathlib

/- Tables with a fixed number of slots, each free or holding one key with its value,
   and the finite map such a table stands for. -/
namespace SlotTable
variable {K V : Type} {n : Nat} {slots : Nat → Option (K × V)} {map : K → Option V}

abbrev Slots (K V : Type) := Nat → Option (K × V)

/-- The first n slots hold the map: every entry once, and nothing else. -/
structure Represents (n : Nat) (slots : Slots K V) (map : K → Option V) : Prop where
  sound : ∀ i k v, i < n → slots i = some (k, v) → map k = some v
  complete : ∀ k v, map k = some v → ∃ i, i < n ∧ slots i = some (k, v)
  single : ∀ i j k v w, i < n → j < n → slots i = some (k, v) → slots j = some (k, w) → i = j

def keys (map : K → Option V) : Set K := {k | map k ≠ none}

theorem represents_empty : Represents n (fun _ => none : Slots K V) fun _ => none :=
  ⟨by simp, by simp, by simp⟩

theorem Represents.absent (repr : Represents n slots map) {k : K}
    (nowhere : ∀ i v, i < n → slots i ≠ some (k, v)) : map k = none := by
  cases value : map k with
  | none => rfl
  | some v =>
    obtain ⟨i, inside, slot⟩ := repr.complete k v value
    exact absurd slot (nowhere i v inside)

section Update
variable [DecidableEq K] {i : Nat} {k : K} {v : V}

/-- Storing a key in its own slot, or an absent key in a free slot. -/
theorem Represents.put (repr : Represents n slots map) (inside : i < n)
    (own : (∃ w, slots i = some (k, w)) ∨ (slots i = none ∧ map k = none)) :
    Represents n (Function.update slots i (some (k, v))) (Function.update map k (some v)) := by
  have here : ∀ j w, j < n → slots j = some (k, w) → j = i := by
    intro j w small slot
    rcases own with ⟨u, mine⟩ | ⟨_, absent⟩
    · exact repr.single j i k w u small inside slot mine
    · rw [repr.sound j k w small slot] at absent
      cases absent
  have before : ∀ l w, l ≠ k → slots i ≠ some (l, w) := by
    intro l w other slot
    rcases own with ⟨u, mine⟩ | ⟨free, _⟩
    · rw [mine] at slot
      exact other (Prod.mk.inj (Option.some.inj slot)).1.symm
    · rw [free] at slot
      cases slot
  refine ⟨?_, ?_, ?_⟩
  · intro j l w small slot
    by_cases same : j = i
    · rw [same, Function.update_self] at slot
      obtain ⟨rfl, rfl⟩ := Prod.mk.inj (Option.some.inj slot)
      exact Function.update_self ..
    · rw [Function.update_of_ne same] at slot
      have other : l ≠ k := fun eq => same (here j w small (eq ▸ slot))
      rw [Function.update_of_ne other]
      exact repr.sound j l w small slot
  · intro l w value
    by_cases same : l = k
    · rw [same, Function.update_self] at value
      rw [same, ← Option.some.inj value]
      exact ⟨i, inside, Function.update_self ..⟩
    · rw [Function.update_of_ne same] at value
      obtain ⟨j, small, slot⟩ := repr.complete l w value
      have other : j ≠ i := fun eq => before l w same (eq ▸ slot)
      exact ⟨j, small, by rw [Function.update_of_ne other]; exact slot⟩
  · intro a b l w u ha hb sa sb
    have fresh : ∀ c x, c < n → c ≠ i → slots c = some (l, x) → l ≠ k := by
      intro c x small other slot eq
      exact other (here c x small (eq ▸ slot))
    by_cases ia : a = i <;> by_cases ib : b = i
    · rw [ia, ib]
    · rw [ia, Function.update_self] at sa
      rw [Function.update_of_ne ib] at sb
      exact absurd (Prod.mk.inj (Option.some.inj sa)).1.symm (fresh b u hb ib sb)
    · rw [ib, Function.update_self] at sb
      rw [Function.update_of_ne ia] at sa
      exact absurd (Prod.mk.inj (Option.some.inj sb)).1.symm (fresh a w ha ia sa)
    · rw [Function.update_of_ne ia] at sa
      rw [Function.update_of_ne ib] at sb
      exact repr.single a b l w u ha hb sa sb

theorem Represents.remove (repr : Represents n slots map) (inside : i < n) (slot : slots i = some (k, v)) :
    Represents n (Function.update slots i none) (Function.update map k none) := by
  refine ⟨?_, ?_, ?_⟩
  · intro j l w small held
    by_cases same : j = i
    · rw [same, Function.update_self] at held
      cases held
    · rw [Function.update_of_ne same] at held
      have other : l ≠ k := by
        rintro rfl
        exact same (repr.single j i l w v small inside held slot)
      rw [Function.update_of_ne other]
      exact repr.sound j l w small held
  · intro l w value
    by_cases same : l = k
    · rw [same, Function.update_self] at value
      cases value
    · rw [Function.update_of_ne same] at value
      obtain ⟨j, small, held⟩ := repr.complete l w value
      have other : j ≠ i := by
        rintro rfl
        rw [slot] at held
        exact same (Prod.mk.inj (Option.some.inj held)).1.symm
      exact ⟨j, small, by rw [Function.update_of_ne other]; exact held⟩
  · intro a b l w u ha hb sa sb
    have other : ∀ c x, Function.update slots i none c = some (l, x) → c ≠ i := by
      rintro c x held rfl
      rw [Function.update_self] at held
      cases held
    rw [Function.update_of_ne (other a w sa)] at sa
    rw [Function.update_of_ne (other b u sb)] at sb
    exact repr.single a b l w u ha hb sa sb

end Update

section Size

/-- The keys sit in the used slots, one slot each. -/
theorem Represents.keys_card (repr : Represents n slots map) :
    (keys map).ncard = ((Finset.range n).filter fun i => (slots i).isSome).card := by
  rw [← Set.ncard_coe_finset]
  symm
  refine Set.ncard_congr (fun i mem => ((slots i).get (by simpa using And.right (by simpa using mem))).1) ?_ ?_ ?_
  · intro i mem
    obtain ⟨small, used⟩ : i < n ∧ (slots i).isSome := by simpa using mem
    obtain ⟨⟨k, v⟩, slot⟩ := Option.isSome_iff_exists.mp used
    simp only [keys, Set.mem_ofPred_eq, slot, Option.get_some]
    rw [repr.sound i k v small slot]
    simp
  · intro i j mi mj same
    obtain ⟨small, used⟩ : i < n ∧ (slots i).isSome := by simpa using mi
    obtain ⟨small', used'⟩ : j < n ∧ (slots j).isSome := by simpa using mj
    obtain ⟨⟨k, v⟩, slot⟩ := Option.isSome_iff_exists.mp used
    obtain ⟨⟨l, w⟩, slot'⟩ := Option.isSome_iff_exists.mp used'
    simp only [slot, slot', Option.get_some] at same
    rw [← same] at slot'
    exact repr.single i j k v w small small' slot slot'
  · intro k mem
    obtain ⟨v, value⟩ := Option.ne_none_iff_exists'.mp mem
    obtain ⟨i, small, slot⟩ := repr.complete k v value
    exact ⟨i, by simp [small, slot], by simp [slot]⟩

theorem Represents.keys_le (repr : Represents n slots map) : (keys map).ncard ≤ n := by
  rw [repr.keys_card]
  exact (Finset.card_filter_le _ _).trans (by simp)

/-- A free slot is missing exactly when the map has n keys. -/
theorem Represents.full_iff (repr : Represents n slots map) :
    (∀ i, i < n → slots i ≠ none) ↔ (keys map).ncard = n := by
  rw [repr.keys_card]
  constructor
  · intro full
    rw [Finset.filter_true_of_mem, Finset.card_range]
    intro i mem
    exact Option.isSome_iff_ne_none.mpr (full i (by simpa using mem))
  · intro card i small free
    have whole := Finset.card_filter_eq_iff.mp (card.trans (Finset.card_range n).symm)
    have used := whole i (by simpa using small)
    rw [free] at used
    cases used

end Size

end SlotTable
