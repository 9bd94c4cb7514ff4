import Mathlib

/- Lists of adjacent nonempty ranges that fill [lo, hi) exactly, in order. The
   start and the size of an item are given by functions, so an item can be an
   address whose size is read from somewhere or a record that carries both. -/
namespace Tiling
variable {β γ : Type} {start size : β → Nat} {lo hi : Nat}

def Tiles (start size : β → Nat) : Nat → Nat → List β → Prop
  | lo, hi, [] => lo = hi
  | lo, hi, b :: rest => start b = lo ∧ 0 < size b ∧ Tiles start size (lo + size b) hi rest

theorem tiles_le {bs : List β} (t : Tiles start size lo hi bs) : lo ≤ hi := by
  induction bs generalizing lo with
  | nil => exact Nat.le_of_eq t
  | cons b bs ih =>
    have rest := ih t.2.2
    omega

theorem tiles_append {xs ys : List β} :
    Tiles start size lo hi (xs ++ ys) ↔
      ∃ mid, Tiles start size lo mid xs ∧ Tiles start size mid hi ys := by
  induction xs generalizing lo with
  | nil => simp [Tiles]
  | cons x xs ih =>
    simp only [List.cons_append, Tiles, ih]
    constructor
    · rintro ⟨first, positive, mid, left, right⟩
      exact ⟨mid, ⟨first, positive, left⟩, right⟩
    · rintro ⟨mid, ⟨first, positive, left⟩, right⟩
      exact ⟨first, positive, mid, left, right⟩

theorem tiles_member_bounds {bs : List β} (t : Tiles start size lo hi bs) {b : β} (mem : b ∈ bs) :
    lo ≤ start b ∧ start b + size b ≤ hi ∧ 0 < size b := by
  induction bs generalizing lo with
  | nil => simp at mem
  | cons a bs ih =>
    obtain ⟨first, positive, tail⟩ := t
    rcases List.mem_cons.mp mem with same | later
    · subst a
      have finish := tiles_le tail
      omega
    · obtain ⟨left, right, pos⟩ := ih tail later
      exact ⟨by omega, right, pos⟩

theorem tiles_first {bs : List β} (t : Tiles start size lo hi bs) (more : lo < hi) : ∃ b ∈ bs, start b = lo := by
  cases bs with
  | nil =>
    have empty : lo = hi := t
    omega
  | cons b bs => exact ⟨b, by simp, t.1⟩

/-- Where an item ends before the end of the range, another begins. -/
theorem tiles_next {bs : List β} (t : Tiles start size lo hi bs) {b : β} (mem : b ∈ bs)
    (more : start b + size b < hi) : ∃ c ∈ bs, start c = start b + size b := by
  induction bs generalizing lo with
  | nil => simp at mem
  | cons a bs ih =>
    obtain ⟨first, positive, tail⟩ := t
    rcases List.mem_cons.mp mem with same | later
    · subst a
      rw [← first] at tail
      obtain ⟨c, mc, here⟩ := tiles_first tail more
      exact ⟨c, List.mem_cons_of_mem b mc, here⟩
    · obtain ⟨c, mc, here⟩ := ih tail later
      exact ⟨c, List.mem_cons_of_mem a mc, here⟩

theorem tiles_apart {bs : List β} (t : Tiles start size lo hi bs) {b c : β} (mb : b ∈ bs)
    (mc : c ∈ bs) : b = c ∨ start b + size b ≤ start c ∨ start c + size c ≤ start b := by
  induction bs generalizing lo with
  | nil => simp at mb
  | cons a bs ih =>
    obtain ⟨first, positive, tail⟩ := t
    rcases List.mem_cons.mp mb with eb | laterB
    · rcases List.mem_cons.mp mc with ec | laterC
      · exact Or.inl (eb.trans ec.symm)
      · subst eb
        have bounds := tiles_member_bounds tail laterC
        exact Or.inr (Or.inl (by omega))
    · rcases List.mem_cons.mp mc with ec | laterC
      · subst ec
        have bounds := tiles_member_bounds tail laterB
        exact Or.inr (Or.inr (by omega))
      · exact ih tail laterB laterC

/-- Ranges that follow each other, each filled by its own items. -/
theorem tiles_apart_across {bounds ends : Nat → Nat} (lists : Nat → List β) {s t : Nat}
    (ordered : ∀ {s t}, s < t → ends s ≤ bounds t) (ts : Tiles start size (bounds s) (ends s) (lists s))
    (tt : Tiles start size (bounds t) (ends t) (lists t)) {b c : β} (mb : b ∈ lists s) (mc : c ∈ lists t) :
    (s = t ∧ b = c) ∨ start b + size b ≤ start c ∨ start c + size c ≤ start b := by
  have insideB := tiles_member_bounds ts mb
  have insideC := tiles_member_bounds tt mc
  rcases Nat.lt_trichotomy s t with less | same | more
  · have order := ordered less
    omega
  · subst same
    rcases tiles_apart ts mb mc with eq | left | right
    · exact Or.inl ⟨rfl, eq⟩
    · exact Or.inr (Or.inl left)
    · exact Or.inr (Or.inr right)
  · have order := ordered more
    omega

theorem tiles_overlap {bs : List β} (t : Tiles start size lo hi bs) {b c : β} (mb : b ∈ bs)
    (mc : c ∈ bs) (left : start b < start c + size c) (right : start c < start b + size b) :
    b = c := by
  rcases tiles_apart t mb mc with same | apart | apart
  · exact same
  · omega
  · omega

theorem tiles_start_injective {bs : List β} (t : Tiles start size lo hi bs) {b c : β}
    (mb : b ∈ bs) (mc : c ∈ bs) (same : start b = start c) : b = c := by
  have hb := tiles_member_bounds t mb
  have hc := tiles_member_bounds t mc
  exact tiles_overlap t mb mc (by omega) (by omega)

theorem tiles_nodup {bs : List β} (t : Tiles start size lo hi bs) : bs.Nodup := by
  induction bs generalizing lo with
  | nil => simp
  | cons b bs ih =>
    obtain ⟨first, positive, tail⟩ := t
    refine List.nodup_cons.mpr ⟨?_, ih tail⟩
    intro repeated
    have bounds := tiles_member_bounds tail repeated
    omega

/-- Where the items are addresses, their sizes leave one way to fill the range. -/
theorem tiles_unique {size : Nat → Nat} {xs ys : List Nat} (left : Tiles id size lo hi xs) (right : Tiles id size lo hi ys) :
    xs = ys := by
  induction xs generalizing lo ys with
  | nil =>
    cases ys with
    | nil => rfl
    | cons y ys =>
      have same : lo = hi := left
      have finish := tiles_le right.2.2
      have positive := right.2.1
      omega
  | cons x xs ih =>
    cases ys with
    | nil =>
      have same : lo = hi := right
      have finish := tiles_le left.2.2
      have positive := left.2.1
      omega
    | cons y ys =>
      obtain ⟨startX, _, restX⟩ := left
      obtain ⟨startY, _, restY⟩ := right
      obtain rfl : x = y := startX.trans startY.symm
      rw [ih restX restY]

theorem tiles_map {start' size' : γ → Nat} {bs : List β} (f : β → γ)
    (t : Tiles start size lo hi bs)
    (same : ∀ b ∈ bs, start' (f b) = start b ∧ size' (f b) = size b) :
    Tiles start' size' lo hi (bs.map f) := by
  induction bs generalizing lo with
  | nil => exact t
  | cons b bs ih =>
    obtain ⟨first, positive, tail⟩ := t
    obtain ⟨sameStart, sameSize⟩ := same b (by simp)
    refine ⟨sameStart.trans first, by omega, ?_⟩
    rw [sameSize]
    exact ih tail (fun c mem => same c (List.mem_cons_of_mem b mem))

/-- A walk that reads each size from the current address visits one sequence only: a walk
    to an earlier end is a prefix of a walk to a later one. -/
theorem tiles_prefix {width : Nat → Nat} {xs ys : List Nat} {mid : Nat}
    (tx : Tiles id width lo mid xs) (ty : Tiles id width lo hi ys) (before : mid ≤ hi) :
    ∃ zs, ys = xs ++ zs ∧ Tiles id width mid hi zs := by
  induction xs generalizing lo ys with
  | nil =>
    have here : lo = mid := tx
    exact ⟨ys, rfl, here ▸ ty⟩
  | cons x xs ih =>
    obtain ⟨firstX, positiveX, tailX⟩ := tx
    cases ys with
    | nil =>
      have finish := tiles_le tailX
      have empty : lo = hi := ty
      omega
    | cons y ys =>
      obtain ⟨firstY, positiveY, tailY⟩ := ty
      have same : x = y := Eq.trans firstX firstY.symm
      subst y
      obtain ⟨zs, whole, rest⟩ := ih tailX tailY
      exact ⟨zs, by rw [whole]; rfl, rest⟩

theorem tiles_split {pre post : List β} {b c d : β}
    (t : Tiles start size lo hi (pre ++ b :: post)) (first : start c = start b)
    (second : start d = start b + size c) (positiveC : 0 < size c) (positiveD : 0 < size d)
    (total : size c + size d = size b) : Tiles start size lo hi (pre ++ c :: d :: post) := by
  obtain ⟨mid, left, here, positive, tail⟩ := tiles_append.mp t
  refine tiles_append.mpr ⟨mid, left, first.trans here, positiveC, ?_, positiveD, ?_⟩
  · omega
  · rw [Nat.add_assoc, total]
    exact tail

theorem tiles_replace {pre post : List β} {b c : β}
    (t : Tiles start size lo hi (pre ++ b :: post)) (first : start c = start b)
    (same : size c = size b) : Tiles start size lo hi (pre ++ c :: post) := by
  obtain ⟨mid, left, here, positive, tail⟩ := tiles_append.mp t
  refine tiles_append.mpr ⟨mid, left, first.trans here, by omega, ?_⟩
  rw [same]
  exact tail

/-- Membership after one item of a list without repetition is replaced by others. -/
theorem mem_replace {pre post : List β} (new : List β) {b c : β} (distinct : (pre ++ b :: post).Nodup) :
    c ∈ pre ++ (new ++ post) ↔ c ∈ new ∨ (c ∈ pre ++ b :: post ∧ c ≠ b) := by
  have split := List.nodup_append.mp distinct
  have notPre : b ∉ pre := fun mem => split.2.2 b mem b (by simp) rfl
  have notPost : b ∉ post := (List.nodup_cons.mp split.2.1).1
  simp only [List.mem_append, List.mem_cons]
  constructor
  · rintro (left | here | right)
    · exact Or.inr ⟨Or.inl left, fun same => notPre (same ▸ left)⟩
    · exact Or.inl here
    · exact Or.inr ⟨Or.inr (Or.inr right), fun same => notPost (same ▸ right)⟩
  · rintro (here | ⟨left | same | right, other⟩)
    · exact Or.inr (Or.inl here)
    · exact Or.inl left
    · exact absurd same other
    · exact Or.inr (Or.inr right)

theorem tiles_sum {bs : List β} (t : Tiles start size lo hi bs) : lo + (bs.map size).sum = hi := by
  induction bs generalizing lo with
  | nil => exact t
  | cons b bs ih =>
    have rest := ih t.2.2
    rw [List.map_cons, List.sum_cons]
    omega

theorem tiles_length_bound {bs : List β} (t : Tiles start size lo hi bs) {least : Nat}
    (large : ∀ b ∈ bs, least ≤ size b) : lo + bs.length * least ≤ hi := by
  induction bs generalizing lo with
  | nil => simpa using Nat.le_of_eq t
  | cons b bs ih =>
    have rest := ih t.2.2 (fun c mem => large c (List.mem_cons_of_mem b mem))
    have here := large b (by simp)
    rw [List.length_cons, Nat.add_mul, Nat.one_mul]
    omega

end Tiling
