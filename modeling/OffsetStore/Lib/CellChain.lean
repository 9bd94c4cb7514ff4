import Mathlib

/- Null-terminated singly linked lists seen from their cells. A cell holds the
   address of the next node or zero; the cell inside node x is at x + link. The
   head pointer is a cell like any other, so unlinking needs no special case. -/
namespace CellChain
variable {read read' : Nat → Nat} {link c d : Nat}

def Chain (read : Nat → Nat) (link : Nat) : Nat → List Nat → Prop
  | c, [] => read c = 0
  | c, x :: xs => read c = x ∧ x ≠ 0 ∧ Chain read link (x + link) xs

def Segment (read : Nat → Nat) (link : Nat) : Nat → List Nat → Prop
  | _, [] => True
  | c, x :: xs => read c = x ∧ x ≠ 0 ∧ Segment read link (x + link) xs

def cellAfter (link : Nat) : Nat → List Nat → Nat
  | c, [] => c
  | _, x :: xs => cellAfter link (x + link) xs

/-- The cells that a segment reads: the first one and all but the last node's. -/
def readCells (link : Nat) : Nat → List Nat → List Nat
  | _, [] => []
  | c, x :: xs => c :: readCells link (x + link) xs

theorem chain_append {xs ys : List Nat} : Chain read link c (xs ++ ys) ↔
    Segment read link c xs ∧ Chain read link (cellAfter link c xs) ys := by
  induction xs generalizing c with
  | nil => simp [Segment, cellAfter]
  | cons x xs ih => simp only [List.cons_append, Chain, Segment, cellAfter, ih, and_assoc]

theorem segment_append {xs ys : List Nat} : Segment read link c (xs ++ ys) ↔
    Segment read link c xs ∧ Segment read link (cellAfter link c xs) ys := by
  induction xs generalizing c with
  | nil => simp [Segment, cellAfter]
  | cons x xs ih => simp only [List.cons_append, Segment, cellAfter, ih, and_assoc]

theorem chain_unique {xs ys : List Nat} (hx : Chain read link c xs) (hy : Chain read link c ys) :
    xs = ys := by
  induction xs generalizing c ys with
  | nil =>
    cases ys with
    | nil => rfl
    | cons y ys => exact absurd (hy.1.symm.trans hx) hy.2.1
  | cons x xs ih =>
    cases ys with
    | nil => exact absurd (hx.1.symm.trans hy) hx.2.1
    | cons y ys =>
      have same : x = y := hx.1.symm.trans hy.1
      subst y
      rw [ih hx.2.2 hy.2.2]

theorem chain_iterate {xs : List Nat} (h : Chain read link c xs) :
    (fun x => read (x + link))^[xs.length] (read c) = 0 := by
  induction xs generalizing c with
  | nil => exact h
  | cons x xs ih =>
    rw [List.length_cons, Function.iterate_succ_apply, h.1]
    exact ih h.2.2

/-- A chain that ends meets no node twice, since the rest of it would then be as long as itself. -/
theorem chain_nodup {xs : List Nat} (h : Chain read link c xs) : xs.Nodup := by
  induction xs generalizing c with
  | nil => exact List.nodup_nil
  | cons x xs ih =>
    refine List.nodup_cons.mpr ⟨fun again => ?_, ih h.2.2⟩
    obtain ⟨pre, post, split⟩ := List.append_of_mem again
    have later := h.2.2
    rw [split] at later
    obtain ⟨_, _, _, rest⟩ := chain_append.mp later
    have same := chain_unique rest later
    have length := congrArg List.length same
    simp only [List.length_append, List.length_cons] at length
    omega

theorem chain_head_mem {xs : List Nat} (h : Chain read link c xs) (listed : read c ≠ 0) : read c ∈ xs := by
  cases xs with
  | nil => exact absurd h listed
  | cons x xs =>
    rw [h.1]
    simp

theorem chain_next_mem {xs : List Nat} {x : Nat} (h : Chain read link c xs) (mem : x ∈ xs)
    (linked : read (x + link) ≠ 0) : read (x + link) ∈ xs := by
  induction xs generalizing c with
  | nil => simp at mem
  | cons y xs ih =>
    rcases List.mem_cons.mp mem with same | later
    · subst same
      exact List.mem_cons_of_mem x (chain_head_mem h.2.2 linked)
    · exact List.mem_cons_of_mem y (ih h.2.2 later)

theorem chain_nonzero {xs : List Nat} (h : Chain read link c xs) : ∀ x ∈ xs, x ≠ 0 := by
  induction xs generalizing c with
  | nil => simp
  | cons x xs ih =>
    intro y mem
    rcases List.mem_cons.mp mem with same | later
    · rw [same]
      exact h.2.1
    · exact ih h.2.2 y later

/-- A chain may be re-read through another first cell with the same content. -/
theorem chain_move {xs : List Nat} (h : Chain read link c xs) (first : read' d = read c)
    (same : ∀ x ∈ xs, read' (x + link) = read (x + link)) : Chain read' link d xs := by
  induction xs generalizing c d with
  | nil => exact first.trans h
  | cons x xs ih =>
    refine ⟨first.trans h.1, h.2.1, ?_⟩
    exact ih h.2.2 (same x (by simp)) (fun y mem => same y (List.mem_cons_of_mem x mem))

theorem segment_congr {xs : List Nat} (h : Segment read link c xs)
    (same : ∀ e ∈ readCells link c xs, read' e = read e) : Segment read' link c xs := by
  induction xs generalizing c with
  | nil => trivial
  | cons x xs ih =>
    refine ⟨(same c (by simp [readCells])).trans h.1, h.2.1, ?_⟩
    exact ih h.2.2 (fun e mem => same e (by simp [readCells, mem]))

theorem mem_readCells {xs : List Nat} {e : Nat} (mem : e ∈ readCells link c xs) :
    e = c ∨ ∃ x ∈ xs, e = x + link := by
  induction xs generalizing c with
  | nil => simp [readCells] at mem
  | cons x xs ih =>
    rcases List.mem_cons.mp mem with same | later
    · exact Or.inl same
    · rcases ih later with same | ⟨y, my, same⟩
      · exact Or.inr ⟨x, by simp, same⟩
      · exact Or.inr ⟨y, by simp [my], same⟩

theorem cellAfter_cases (link c : Nat) (xs : List Nat) :
    (xs = [] ∧ cellAfter link c xs = c) ∨ ∃ x ∈ xs, cellAfter link c xs = x + link := by
  induction xs generalizing c with
  | nil => exact Or.inl ⟨rfl, rfl⟩
  | cons x xs ih =>
    rcases ih (x + link) with ⟨empty, same⟩ | ⟨y, my, same⟩
    · exact Or.inr ⟨x, by simp, same⟩
    · exact Or.inr ⟨y, by simp [my], same⟩

/-- The cell that follows a segment is none of those the segment reads. -/
theorem cellAfter_not_read {xs : List Nat} (distinct : xs.Nodup)
    (head : ∀ x ∈ xs, x + link ≠ c) : cellAfter link c xs ∉ readCells link c xs := by
  induction xs generalizing c with
  | nil => simp [readCells]
  | cons x xs ih =>
    obtain ⟨fresh, rest⟩ := List.nodup_cons.mp distinct
    have tail := ih (c := x + link) rest (by
      intro y my same
      have eq : y = x := by omega
      exact fresh (eq ▸ my))
    simp only [cellAfter, readCells, List.mem_cons, not_or]
    refine ⟨?_, tail⟩
    rcases cellAfter_cases link (x + link) xs with ⟨_, same⟩ | ⟨y, my, same⟩
    · rw [same]
      exact head x (by simp)
    · rw [same]
      exact head y (by simp [my])

theorem chain_remove {pre post : List Nat} {x : Nat} (h : Chain read link c (pre ++ x :: post))
    (before : ∀ e ∈ readCells link c pre, read' e = read e)
    (here : read' (cellAfter link c pre) = read (x + link))
    (after : ∀ y ∈ post, read' (y + link) = read (y + link)) :
    Chain read' link c (pre ++ post) := by
  obtain ⟨segment, _, _, tail⟩ := chain_append.mp h
  exact chain_append.mpr ⟨segment_congr segment before, chain_move tail here after⟩

theorem chain_replace {pre post : List Nat} {x z : Nat}
    (h : Chain read link c (pre ++ x :: post))
    (before : ∀ e ∈ readCells link c pre, read' e = read e)
    (here : read' (cellAfter link c pre) = z) (nonzero : z ≠ 0)
    (next : read' (z + link) = read (x + link))
    (after : ∀ y ∈ post, read' (y + link) = read (y + link)) :
    Chain read' link c (pre ++ z :: post) := by
  obtain ⟨segment, _, _, tail⟩ := chain_append.mp h
  exact chain_append.mpr
    ⟨segment_congr segment before, here, nonzero, chain_move tail next after⟩

theorem chain_push {xs : List Nat} {z : Nat} (h : Chain read link c xs) (head : read' c = z)
    (nonzero : z ≠ 0) (next : read' (z + link) = read c)
    (after : ∀ y ∈ xs, read' (y + link) = read (y + link)) :
    Chain read' link c (z :: xs) :=
  ⟨head, nonzero, chain_move h next after⟩

theorem chain_snoc {xs : List Nat} {z : Nat} (h : Chain read link c xs)
    (before : ∀ e ∈ readCells link c xs, read' e = read e) (here : read' (cellAfter link c xs) = z)
    (nonzero : z ≠ 0) (last : read' (z + link) = 0) : Chain read' link c (xs ++ [z]) := by
  rw [← List.append_nil xs] at h
  exact chain_append.mpr ⟨segment_congr (chain_append.mp h).1 before, here, nonzero, last⟩

theorem chain_congr {xs : List Nat} (h : Chain read link c xs) (first : read' c = read c)
    (same : ∀ x ∈ xs, read' (x + link) = read (x + link)) : Chain read' link c xs := chain_move h first same

theorem cellAfter_snoc (link c : Nat) (xs : List Nat) (z : Nat) : cellAfter link c (xs ++ [z]) = z + link := by
  induction xs generalizing c with
  | nil => rfl
  | cons x xs ih => exact ih (x + link)

/-- A list linked in both directions: the nodes in order from the first cell, and in
    reverse order from the last one. -/
structure Paired (read : Nat → Nat) (link back first last : Nat) (xs : List Nat) : Prop where
  forward : Chain read link first xs
  backward : Chain read back last xs.reverse

section Paired
variable {back first last z : Nat} {xs : List Nat}

theorem Paired.flip (h : Paired read link back first last xs) : Paired read back link last first xs.reverse :=
  ⟨h.backward, by rw [List.reverse_reverse]; exact h.forward⟩

/-- The cell that leads backwards to a node put in front. -/
def frontCell (back last : Nat) : List Nat → Nat
  | [] => last
  | x :: _ => x + back

theorem cellAfter_reverse (back last : Nat) (xs : List Nat) :
    cellAfter back last xs.reverse = frontCell back last xs := by
  cases xs with
  | nil => rfl
  | cons x xs => rw [List.reverse_cons, cellAfter_snoc]; rfl

theorem Paired.push_front (h : Paired read link back first last xs) (distinct : xs.Nodup)
    (away : ∀ x ∈ xs, x + back ≠ last) (nonzero : z ≠ 0) (head : read' first = z)
    (next : read' (z + link) = read first) (forward : ∀ x ∈ xs, read' (x + link) = read (x + link))
    (prev : read' (z + back) = 0) (turn : read' (frontCell back last xs) = z)
    (backward : ∀ e, (e = last ∨ ∃ x ∈ xs, e = x + back) → e ≠ frontCell back last xs → read' e = read e) :
    Paired read' link back first last (z :: xs) := by
  refine ⟨chain_push h.forward head nonzero next forward, ?_⟩
  rw [List.reverse_cons]
  rw [← cellAfter_reverse] at turn backward
  refine chain_snoc h.backward ?_ turn nonzero prev
  intro e mem
  have reached : e = last ∨ ∃ x ∈ xs, e = x + back := by
    rcases mem_readCells mem with same | ⟨x, mx, same⟩
    · exact Or.inl same
    · exact Or.inr ⟨x, List.mem_reverse.mp mx, same⟩
  refine backward e reached ?_
  rintro rfl
  exact cellAfter_not_read (List.nodup_reverse.mpr distinct)
    (fun x mx => away x (List.mem_reverse.mp mx)) mem

/-- Putting a node at the end is putting it in front of the list read backwards. -/
theorem Paired.push_back (h : Paired read link back first last xs) (distinct : xs.Nodup)
    (away : ∀ x ∈ xs, x + link ≠ first) (nonzero : z ≠ 0) (head : read' last = z)
    (next : read' (z + back) = read last) (backward : ∀ x ∈ xs, read' (x + back) = read (x + back))
    (prev : read' (z + link) = 0) (turn : read' (frontCell link first xs.reverse) = z)
    (forward : ∀ e, (e = first ∨ ∃ x ∈ xs, e = x + link) → e ≠ frontCell link first xs.reverse →
      read' e = read e) :
    Paired read' link back first last (xs ++ [z]) := by
  have mem : ∀ x, x ∈ xs.reverse ↔ x ∈ xs := fun x => List.mem_reverse
  have pushed := h.flip.push_front (List.nodup_reverse.mpr distinct) (fun x mx => away x ((mem x).mp mx))
    nonzero head next (fun x mx => backward x ((mem x).mp mx)) prev turn (by simpa only [mem] using forward)
  have turned := pushed.flip
  rwa [List.reverse_cons, List.reverse_reverse] at turned

end Paired

end CellChain
