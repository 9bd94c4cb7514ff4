import Mathlib

/- A map seen through its history, the changes to it with the newest first. A list of
   entries stands for the map when it has each present key once, with its latest value. -/
namespace KeyedHistory

inductive Change (K V : Type) where
  | put (k : K) (v : V)
  | erase (k : K)

variable {K V : Type} [DecidableEq K]

/-- The value of the latest put of the key that no erasure follows. -/
def latest (k : K) : List (Change K V) → Option V
  | [] => none
  | .put k' v :: history => if k' = k then some v else latest k history
  | .erase k' :: history => if k' = k then none else latest k history

def Change.key : Change K V → K
  | .put k _ => k
  | .erase k => k

def present (history : List (Change K V)) : Set K := {k | latest k history ≠ none}

section Latest
variable {history later : List (Change K V)} {k : K} {v : V}

/-- A put counts until its key is changed again. -/
theorem latest_of_put (others : ∀ c ∈ later, c.key ≠ k) : latest k (later ++ .put k v :: history) = some v := by
  induction later with
  | nil => simp [latest]
  | cons c later ih =>
    have rest := ih fun d mem => others d (List.mem_cons_of_mem _ mem)
    cases c with
    | put k' w =>
      have other : k' ≠ k := others _ List.mem_cons_self
      rw [List.cons_append, latest, if_neg other]
      exact rest
    | erase k' =>
      have other : k' ≠ k := others _ List.mem_cons_self
      rw [List.cons_append, latest, if_neg other]
      exact rest

theorem put_of_latest (value : latest k history = some v) : .put k v ∈ history := by
  induction history with
  | nil => simp [latest] at value
  | cons c history ih =>
    cases c with
    | put k' w =>
      rw [latest] at value
      split at value
      · rename_i same
        rw [same, Option.some.inj value]
        exact List.mem_cons_self
      · exact List.mem_cons_of_mem _ (ih value)
    | erase k' =>
      rw [latest] at value
      split at value
      · simp at value
      · exact List.mem_cons_of_mem _ (ih value)

end Latest

structure Agrees (entries : List (K × V)) (history : List (Change K V)) : Prop where
  distinct : (entries.map Prod.fst).Nodup
  value : ∀ k v, (k, v) ∈ entries ↔ latest k history = some v

section Agrees
variable {entries pre post : List (K × V)} {history : List (Change K V)} {k : K} {v w : V}

theorem agrees_nil : Agrees ([] : List (K × V)) [] := ⟨List.nodup_nil, fun _ _ => by simp [latest]⟩

/-- A key that lies in the middle lies nowhere else. -/
theorem Agrees.middle (agrees : Agrees (pre ++ (k, w) :: post) history) : k ∉ (pre ++ post).map Prod.fst ∧
    ((pre ++ post).map Prod.fst).Nodup := by
  have distinct := agrees.distinct
  rw [List.map_append, List.map_cons, List.nodup_middle, ← List.map_append] at distinct
  exact List.nodup_cons.mp distinct

theorem Agrees.elsewhere (agrees : Agrees (pre ++ (k, w) :: post) history) {k' : K} (other : k' ≠ k) (v : V) :
    (k', v) ∈ pre ++ post ↔ latest k' history = some v := by
  rw [← agrees.value]
  simp [other]

theorem Agrees.insert (agrees : Agrees entries history) (absent : latest k history = none) (v : V) :
    Agrees ((k, v) :: entries) (.put k v :: history) := by
  have fresh : ∀ w, (k, w) ∉ entries := fun w mem => by simp [(agrees.value k w).mp mem] at absent
  refine ⟨List.nodup_cons.mpr ⟨fun again => ?_, agrees.distinct⟩, fun k' w => ?_⟩
  · obtain ⟨⟨k', w⟩, mem, same⟩ := List.mem_map.mp again
    have same : k' = k := same
    exact fresh w (same ▸ mem)
  · by_cases same : k = k'
    · subst same
      simp [latest, fresh, eq_comm]
    · simp [latest, same, Ne.symm same, agrees.value]

theorem Agrees.replace (agrees : Agrees (pre ++ (k, w) :: post) history) (v : V) :
    Agrees (pre ++ (k, v) :: post) (.put k v :: history) := by
  obtain ⟨fresh, rest⟩ := agrees.middle
  refine ⟨?_, fun k' u => ?_⟩
  · rw [List.map_append, List.map_cons, List.nodup_middle, ← List.map_append]
    exact List.nodup_cons.mpr ⟨fresh, rest⟩
  · rw [List.mem_append, List.mem_cons, or_left_comm, ← List.mem_append]
    by_cases same : k = k'
    · subst same
      have none : (k, u) ∉ pre ++ post := fun mem => fresh (List.mem_map_of_mem (f := Prod.fst) mem)
      simp [latest, none, eq_comm]
    · rw [agrees.elsewhere (Ne.symm same)]
      simp [latest, same, Ne.symm same]

theorem Agrees.erase (agrees : Agrees (pre ++ (k, w) :: post) history) : Agrees (pre ++ post) (.erase k :: history) := by
  obtain ⟨fresh, rest⟩ := agrees.middle
  refine ⟨rest, fun k' u => ?_⟩
  by_cases same : k = k'
  · subst same
    have none : (k, u) ∉ pre ++ post := fun mem => fresh (List.mem_map_of_mem (f := Prod.fst) mem)
    simp [latest, none]
  · rw [agrees.elsewhere (Ne.symm same)]
    simp [latest, same]

/-- There are as many entries as present keys. -/
theorem Agrees.card (agrees : Agrees entries history) : (present history).ncard = entries.length := by
  classical
  have keys : present history = ((entries.map Prod.fst).toFinset : Set K) := by
    ext k
    simp only [present, Set.mem_ofPred_eq, Option.ne_none_iff_exists', ← agrees.value, List.coe_toFinset,
      List.mem_map, Prod.exists, exists_and_right, exists_eq_right]
  rw [keys, Set.ncard_coe_finset, List.toFinset_card_of_nodup agrees.distinct, List.length_map]

end Agrees

end KeyedHistory
