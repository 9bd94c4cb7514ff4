import OffsetStore.Lib.Program

/- Two programs over one memory, in steps of one load, one store or one call: the writer
   keeps to a relation between memories until it reaches a goal, and the reader, which
   stores nothing, finds whatever that relation allows. -/
namespace Program
open ByteMemory Prog
variable {C α β : Type}

/-- The calls a program has made, with their answers. -/
abbrev Heard (C : Type) := List (C × Int)

/-- One step of a program. -/
inductive Move (answers : C → Int → Prop) : Prog C α → Mem → Heard C → Prog C α → Mem → Prop where
  | read {o n : Nat} {next : Nat → Prog C α} {m : Mem} :
      Move answers (.read o n next) m [] (next (load m o n)) m
  | write {o n v : Nat} {next : Prog C α} {m : Mem} :
      Move answers (.write o n v next) m [] next (store m o n v)
  | fetchAdd {o n d : Nat} {next : Nat → Prog C α} {m : Mem} :
      Move answers (.fetchAdd o n d next) m [] (next (load m o n)) (store m o n (load m o n + d))
  | call {c : C} {next : Int → Prog C α} {m : Mem} {r : Int} (possible : answers c r) :
      Move answers (.call c next) m [(c, r)] (next r) m

/-- The steps of a program that runs alone from here on. -/
inductive Moves (answers : C → Int → Prop) : Prog C α → Mem → Heard C → Prog C α → Mem → Prop where
  | here {p : Prog C α} {m : Mem} : Moves answers p m [] p m
  | step {p p' p'' : Prog C α} {m m' m'' : Mem} {heard later : Heard C}
      (first : Move answers p m heard p' m') (rest : Moves answers p' m' later p'' m'') :
      Moves answers p m (heard ++ later) p'' m''

structure Pair (C α β : Type) where
  writer : Prog C α
  heard : Heard C
  reader : Prog C β
  mem : Mem

/-- A step of either program. -/
inductive Together (answers : C → Int → Prop) : Pair C α β → Pair C α β → Prop where
  | writer {s : Pair C α β} {later : Heard C} {q : Prog C α} {m : Mem}
      (move : Move answers s.writer s.mem later q m) :
      Together answers s ⟨q, s.heard ++ later, s.reader, m⟩
  | reader {s : Pair C α β} {later : Heard C} {p : Prog C β} {m : Mem}
      (move : Move answers s.reader s.mem later p m) :
      Together answers s ⟨s.writer, s.heard, p, m⟩

section Alone
variable {S : Type} {answers : C → Int → Prop} {handle : C → S → Int × S} (possible : ∀ c s, answers c (handle c s).1)
include possible

/-- An uninterrupted run of either program is a run of the two together. -/
theorem together_writer {p : Prog C α} (q : Prog C β) (heard : Heard C) {m m' : Mem} {e e' : S} {a : α}
    (result : run handle p m e = some (a, m', e')) :
    ∃ later, Relation.ReflTransGen (Together answers) (Pair.mk p heard q m) ⟨ret a, heard ++ later, q, m'⟩ := by
  induction p generalizing heard m e with
  | ret b =>
    simp only [run, Option.some.injEq, Prod.mk.injEq] at result
    obtain ⟨rfl, rfl, _⟩ := result
    exact ⟨[], by rw [List.append_nil]⟩
  | read o n next ih =>
    obtain ⟨later, runs⟩ := ih _ heard result
    exact ⟨later, .head (by simpa using Together.writer (s := ⟨_, heard, q, m⟩) .read) runs⟩
  | write o n v next ih =>
    obtain ⟨later, runs⟩ := ih heard result
    exact ⟨later, .head (by simpa using Together.writer (s := ⟨_, heard, q, m⟩) .write) runs⟩
  | fetchAdd o n d next ih =>
    obtain ⟨later, runs⟩ := ih _ heard result
    exact ⟨later, .head (by simpa using Together.writer (s := ⟨_, heard, q, m⟩) .fetchAdd) runs⟩
  | call c next ih =>
    obtain ⟨later, runs⟩ := ih _ (heard ++ [(c, (handle c e).1)]) result
    refine ⟨(c, (handle c e).1) :: later, .head (Together.writer (s := ⟨_, heard, q, m⟩) (.call (possible c e))) ?_⟩
    simpa using runs
  | spin => simp [run] at result

theorem together_reader {p : Prog C α} {q : Prog C β} {heard : Heard C} {m m' : Mem} {e e' : S} {b : β}
    (result : run handle q m e = some (b, m', e')) :
    Relation.ReflTransGen (Together answers) (Pair.mk p heard q m) ⟨p, heard, ret b, m'⟩ := by
  induction q generalizing m e with
  | ret a =>
    simp only [run, Option.some.injEq, Prod.mk.injEq] at result
    obtain ⟨rfl, rfl, _⟩ := result
    exact .refl
  | read o n next ih => exact .head (Together.reader (s := ⟨p, heard, _, m⟩) .read) (ih _ result)
  | write o n v next ih => exact .head (Together.reader (s := ⟨p, heard, _, m⟩) .write) (ih result)
  | fetchAdd o n d next ih => exact .head (Together.reader (s := ⟨p, heard, _, m⟩) .fetchAdd) (ih _ result)
  | call c next ih => exact .head (Together.reader (s := ⟨p, heard, _, m⟩) (.call (possible c e))) (ih _ result)
  | spin => simp [run] at result

end Alone

theorem store_nothing (m : Mem) (o v : Nat) : store m o 0 v = m :=
  funext fun _ => store_outside (by omega)

section Move
variable {answers : C → Int → Prop} {p p' : Prog C α} {m m' : Mem} {heard : Heard C}

unseal Ends in
theorem ends_move {post : α → Mem → Prop} (ends : Ends answers post p m) (move : Move answers p m heard p' m') :
    Ends answers post p' m' := by
  cases move with
  | call possible => exact ends _ possible
  | _ => exact ends

theorem silent_move (silent : Silent p) (move : Move answers p m heard p' m') : Silent p' ∧ m' = m := by
  cases move with
  | read => exact ⟨silent _, rfl⟩
  | write =>
    have width := silent.1.2
    obtain ⟨rfl, rfl⟩ := Nat.add_eq_zero_iff.mp (Nat.le_zero.mp width)
    exact ⟨silent.2, store_nothing _ _ _⟩
  | fetchAdd =>
    have width := silent.1.2
    obtain ⟨rfl, rfl⟩ := Nat.add_eq_zero_iff.mp (Nat.le_zero.mp width)
    exact ⟨silent.2 _, store_nothing _ _ _⟩
  | call => exact ⟨silent _, rfl⟩

end Move

/-- The program changes no byte any more, and makes the given calls only. -/
def Idle (answers : C → Int → Prop) (allowed : C → Prop) : Prog C α → Mem → Prop
  | .ret _, _ => True
  | .read o n next, m => Idle answers allowed (next (load m o n)) m
  | .write o n v next, m => store m o n v = m ∧ Idle answers allowed next m
  | .fetchAdd o n d next, m =>
      store m o n (load m o n + d) = m ∧ Idle answers allowed (next (load m o n)) m
  | .call c next, m => allowed c ∧ ∀ r, answers c r → Idle answers allowed (next r) m
  | .spin, _ => True

section Idle
variable {answers : C → Int → Prop} {allowed : C → Prop} {m m' : Mem}

theorem idle_ret {a : α} : Idle answers allowed (ret a : Prog C α) m := trivial

theorem idle_call {c : C} {next : Int → Prog C α} (allows : allowed c)
    (all : ∀ r, answers c r → Idle answers allowed (next r) m) : Idle answers allowed (call c next) m := ⟨allows, all⟩

theorem idle_write {o n v : Nat} {next : Prog C α} (same : store m o n v = m) (rest : Idle answers allowed next m) :
    Idle answers allowed (write o n v next) m := ⟨same, rest⟩

theorem idle_bind {p : Prog C α} {f : α → Prog C β} (first : Idle answers allowed p m)
    (second : ∀ a, Idle answers allowed (f a) m) : Idle answers allowed (p >>= f) m := by
  induction p with
  | ret a => exact second a
  | read o n next ih => exact ih _ first
  | write o n v next ih => exact ⟨first.1, ih first.2⟩
  | fetchAdd o n d next ih => exact ⟨first.1, ih _ first.2⟩
  | call c next ih => exact ⟨first.1, fun r possible => ih r (first.2 r possible)⟩
  | spin => trivial

theorem idle_move {p p' : Prog C α} {heard : Heard C} (idle : Idle answers allowed p m)
    (move : Move answers p m heard p' m') :
    m' = m ∧ (∀ x ∈ heard, allowed x.1) ∧ Idle answers allowed p' m := by
  cases move with
  | read => exact ⟨rfl, by simp, idle⟩
  | write => exact ⟨idle.1, by simp, idle.2⟩
  | fetchAdd => exact ⟨idle.1, by simp, idle.2⟩
  | call possible => exact ⟨rfl, by simpa using idle.1, idle.2 _ possible⟩

theorem idle_moves {p p' : Prog C α} {heard : Heard C} (idle : Idle answers allowed p m)
    (moves : Moves answers p m heard p' m') : m' = m ∧ ∀ x ∈ heard, allowed x.1 := by
  induction moves with
  | here => exact ⟨rfl, by simp⟩
  | step first rest ih =>
    obtain ⟨rfl, calls, idle⟩ := idle_move idle first
    obtain ⟨same, more⟩ := ih idle
    refine ⟨same, fun x mem => ?_⟩
    rcases List.mem_append.mp mem with early | late
    · exact calls x early
    · exact more x late

end Idle

attribute [irreducible] Idle

/-- Every step keeps to the relation until the program is at its goal, or has returned. -/
inductive Until (answers : C → Int → Prop) (R : Mem → Mem → Prop) (goal : Prog C α → Heard C → Mem → Prop) :
    Prog C α → Heard C → Mem → Prop where
  | goal {p : Prog C α} {heard : Heard C} {m : Mem} (reached : goal p heard m) : Until answers R goal p heard m
  | read {o n : Nat} {next : Nat → Prog C α} {heard : Heard C} {m : Mem}
      (rest : Until answers R goal (next (load m o n)) heard m) : Until answers R goal (.read o n next) heard m
  | write {o n v : Nat} {next : Prog C α} {heard : Heard C} {m : Mem} (step : R m (store m o n v))
      (rest : Until answers R goal next heard (store m o n v)) : Until answers R goal (.write o n v next) heard m
  | fetchAdd {o n d : Nat} {next : Nat → Prog C α} {heard : Heard C} {m : Mem}
      (step : R m (store m o n (load m o n + d)))
      (rest : Until answers R goal (next (load m o n)) heard (store m o n (load m o n + d))) :
      Until answers R goal (.fetchAdd o n d next) heard m
  | call {c : C} {next : Int → Prog C α} {heard : Heard C} {m : Mem}
      (all : ∀ r, answers c r → Until answers R goal (next r) (heard ++ [(c, r)]) m) :
      Until answers R goal (.call c next) heard m
  | spin {heard : Heard C} {m : Mem} : Until answers R goal .spin heard m

/-- The program has returned. -/
def Returned (post : α → Heard C → Mem → Prop) (p : Prog C α) (heard : Heard C) (m : Mem) : Prop :=
  ∃ a, p = ret a ∧ post a heard m

section Until
variable {answers : C → Int → Prop} {R : Mem → Mem → Prop} {heard : Heard C} {m : Mem}

theorem until_ret {post : α → Heard C → Mem → Prop} {a : α} (holds : post a heard m) :
    Until answers R (Returned post) (ret a) heard m := .goal ⟨a, rfl, holds⟩

theorem until_bind {goal : Prog C β → Heard C → Mem → Prop} {post : α → Heard C → Mem → Prop} {p : Prog C α}
    {f : α → Prog C β} (first : Until answers R (Returned post) p heard m)
    (second : ∀ a heard' m', post a heard' m' → Until answers R goal (f a) heard' m') :
    Until answers R goal (p >>= f) heard m := by
  induction first with
  | goal reached =>
    obtain ⟨a, rfl, holds⟩ := reached
    exact second a _ _ holds
  | read _ ih => exact .read ih
  | write step _ ih => exact .write step ih
  | fetchAdd step _ ih => exact .fetchAdd step ih
  | call _ ih => exact .call ih
  | spin => exact .spin

theorem until_weaken {goal goal' : Prog C α → Heard C → Mem → Prop} {p : Prog C α}
    (first : Until answers R goal p heard m) (weaker : ∀ p heard m, goal p heard m → goal' p heard m) :
    Until answers R goal' p heard m := by
  induction first with
  | goal reached => exact .goal (weaker _ _ _ reached)
  | read _ ih => exact .read ih
  | write step _ ih => exact .write step ih
  | fetchAdd step _ ih => exact .fetchAdd step ih
  | call _ ih => exact .call ih
  | spin => exact .spin

theorem until_ends {goal : Prog C α → Heard C → Mem → Prop} {post : α → Mem → Prop} {p : Prog C α}
    (first : Until answers R goal p heard m) (ends : Ends answers post p m) :
    Until answers R (fun p heard m => goal p heard m ∧ Ends answers post p m) p heard m := by
  induction first with
  | goal reached => exact .goal ⟨reached, ends⟩
  | read _ ih => exact .read (ih (ends_move ends .read))
  | write step _ ih => exact .write step (ih (ends_move ends .write))
  | fetchAdd step _ ih => exact .fetchAdd step (ih (ends_move ends .fetchAdd))
  | call _ ih => exact .call fun r possible => ih r possible (ends_move ends (.call possible))
  | spin => exact .spin

/-- A program whose stores stay in a range keeps what every such store keeps. -/
theorem until_confined {K : Mem → Prop} {lo hi : Nat} {p : Prog C α} (confined : Confined lo hi p)
    (step : ∀ m o k v, K m → lo ≤ o → o + k ≤ hi → K (store m o k v) ∧ R m (store m o k v)) (holds : K m) :
    Until answers R (Returned fun _ heard' m' => K m' ∧ heard ⊆ heard') p heard m := by
  have along : ∀ heard' m', K m' → heard ⊆ heard' →
      Until answers R (Returned fun _ heard' m' => K m' ∧ heard ⊆ heard') p heard' m' := by
    induction p with
    | ret a => exact fun heard' m' holds more => until_ret ⟨holds, more⟩
    | read o k next ih => exact fun heard' m' holds more => .read (ih _ (confined _) heard' m' holds more)
    | write o k v next ih =>
      intro heard' m' holds more
      have moved := step m' o k v holds confined.1.1 confined.1.2
      exact .write moved.2 (ih confined.2 heard' _ moved.1 more)
    | fetchAdd o k d next ih =>
      intro heard' m' holds more
      have moved := step m' o k (load m' o k + d) holds confined.1.1 confined.1.2
      exact .fetchAdd moved.2 (ih _ (confined.2 _) heard' _ moved.1 more)
    | call c next ih =>
      intro heard' m' holds more
      refine .call fun r _ => ih r (confined r) _ m' holds ?_
      exact List.Subset.trans more (List.subset_append_left _ _)
    | spin => exact fun _ _ _ _ => .spin
  exact along heard m holds (List.Subset.refl heard)

/-- A program that stores nothing keeps to any relation that allows standing still. -/
theorem until_silent {p : Prog C α} (silent : Silent p) (still : R m m) :
    Until answers R (Returned fun _ heard' m' => m' = m ∧ heard ⊆ heard') p heard m := by
  refine until_confined (K := fun m' => m' = m) silent ?_ rfl
  rintro m' o k v rfl _ width
  obtain ⟨rfl, rfl⟩ := Nat.add_eq_zero_iff.mp (Nat.le_zero.mp width)
  rw [store_nothing]
  exact ⟨rfl, still⟩

/-- Loads that store nothing and call nothing pass by. -/
theorem until_bind_of_ret {goal : Prog C β → Heard C → Mem → Prop} {p : Prog C α} {f : α → Prog C β} {a : α}
    (value : burst m p = ([], ret a)) (rest : Until answers R goal (f a) heard m) :
    Until answers R goal (p >>= f) heard m := by
  induction p with
  | ret b =>
    cases value
    exact rest
  | read o n next ih => exact .read (ih _ value)
  | write o n v next ih => simp at value
  | fetchAdd o n d next ih => simp at value
  | call c next ih => simp at value
  | spin => simp at value

end Until

/-- What the program returns and finds at its end, when the memory moves along the relation before
    each of its loads. -/
def Sees (answers : C → Int → Prop) (R : Mem → Mem → Prop) (post : α → Mem → Prop) : Prog C α → Mem → Prop
  | .ret a, m => post a m
  | .read o n next, m => ∀ m', R m m' → Sees answers R post (next (load m' o n)) m'
  | .write _ n _ next, m => n = 0 ∧ Sees answers R post next m
  | .fetchAdd o n _ next, m => n = 0 ∧ ∀ m', R m m' → Sees answers R post (next (load m' o n)) m'
  | .call c next, m => ∀ r, answers c r → Sees answers R post (next r) m
  | .spin, _ => True

section Sees
variable {answers : C → Int → Prop} {R : Mem → Mem → Prop} {m m' : Mem}

theorem sees_ret {post : α → Mem → Prop} {a : α} (holds : post a m) : Sees answers R post (ret a : Prog C α) m := holds

theorem sees_of_ret {post : α → Mem → Prop} {a : α} (sees : Sees answers R post (ret a : Prog C α) m) : post a m := sees

theorem sees_read {post : α → Mem → Prop} {o n : Nat} {next : Nat → Prog C α}
    (all : ∀ m', R m m' → Sees answers R post (next (load m' o n)) m') : Sees answers R post (read o n next) m := all

theorem sees_call {post : α → Mem → Prop} {c : C} {next : Int → Prog C α}
    (all : ∀ r, answers c r → Sees answers R post (next r) m) : Sees answers R post (call c next) m := all

theorem sees_spin {post : α → Mem → Prop} : Sees answers R post (spin : Prog C α) m := trivial

theorem sees_bind {mid : α → Mem → Prop} {post : β → Mem → Prop} {p : Prog C α} {f : α → Prog C β}
    (first : Sees answers R mid p m) (second : ∀ a m', mid a m' → Sees answers R post (f a) m') :
    Sees answers R post (p >>= f) m := by
  induction p generalizing m with
  | ret a => exact second a m first
  | read o n next ih => exact fun m' reach => ih _ (first m' reach)
  | write o n v next ih => exact ⟨first.1, ih first.2⟩
  | fetchAdd o n d next ih => exact ⟨first.1, fun m' reach => ih _ (first.2 m' reach)⟩
  | call c next ih => exact fun r possible => ih r (first r possible)
  | spin => trivial

theorem sees_weaken {post post' : α → Mem → Prop} {p : Prog C α} (sees : Sees answers R post p m)
    (weaker : ∀ a m', post a m' → post' a m') : Sees answers R post' p m := by
  have bound := sees_bind (f := ret) sees fun a m' holds => sees_ret (weaker a m' holds)
  rwa [bind_ret] at bound

/-- A silent program keeps what the relation keeps. -/
theorem sees_silent {K : Mem → Prop} {p : Prog C α} (silent : Silent p) (keeps : ∀ m m', K m → R m m' → K m')
    (holds : K m) : Sees answers R (fun _ m' => K m') p m := by
  induction p generalizing m with
  | ret a => exact holds
  | read o n next ih => exact fun m' reach => ih _ (silent _) (keeps m m' holds reach)
  | write o n v next ih => exact ⟨(Nat.add_eq_zero_iff.mp (Nat.le_zero.mp silent.1.2)).2, ih silent.2 holds⟩
  | fetchAdd o n d next ih =>
    exact ⟨(Nat.add_eq_zero_iff.mp (Nat.le_zero.mp silent.1.2)).2,
      fun m' reach => ih _ (silent.2 _) (keeps m m' holds reach)⟩
  | call c next ih => exact fun r _ => ih r (silent r) holds
  | spin => trivial

/-- Moving the memory ahead of a program changes nothing for it. -/
theorem sees_later {P : α → Prop} {p : Prog C α} (trans : ∀ m m' m'', R m m' → R m' m'' → R m m'')
    (sees : Sees answers R (fun a _ => P a) p m) (reach : R m m') : Sees answers R (fun a _ => P a) p m' := by
  induction p with
  | ret a => exact sees
  | read o n next ih => exact fun m'' further => sees m'' (trans m m' m'' reach further)
  | write o n v next ih => exact ⟨sees.1, ih sees.2⟩
  | fetchAdd o n d next ih => exact ⟨sees.1, fun m'' further => sees.2 m'' (trans m m' m'' reach further)⟩
  | call c next ih => exact fun r possible => ih r (sees r possible)
  | spin => trivial

theorem sees_move {P : α → Prop} {p p' : Prog C α} {heard : Heard C}
    (sees : Sees answers R (fun a _ => P a) p m) (still : R m m) (move : Move answers p m heard p' m') :
    Sees answers R (fun a _ => P a) p' m := by
  cases move with
  | read => exact sees m still
  | write => exact sees.2
  | fetchAdd => exact sees.2 m still
  | call possible => exact sees _ possible

end Sees

attribute [irreducible] Sees

/-- At the goal, one store before it, or returned without it. -/
inductive Arrived (goal : Prog C α → Heard C → Mem → Prop) : Prog C α → Heard C → Mem → Prop where
  | reached {p : Prog C α} {heard : Heard C} {m : Mem} (reached : goal p heard m) : Arrived goal p heard m
  | arrives {o n v : Nat} {next : Prog C α} {heard : Heard C} {m : Mem} (arrives : goal next heard (store m o n v)) :
      Arrived goal (.write o n v next) heard m
  | returned {a : α} {heard : Heard C} {m : Mem} : Arrived goal (.ret a) heard m

section Refused
variable {answers : C → Int → Prop} {R : Mem → Mem → Prop} {goal : Prog C α → Heard C → Mem → Prop}
  (lasting : ∀ p heard m later p' m', goal p heard m → Move answers p m later p' m' → goal p' (heard ++ later) m')
include lasting

theorem until_move {p p' : Prog C α} {heard later : Heard C} {m m' : Mem}
    (climbs : Until answers R (Arrived goal) p heard m) (here : R m m) (move : Move answers p m later p' m') :
    goal p' (heard ++ later) m' ∨ (Until answers R (Arrived goal) p' (heard ++ later) m' ∧ R m m') := by
  cases climbs with
  | goal stops =>
    cases stops with
    | reached reached => exact Or.inl (lasting _ _ _ _ _ _ reached move)
    | arrives arrives =>
      cases move
      exact Or.inl (by rwa [List.append_nil])
    | returned => cases move
  | read rest =>
    cases move
    exact Or.inr ⟨by rwa [List.append_nil], here⟩
  | write step rest =>
    cases move
    exact Or.inr ⟨by rwa [List.append_nil], step⟩
  | fetchAdd step rest =>
    cases move
    exact Or.inr ⟨by rwa [List.append_nil], step⟩
  | call all =>
    cases move with
    | call possible => exact Or.inr ⟨all _ possible, here⟩
  | spin => cases move

/-- The writer is at its goal, or the reader can only end in a refusal. -/
theorem together_refused {P : β → Prop} {s s' : Pair C α β}
    (trans : ∀ m m' m'', R m m' → R m' m'' → R m m'') (still : ∀ m m', R m m' → R m' m')
    (climbs : Until answers R (Arrived goal) s.writer s.heard s.mem) (start : R s.mem s.mem)
    (sees : Sees answers R (fun b _ => P b) s.reader s.mem) (silent : Silent s.reader)
    (runs : Relation.ReflTransGen (Together answers) s s') :
    Silent s'.reader ∧ (goal s'.writer s'.heard s'.mem ∨ (Until answers R (Arrived goal) s'.writer s'.heard s'.mem ∧
      R s'.mem s'.mem ∧ Sees answers R (fun b _ => P b) s'.reader s'.mem)) := by
  induction runs with
  | refl => exact ⟨silent, Or.inr ⟨climbs, start, sees⟩⟩
  | tail _ step ih =>
    obtain ⟨silent, held⟩ := ih
    cases step with
    | reader move =>
      obtain ⟨quiet, same⟩ := silent_move silent move
      refine ⟨quiet, ?_⟩
      simp only [same]
      rcases held with reached | ⟨climbs, here, sees⟩
      · exact Or.inl reached
      · exact Or.inr ⟨climbs, here, sees_move sees here move⟩
    | writer move =>
      refine ⟨silent, ?_⟩
      rcases held with reached | ⟨climbs, here, sees⟩
      · exact Or.inl (lasting _ _ _ _ _ _ reached move)
      · rcases until_move lasting climbs here move with reached | ⟨climbs, reach⟩
        · exact Or.inl reached
        · exact Or.inr ⟨climbs, still _ _ reach, sees_later trans sees reach⟩

/-- A reader that gets in finds the writer at its goal. -/
theorem goal_of_accepted {P : β → Prop} {s s' : Pair C α β} {b : β}
    (trans : ∀ m m' m'', R m m' → R m' m'' → R m m'') (still : ∀ m m', R m m' → R m' m')
    (climbs : Until answers R (Arrived goal) s.writer s.heard s.mem) (start : R s.mem s.mem)
    (sees : Sees answers R (fun b _ => P b) s.reader s.mem) (silent : Silent s.reader)
    (runs : Relation.ReflTransGen (Together answers) s s') (returned : s'.reader = ret b) (accepted : ¬P b) :
    goal s'.writer s'.heard s'.mem := by
  rcases (together_refused lasting trans still climbs start sees silent runs).2 with reached | ⟨_, _, sees⟩
  · exact reached
  · rw [returned] at sees
    exact absurd (sees_of_ret sees) accepted

end Refused

end Program
