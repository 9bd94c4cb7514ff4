import OffsetStore.Lib.Program

/- Processes that share one memory. Between two of its calls a process runs without
   interruption; at a call the others may run. A process holds tokens; the invariant
   relates the tokens of all processes together to the memory. A program is proved
   once, for an arbitrary set of tokens held by the others, and the run rule then
   carries the invariant through every interleaving. -/
namespace Pool
open ByteMemory Program Prog
variable {C α β T : Type}

/-- The program keeps the invariant at each of its calls and at its end, whatever the
   others do at the calls; `post` speaks of the result and the tokens held then. -/
def Safe (Inv : Set T → Mem → Prop) (post : α → Set T → Prop) : Prog C α → Set T → Mem → Prop
  | .ret a, frame, m => ∃ own, Disjoint own frame ∧ Inv (own ∪ frame) m ∧ post a own
  | .read o n next, frame, m => Safe Inv post (next (load m o n)) frame m
  | .write o n v next, frame, m => Safe Inv post next frame (store m o n v)
  | .fetchAdd o n d next, frame, m => ∃ own, Disjoint own frame ∧ Inv (own ∪ frame) m ∧
      ∀ frame' m', Disjoint own frame' → Inv (own ∪ frame') m' →
        Safe Inv post (next (load m' o n)) frame' (store m' o n (load m' o n + d))
  | .call _ next, frame, m => ∃ own, Disjoint own frame ∧ Inv (own ∪ frame) m ∧
      ∀ r frame' m', Disjoint own frame' → Inv (own ∪ frame') m' → Safe Inv post (next r) frame' m'
  | .spin, frame, m => ∃ own, Disjoint own frame ∧ Inv (own ∪ frame) m

structure Ready (Inv : Set T → Mem → Prop) (post : α → Set T → Prop) (own : Set T)
    (p : Prog C α) : Prop where
  safe : ∀ frame m, Disjoint own frame → Inv (own ∪ frame) m → Safe Inv post p frame m

section Rules
variable {Inv : Set T → Mem → Prop} {post : α → Set T → Prop} {own : Set T}

theorem safe_burst (p : Prog C α) (frame : Set T) (m : Mem) :
    Safe Inv post p frame m ↔
      Safe Inv post (burst m p).2 frame (applyStores m (burst m p).1) := by
  induction p generalizing m with
  | read o n next ih => exact ih _ m
  | write o n v next ih => exact ih _
  | _ => exact Iff.rfl

theorem ready_ret {a : α} (holds : post a own) : Ready Inv post own (ret a : Prog C α) :=
  ⟨fun _ _ apart inv => ⟨own, apart, inv, holds⟩⟩

theorem ready_spin : Ready Inv post own (spin : Prog C α) :=
  ⟨fun _ _ apart inv => ⟨own, apart, inv⟩⟩

theorem ready_call {c : C} {next : Int → Prog C α} (all : ∀ r, Ready Inv post own (next r)) :
    Ready Inv post own (call c next) :=
  ⟨fun _ _ apart inv =>
    ⟨own, apart, inv, fun r frame m apart inv => (all r).safe frame m apart inv⟩⟩

/-- A burst followed by a program that is ready for the tokens held after it. -/
theorem ready_of_burst {p : Prog C α}
    (step : ∀ frame m, Disjoint own frame → Inv (own ∪ frame) m → ∃ own', Disjoint own' frame ∧
      Inv (own' ∪ frame) (applyStores m (burst m p).1) ∧ Ready Inv post own' (burst m p).2) :
    Ready Inv post own p := by
  refine ⟨fun frame m apart inv => ?_⟩
  obtain ⟨own', apart', inv', next⟩ := step frame m apart inv
  exact (safe_burst p frame m).mpr (next.safe _ _ apart' inv')

/-- A prefix that only loads, and whose outcome the invariant settles, may be skipped. -/
theorem ready_skip {p q : Prog C α}
    (same : ∀ frame m, Disjoint own frame → Inv (own ∪ frame) m → burst m p = burst m q)
    (ready : Ready Inv post own q) : Ready Inv post own p := by
  refine ⟨fun frame m apart inv => ?_⟩
  have safe := (safe_burst q frame m).mp (ready.safe frame m apart inv)
  rw [← same frame m apart inv] at safe
  exact (safe_burst p frame m).mpr safe

/-- An atomic addition, after which the memory may carry other tokens. -/
theorem ready_fetchAdd {o n d : Nat} {next : Nat → Prog C α}
    (step : ∀ frame m, Disjoint own frame → Inv (own ∪ frame) m → ∃ own', Disjoint own' frame ∧
      Inv (own' ∪ frame) (store m o n (load m o n + d)) ∧ Ready Inv post own' (next (load m o n))) :
    Ready Inv post own (fetchAdd o n d next) := by
  refine ⟨fun _ _ apart inv => ⟨own, apart, inv, fun frame m apart inv => ?_⟩⟩
  obtain ⟨own', apart', inv', ready⟩ := step frame m apart inv
  exact ready.safe frame _ apart' inv'

theorem ready_read {o n : Nat} {next : Nat → Prog C α}
    (all : ∀ frame m, Disjoint own frame → Inv (own ∪ frame) m →
      Ready Inv post own (next (load m o n))) : Ready Inv post own (read o n next) :=
  ⟨fun frame m apart inv => (all frame m apart inv).safe frame m apart inv⟩

theorem safe_bind {p : Prog C β} {f : β → Prog C α} {mid : β → Set T → Prop} {frame : Set T} {m : Mem}
    (first : Safe Inv mid p frame m) (second : ∀ b own, mid b own → Ready Inv post own (f b)) :
    Safe Inv post (p >>= f) frame m := by
  induction p generalizing frame m with
  | ret b =>
    obtain ⟨own, apart, inv, holds⟩ := first
    exact (second b own holds).safe frame m apart inv
  | read o n next ih => exact ih _ first
  | write o n v next ih => exact ih first
  | fetchAdd o n d next ih =>
    obtain ⟨own, apart, inv, rest⟩ := first
    exact ⟨own, apart, inv, fun frame' m' apart' inv' => ih _ (rest frame' m' apart' inv')⟩
  | call c next ih =>
    obtain ⟨own, apart, inv, rest⟩ := first
    exact ⟨own, apart, inv, fun r frame' m' apart' inv' => ih r (rest r frame' m' apart' inv')⟩
  | spin => exact first

theorem ready_bind {p : Prog C β} {f : β → Prog C α} {mid : β → Set T → Prop}
    (first : Ready Inv mid own p) (second : ∀ b own', mid b own' → Ready Inv post own' (f b)) :
    Ready Inv post own (p >>= f) :=
  ⟨fun frame m apart inv => safe_bind (first.safe frame m apart inv) second⟩

theorem ready_weaken {post' : α → Set T → Prop} {p : Prog C α} (ready : Ready Inv post own p)
    (weaker : ∀ a own, post a own → post' a own) : Ready Inv post' own p := by
  have bound := ready_bind (f := ret) ready (fun a own holds => ready_ret (weaker a own holds))
  rwa [bind_ret] at bound

/-- The tokens are exchanged for others that the same memory carries. -/
theorem ready_exchange {p : Prog C α}
    (step : ∀ frame m, Disjoint own frame → Inv (own ∪ frame) m → ∃ own', Disjoint own' frame ∧
      Inv (own' ∪ frame) m ∧ Ready Inv post own' p) : Ready Inv post own p := by
  refine ⟨fun frame m apart inv => ?_⟩
  obtain ⟨own', apart', inv', ready⟩ := step frame m apart inv
  exact ready.safe frame m apart' inv'

/-- A store after which the memory carries other tokens. -/
theorem ready_store {o n v : Nat} {next : Prog C α} {own' : Set T}
    (step : ∀ frame m, Disjoint own frame → Inv (own ∪ frame) m → Disjoint own' frame ∧
      Inv (own' ∪ frame) (store m o n v)) (ready : Ready Inv post own' next) :
    Ready Inv post own (write o n v next) := by
  refine ⟨fun frame m apart inv => ?_⟩
  obtain ⟨apart', inv'⟩ := step frame m apart inv
  exact ready.safe frame (store m o n v) apart' inv'

theorem safe_frame {p : Prog C α} {extra frame : Set T} {m : Mem} (apart : Disjoint extra frame)
    (safe : Safe Inv post p (extra ∪ frame) m) :
    Safe Inv (fun a held => ∃ own, post a own ∧ Disjoint own extra ∧ held = own ∪ extra) p frame m := by
  -- the tokens of the process, with the extra ones among them
  have split : ∀ {own frame : Set T} {m : Mem}, Disjoint extra frame → Disjoint own (extra ∪ frame) →
      Inv (own ∪ (extra ∪ frame)) m →
      Disjoint own extra ∧ Disjoint (own ∪ extra) frame ∧ Inv (own ∪ extra ∪ frame) m := by
    intro own frame m out away inv
    rw [Set.disjoint_union_right] at away
    rw [Set.disjoint_union_left, Set.union_assoc]
    exact ⟨away.1, ⟨away.2, out⟩, inv⟩
  have merge : ∀ {own frame : Set T} {m : Mem}, Disjoint own extra → Disjoint (own ∪ extra) frame →
      Inv (own ∪ extra ∪ frame) m →
      Disjoint extra frame ∧ Disjoint own (extra ∪ frame) ∧ Inv (own ∪ (extra ∪ frame)) m := by
    intro own frame m away out inv
    rw [Set.disjoint_union_left] at out
    rw [Set.disjoint_union_right, ← Set.union_assoc]
    exact ⟨out.2, ⟨away, out.1⟩, inv⟩
  induction p generalizing frame m with
  | ret a =>
    obtain ⟨own, away, inv, holds⟩ := safe
    obtain ⟨inner, outer, inv⟩ := split apart away inv
    exact ⟨own ∪ extra, outer, inv, own, holds, inner, rfl⟩
  | read o n next ih => exact ih _ apart safe
  | write o n v next ih => exact ih apart safe
  | fetchAdd o n d next ih =>
    obtain ⟨own, away, inv, rest⟩ := safe
    obtain ⟨inner, outer, inv⟩ := split apart away inv
    refine ⟨own ∪ extra, outer, inv, fun frame' m' out inv' => ?_⟩
    obtain ⟨apart', away', inv'⟩ := merge inner out inv'
    exact ih _ apart' (rest _ m' away' inv')
  | call c next ih =>
    obtain ⟨own, away, inv, rest⟩ := safe
    obtain ⟨inner, outer, inv⟩ := split apart away inv
    refine ⟨own ∪ extra, outer, inv, fun r frame' m' out inv' => ?_⟩
    obtain ⟨apart', away', inv'⟩ := merge inner out inv'
    exact ih r apart' (rest r _ m' away' inv')
  | spin =>
    obtain ⟨own, away, inv⟩ := safe
    obtain ⟨_, outer, inv⟩ := split apart away inv
    exact ⟨own ∪ extra, outer, inv⟩

/-- The frame rule: tokens that the program does not use stay with it. -/
theorem ready_frame {p : Prog C α} {extra : Set T} (ready : Ready Inv post own p) (apart : Disjoint own extra) :
    Ready Inv (fun a held => ∃ own', post a own' ∧ Disjoint own' extra ∧ held = own' ∪ extra) (own ∪ extra) p := by
  refine ⟨fun frame m out inv => ?_⟩
  rw [Set.disjoint_union_left] at out
  refine safe_frame out.2 (ready.safe (extra ∪ frame) m ?_ ?_)
  · rw [Set.disjoint_union_right]
    exact ⟨apart, out.1⟩
  · rw [← Set.union_assoc]
    exact inv

/-- An environment that gives some answers only is one of the environments. -/
theorem ready_assume {fixed : C → Bool} {p : Prog C α} (ready : Ready Inv post own p) :
    Ready Inv post own (assume fixed p) := by
  have safe : ∀ (p : Prog C α) frame m, Safe Inv post p frame m → Safe Inv post (assume fixed p) frame m := by
    intro p
    induction p with
    | ret a => exact fun _ _ safe => safe
    | read o n next ih => exact fun frame m safe => ih _ frame m safe
    | write o n v next ih => exact fun frame m safe => ih frame _ safe
    | fetchAdd o n d next ih =>
      rintro frame m ⟨own, apart, inv, rest⟩
      exact ⟨own, apart, inv, fun frame' m' apart' inv' => ih _ _ _ (rest frame' m' apart' inv')⟩
    | call c next ih =>
      rintro frame m ⟨own, apart, inv, rest⟩
      exact ⟨own, apart, inv, fun r frame' m' apart' inv' => ih _ _ _ (rest _ frame' m' apart' inv')⟩
    | spin => exact fun _ _ safe => safe
  exact ⟨fun frame m apart inv => safe p frame m (ready.safe frame m apart inv)⟩

/-- What holds of an attempt that has a result holds of the program. -/
theorem ready_of_attempt {p : Prog C α} {mid : Option α → Set T → Prop}
    (ready : Ready Inv mid own (attempt p)) (result : ∀ a own, mid (some a) own → post a own) :
    Ready Inv post own p := by
  have safe : ∀ (p : Prog C α) frame m, Safe Inv mid (attempt p) frame m → Safe Inv post p frame m := by
    intro p
    induction p with
    | ret a =>
      rintro frame m ⟨own, apart, inv, holds⟩
      exact ⟨own, apart, inv, result a own holds⟩
    | read o n next ih => exact fun frame m safe => ih _ frame m safe
    | write o n v next ih => exact fun frame m safe => ih frame _ safe
    | fetchAdd o n d next ih =>
      rintro frame m ⟨own, apart, inv, rest⟩
      exact ⟨own, apart, inv, fun frame' m' apart' inv' => ih _ _ _ (rest frame' m' apart' inv')⟩
    | call c next ih =>
      rintro frame m ⟨own, apart, inv, rest⟩
      exact ⟨own, apart, inv, fun r frame' m' apart' inv' => ih r _ _ (rest r frame' m' apart' inv')⟩
    | spin =>
      rintro frame m ⟨own, apart, inv, _⟩
      exact ⟨own, apart, inv⟩
  exact ⟨fun frame m apart inv => safe p frame m (ready.safe frame m apart inv)⟩

/-- An uninterrupted run with the tokens of the others fixed. -/
theorem safe_exec {p : Prog C α} {frame : Set T} {m m' : Mem} {a : α}
    (safe : Safe Inv post p frame m) (run : p.exec m = some (a, m')) :
    ∃ own, Disjoint own frame ∧ Inv (own ∪ frame) m' ∧ post a own := by
  induction p generalizing m with
  | ret b =>
    simp only [exec_ret, Option.some.injEq, Prod.mk.injEq] at run
    rw [← run.1, ← run.2]
    exact safe
  | read o n next ih => exact ih _ safe run
  | write o n v next ih => exact ih safe run
  | fetchAdd o n d next ih =>
    obtain ⟨own, apart, inv, rest⟩ := safe
    exact ih _ (rest frame m apart inv) run
  | call c next ih =>
    obtain ⟨own, apart, inv, rest⟩ := safe
    exact ih 0 (rest 0 frame m apart inv) run
  | spin => simp at run

end Rules

/-- One turn: the pending call is answered by r, then the process runs up to its
   next call. The atomic addition is a turn of its own. -/
def turn (r : Int) (m : Mem) : Prog C α → Mem × Prog C α
  | call _ next => (applyStores m (burst m (next r)).1, (burst m (next r)).2)
  | fetchAdd o n d next =>
      let m' := store m o n (load m o n + d)
      (applyStores m' (burst m' (next (load m o n))).1, (burst m' (next (load m o n))).2)
  | p => (applyStores m (burst m p).1, (burst m p).2)

@[simp] theorem turn_call (r : Int) (m : Mem) (c : C) (next : Int → Prog C α) :
    turn r m (call c next) = (applyStores m (burst m (next r)).1, (burst m (next r)).2) := rfl

/-- Nothing but calls is left before the result. -/
def Leaves (a : α) : Prog C α → Prop
  | .ret b => b = a
  | .call _ next => ∀ r, Leaves a (next r)
  | _ => False

/-- The code is a few calls away from the target. -/
inductive Approaches (target : Prog C α) : Prog C α → Prop where
  | here : Approaches target target
  | step {c : C} {next : Int → Prog C α} (all : ∀ r, Approaches target (next r)) : Approaches target (call c next)

theorem Leaves.burst {a : α} {code : Prog C α} (leaves : Leaves a code) (m : Mem) : burst m code = ([], code) := by
  cases code with
  | ret b => rfl
  | call c next => rfl
  | read => exact leaves.elim
  | write => exact leaves.elim
  | fetchAdd => exact leaves.elim
  | spin => exact leaves.elim

theorem Leaves.turn {a : α} {code : Prog C α} (leaves : Leaves a code) (r : Int) (m : Mem) :
    (turn r m code).1 = m ∧ Leaves a (turn r m code).2 := by
  cases code with
  | ret b => exact ⟨rfl, leaves⟩
  | call c next =>
    rw [turn_call, Leaves.burst (leaves r) m]
    exact ⟨rfl, leaves r⟩
  | read => exact leaves.elim
  | write => exact leaves.elim
  | fetchAdd => exact leaves.elim
  | spin => exact leaves.elim

theorem Leaves.unique {a b : α} {code : Prog C α} (first : Leaves a code) (second : Leaves b code) : a = b := by
  induction code with
  | ret c => exact Eq.trans (Eq.symm first) second
  | call c next ih => exact ih 0 (first 0) (second 0)
  | read => exact first.elim
  | write => exact first.elim
  | fetchAdd => exact first.elim
  | spin => exact first.elim

theorem Approaches.not_leaves {a : α} {target code : Prog C α} (near : Approaches target code)
    (busy : ¬Leaves a target) : ¬Leaves a code := by
  induction near with
  | here => exact busy
  | step all ih => exact fun leaves => ih 0 (leaves 0)

/-- A turn of code that approaches the target comes nearer, or runs the target. -/
theorem Approaches.turn {target code : Prog C α} (near : Approaches target code) (r : Int) {m : Mem}
    (own : turn r m target = (applyStores m (burst m target).1, (burst m target).2)) :
    ((turn r m code).1 = m ∧ Approaches target (turn r m code).2) ∨
    turn r m code = (applyStores m (burst m target).1, (burst m target).2) := by
  cases near with
  | here => exact Or.inr own
  | step all =>
    rw [turn_call]
    rename_i c next
    have there := all r
    generalize next r = code at there ⊢
    cases there with
    | here => exact Or.inr rfl
    | step all => exact Or.inl ⟨rfl, .step all⟩

theorem safe_stopped {Inv : Set T → Mem → Prop} {post : α → Set T → Prop} {q : Prog C α} {frame : Set T}
    {m : Mem} (safe : Safe Inv post (burst m q).2 frame (applyStores m (burst m q).1)) :
    ∃ own, Disjoint own frame ∧ Inv (own ∪ frame) (applyStores m (burst m q).1) ∧
      Ready Inv post own (burst m q).2 := by
  induction q generalizing m with
  | ret a =>
    obtain ⟨own, apart, inv, holds⟩ := safe
    exact ⟨own, apart, inv, ready_ret holds⟩
  | read o n next ih => exact ih _ safe
  | write o n v next ih => exact ih safe
  | fetchAdd o n d next ih =>
    obtain ⟨own, apart, inv, rest⟩ := safe
    exact ⟨own, apart, inv, ⟨fun _ _ apart' inv' => ⟨own, apart', inv', rest⟩⟩⟩
  | call c next ih =>
    obtain ⟨own, apart, inv, rest⟩ := safe
    exact ⟨own, apart, inv, ⟨fun _ _ apart' inv' => ⟨own, apart', inv', rest⟩⟩⟩
  | spin =>
    obtain ⟨own, apart, inv⟩ := safe
    exact ⟨own, apart, inv, ready_spin⟩

theorem ready_turn {Inv : Set T → Mem → Prop} {post : α → Set T → Prop} {own frame : Set T}
    {p : Prog C α} (ready : Ready Inv post own p) (r : Int) {m : Mem} (apart : Disjoint own frame)
    (inv : Inv (own ∪ frame) m) :
    ∃ own', Disjoint own' frame ∧ Inv (own' ∪ frame) (turn r m p).1 ∧
      Ready Inv post own' (turn r m p).2 := by
  have safe := ready.safe frame m apart inv
  cases p with
  | call c next =>
    obtain ⟨own', apart', inv', rest⟩ := safe
    exact safe_stopped ((safe_burst _ _ _).mp (rest r frame m apart' inv'))
  | fetchAdd o n d next =>
    obtain ⟨own', apart', inv', rest⟩ := safe
    exact safe_stopped ((safe_burst _ _ _).mp (rest frame m apart' inv'))
  | ret a => exact safe_stopped ((safe_burst _ _ _).mp safe)
  | read o n next => exact safe_stopped ((safe_burst _ _ _).mp safe)
  | write o n v next => exact safe_stopped ((safe_burst _ _ _).mp safe)
  | spin => exact safe_stopped ((safe_burst _ _ _).mp safe)

/-- A pool of processes: the memory, what the clients know about it, and the calls
   in progress. -/
structure State (C α K Req : Type) where
  mem : Mem
  client : K
  active : Nat → Option (Req × Prog C α)

/-- What the processes run and how the clients' knowledge follows the calls. -/
structure Rules (C α K Req : Type) where
  code : Nat → Req → Prog C α
  start : K → Req → K → Prop
  finish : K → Nat → Req → α → K → Prop
  writable : K → Nat → Nat → Prop

variable {K Req : Type}

inductive Step (R : Rules C α K Req) : State C α K Req → State C α K Req → Prop where
  | call {st} (p : Nat) (req : Req) (k : K) (idle : st.active p = none)
      (may : R.start st.client req k) :
      Step R st ⟨st.mem, k, Function.update st.active p (some (req, R.code p req))⟩
  | turn {st} (p : Nat) (r : Int) {req : Req} {q : Prog C α} (busy : st.active p = some (req, q)) :
      Step R st ⟨(turn r st.mem q).1, st.client,
        Function.update st.active p (some (req, (turn r st.mem q).2))⟩
  | finish {st} (p : Nat) {req : Req} {a : α} (k : K) (busy : st.active p = some (req, ret a))
      (result : R.finish st.client p req a k) :
      Step R st ⟨st.mem, k, Function.update st.active p none⟩
  | write {st} (o n v : Nat) (may : R.writable st.client o n) :
      Step R st ⟨store st.mem o n v, st.client, st.active⟩

inductive Reachable (R : Rules C α K Req) (start : State C α K Req) : State C α K Req → Prop where
  | refl : Reachable R start start
  | step {st st'} (before : Reachable R start st) (next : Step R st st') : Reachable R start st'

/-- A call and its first turn. -/
theorem reachable_call {R : Rules C α K Req} {start st : State C α K Req} (before : Reachable R start st)
    {p : Nat} {req : Req} {k : K} (idle : st.active p = none) (may : R.start st.client req k) (r : Int) :
    Reachable R start ⟨(turn r st.mem (R.code p req)).1, k,
      Function.update st.active p (some (req, (turn r st.mem (R.code p req)).2))⟩ := by
  have called := before.step (Step.call p req k idle may)
  have busy : Function.update st.active p (some (req, R.code p req)) p = some (req, R.code p req) :=
    Function.update_self ..
  have turned : Step R ⟨st.mem, k, Function.update st.active p (some (req, R.code p req))⟩ _ :=
    Step.turn p r busy
  simpa only [Function.update_idem] using called.step turned

/-- A process that has run up to its next call goes on alone to its result. -/
theorem reachable_alone {R : Rules C α K Req} {start : State C α K Req} {p : Nat} {req : Req} {a : α} {m' : Mem}
    {k : K} (q : Prog C α) (m : Mem) (active : Nat → Option (Req × Prog C α))
    (before : Reachable R start ⟨applyStores m (burst m q).1, k, Function.update active p (some (req, (burst m q).2))⟩)
    (run : exec q m = some (a, m')) :
    Reachable R start ⟨m', k, Function.update active p (some (req, ret a))⟩ := by
  induction q generalizing m with
  | ret b =>
    obtain ⟨rfl, rfl⟩ := Prod.mk.inj (Option.some.inj run)
    exact before
  | read o n next ih => exact ih _ m before run
  | write o n v next ih => exact ih _ before run
  | fetchAdd o n d next ih =>
    have turned := before.step (Step.turn p 0 (Function.update_self ..))
    simp only [Function.update_idem] at turned
    exact ih _ _ turned run
  | call c next ih =>
    have turned := before.step (Step.turn p 0 (Function.update_self ..))
    simp only [Function.update_idem] at turned
    exact ih 0 m turned run
  | spin => simp at run

/-- A call in progress that is interrupted no more returns. -/
theorem reachable_finish {R : Rules C α K Req} {start st : State C α K Req} (before : Reachable R start st)
    {p : Nat} {req : Req} {k : K} {q : Prog C α} (busy : st.active p = some (req, q)) {a : α} {m' : Mem}
    (run : exec q st.mem = some (a, m')) (result : R.finish st.client p req a k) :
    Reachable R start ⟨m', k, Function.update st.active p none⟩ := by
  have same : Function.update st.active p (some (req, q)) = st.active := by rw [← busy, Function.update_eq_self]
  have ended : Reachable R start ⟨m', st.client, Function.update st.active p (some (req, ret a))⟩ := by
    refine reachable_alone q st.mem st.active ?_ run
    cases kind : q with
    | call c next =>
      rw [kind] at same
      simp only [burst, applyStores_nil, same]
      exact before
    | fetchAdd o n d next =>
      rw [kind] at same
      simp only [burst, applyStores_nil, same]
      exact before
    | _ =>
      rw [kind] at busy
      exact before.step (Step.turn p 0 busy)
  have finished := ended.step (Step.finish p k (Function.update_self ..) result)
  simpa only [Function.update_idem] using finished

theorem reachable_return {R : Rules C α K Req} {start st : State C α K Req} (before : Reachable R start st)
    {p : Nat} {req : Req} {k k' : K} (idle : st.active p = none) (may : R.start st.client req k) {a : α} {m' : Mem}
    (run : exec (R.code p req) st.mem = some (a, m')) (result : R.finish k p req a k') :
    Reachable R start ⟨m', k', Function.update st.active p none⟩ := by
  have finished := reachable_finish (before.step (Step.call p req k idle may)) (Function.update_self ..) run result
  simpa only [Function.update_idem] using finished

/-- The obligations of a pool: a call may take its tokens out of what the clients
   hold, returns with its tokens, and client writes respect the invariant. -/
structure Sound (R : Rules C α K Req) (Inv : Set T → Mem → Prop) (Owns : K → Set T → Prop)
    (post : Nat → Req → α → Set T → Prop) : Prop where
  start : ∀ {k k' req held rest m}, R.start k req k' → Owns k held → Disjoint held rest →
    Inv (held ∪ rest) m → ∃ own held', own ∪ held' = held ∧ Disjoint own held' ∧ Owns k' held' ∧
      ∀ p, Ready Inv (post p req) own (R.code p req)
  finish : ∀ {k k' p req a own held rest m}, post p req a own → R.finish k p req a k' → Owns k held →
    Disjoint own held → Inv (own ∪ held ∪ rest) m → Owns k' (own ∪ held)
  write : ∀ {k o n v held rest m}, R.writable k o n → Owns k held → Inv (held ∪ rest) m →
    Inv (held ∪ rest) (store m o n v)

def others (held : Set T) (own : Nat → Set T) (p : Nat) : Set T :=
  held ∪ {t | ∃ q, q ≠ p ∧ t ∈ own q}

def total (held : Set T) (own : Nat → Set T) : Set T := held ∪ {t | ∃ q, t ∈ own q}

/-- The invariant of a pool: the tokens held by clients and by calls are apart, every
   call in progress is ready to go on, and the memory carries all tokens. -/
structure Good (Inv : Set T → Mem → Prop) (Owns : K → Set T → Prop)
    (post : Nat → Req → α → Set T → Prop) (st : State C α K Req) (held : Set T)
    (own : Nat → Set T) : Prop where
  owns : Owns st.client held
  idle : ∀ p, st.active p = none → own p = ∅
  ready : ∀ p req q, st.active p = some (req, q) → Ready Inv (post p req) (own p) q
  apart : ∀ p q, p ≠ q → Disjoint (own p) (own q)
  clients : ∀ p, Disjoint (own p) held
  inv : Inv (total held own) st.mem

section Run
variable {held : Set T} {own : Nat → Set T}

theorem total_split (held : Set T) (own : Nat → Set T) (p : Nat) :
    total held own = own p ∪ others held own p := by
  ext t
  simp only [total, others, Set.mem_union, Set.mem_ofPred_eq]
  constructor
  · rintro (mem | ⟨q, mem⟩)
    · exact Or.inr (Or.inl mem)
    · by_cases same : q = p
      · exact Or.inl (same ▸ mem)
      · exact Or.inr (Or.inr ⟨q, same, mem⟩)
  · rintro (mem | mem | ⟨q, _, mem⟩)
    · exact Or.inr ⟨p, mem⟩
    · exact Or.inl mem
    · exact Or.inr ⟨q, mem⟩

theorem others_update (held : Set T) (own : Nat → Set T) (p : Nat) (x : Set T) :
    others held (Function.update own p x) p = others held own p := by
  ext t
  simp only [others, Set.mem_union, Set.mem_ofPred_eq]
  constructor
  · rintro (mem | ⟨q, other, mem⟩)
    · exact Or.inl mem
    · rw [Function.update_of_ne other] at mem
      exact Or.inr ⟨q, other, mem⟩
  · rintro (mem | ⟨q, other, mem⟩)
    · exact Or.inl mem
    · refine Or.inr ⟨q, other, ?_⟩
      rw [Function.update_of_ne other]
      exact mem

theorem total_update (held : Set T) (own : Nat → Set T) (p : Nat) (x : Set T) :
    total held (Function.update own p x) = x ∪ others held own p := by
  rw [total_split held _ p, others_update, Function.update_self]

variable {R : Rules C α K Req} {Inv : Set T → Mem → Prop} {Owns : K → Set T → Prop}
  {post : Nat → Req → α → Set T → Prop} {st st' : State C α K Req}

theorem Good.others_apart (good : Good Inv Owns post st held own) (p : Nat) :
    Disjoint (own p) (others held own p) := by
  rw [Set.disjoint_left]
  rintro t mine (mem | ⟨q, other, mem⟩)
  · exact Set.disjoint_left.mp (good.clients p) mine mem
  · exact Set.disjoint_left.mp (good.apart p q (Ne.symm other)) mine mem

/-- The tokens of one process change; the others keep theirs. -/
theorem update_apart (apart : ∀ p q, p ≠ q → Disjoint (own p) (own q)) {p : Nat} {x : Set T}
    (fresh : ∀ q, q ≠ p → Disjoint x (own q)) :
    ∀ i j, i ≠ j → Disjoint (Function.update own p x i) (Function.update own p x j) := by
  intro i j other
  by_cases hi : i = p
  · subst hi
    rw [Function.update_self, Function.update_of_ne (Ne.symm other)]
    exact fresh j (Ne.symm other)
  · rw [Function.update_of_ne hi]
    by_cases hj : j = p
    · subst hj
      rw [Function.update_self]
      exact (fresh i hi).symm
    · rw [Function.update_of_ne hj]
      exact apart i j other

theorem disjoint_others {p : Nat} {x : Set T} (apart : Disjoint x (others held own p)) :
    Disjoint x held ∧ ∀ q, q ≠ p → Disjoint x (own q) := by
  rw [Set.disjoint_left] at apart
  refine ⟨?_, ?_⟩
  · rw [Set.disjoint_left]
    intro t mine mem
    exact apart mine (Or.inl mem)
  · intro q other
    rw [Set.disjoint_left]
    intro t mine mem
    exact apart mine (Or.inr ⟨q, other, mem⟩)

theorem good_call (sound : Sound R Inv Owns post) (good : Good Inv Owns post st held own) {p : Nat}
    {req : Req} {k : K} (idle : st.active p = none) (may : R.start st.client req k) :
    ∃ held' own', Good Inv Owns post
      ⟨st.mem, k, Function.update st.active p (some (req, R.code p req))⟩ held' own' := by
  have rest : Disjoint held {t | ∃ q, t ∈ own q} := by
    rw [Set.disjoint_left]
    rintro t mem ⟨q, mine⟩
    exact Set.disjoint_left.mp (good.clients q) mine mem
  obtain ⟨taken, held', whole, apart, owns, ready⟩ := sound.start may good.owns rest good.inv
  have left : taken ⊆ held := whole ▸ Set.subset_union_left
  have right : held' ⊆ held := whole ▸ Set.subset_union_right
  have empty := good.idle p idle
  refine ⟨held', Function.update own p taken, owns, ?_, ?_, ?_, ?_, ?_⟩
  · intro q (free : Function.update st.active p _ q = none)
    by_cases same : q = p
    · subst same
      simp at free
    · rw [Function.update_of_ne same] at free ⊢
      exact good.idle q free
  · intro q req' prog (busy : Function.update st.active p _ q = _)
    by_cases same : q = p
    · subst same
      simp only [Function.update_self, Option.some.injEq, Prod.mk.injEq] at busy
      rw [← busy.1, ← busy.2, Function.update_self]
      exact ready q
    · rw [Function.update_of_ne same] at busy ⊢
      exact good.ready q req' prog busy
  · exact update_apart good.apart (fun q _ => ((good.clients q).mono_right left).symm)
  · intro q
    by_cases same : q = p
    · subst same
      rw [Function.update_self]
      exact apart
    · rw [Function.update_of_ne same]
      exact (good.clients q).mono_right right
  · have same : total held' (Function.update own p taken) = total held own := by
      rw [total_update, total_split held own p, empty, Set.empty_union]
      simp only [others, ← Set.union_assoc, whole]
    rw [same]
    exact good.inv

theorem good_turn (good : Good Inv Owns post st held own) {p : Nat} (r : Int) {req : Req}
    {q : Prog C α} (busy : st.active p = some (req, q)) :
    ∃ own', Good Inv Owns post ⟨(turn r st.mem q).1, st.client,
      Function.update st.active p (some (req, (turn r st.mem q).2))⟩ held own' := by
  have apart := good.others_apart p
  have inv := good.inv
  rw [total_split held own p] at inv
  obtain ⟨x, apart', inv', ready⟩ := ready_turn (good.ready p req q busy) r apart inv
  obtain ⟨client, fresh⟩ := disjoint_others apart'
  refine ⟨Function.update own p x, good.owns, ?_, ?_, update_apart good.apart fresh, ?_, ?_⟩
  · intro i (free : Function.update st.active p _ i = none)
    by_cases same : i = p
    · subst same
      simp at free
    · rw [Function.update_of_ne same] at free ⊢
      exact good.idle i free
  · intro i req' prog (busy' : Function.update st.active p _ i = _)
    by_cases same : i = p
    · subst same
      simp only [Function.update_self, Option.some.injEq, Prod.mk.injEq] at busy'
      rw [← busy'.1, ← busy'.2, Function.update_self]
      exact ready
    · rw [Function.update_of_ne same] at busy' ⊢
      exact good.ready i req' prog busy'
  · intro i
    by_cases same : i = p
    · subst same
      rw [Function.update_self]
      exact client
    · rw [Function.update_of_ne same]
      exact good.clients i
  · rw [total_update]
    exact inv'

theorem good_finish (sound : Sound R Inv Owns post) (good : Good Inv Owns post st held own) {p : Nat}
    {req : Req} {a : α} {k : K} (busy : st.active p = some (req, ret a))
    (result : R.finish st.client p req a k) :
    ∃ held' own', Good Inv Owns post ⟨st.mem, k, Function.update st.active p none⟩ held' own' := by
  have apart := good.others_apart p
  have inv := good.inv
  rw [total_split held own p] at inv
  obtain ⟨x, apart', inv', holds⟩ := (good.ready p req (ret a) busy).safe _ _ apart inv
  obtain ⟨client, fresh⟩ := disjoint_others apart'
  have whole : x ∪ held ∪ {t | ∃ q, q ≠ p ∧ t ∈ own q} = x ∪ others held own p := by
    simp only [others, Set.union_assoc]
  have owns := sound.finish holds result good.owns client (whole ▸ inv')
  refine ⟨x ∪ held, Function.update own p ∅, owns, ?_, ?_, ?_, ?_, ?_⟩
  · intro i (free : Function.update st.active p _ i = none)
    by_cases same : i = p
    · subst same
      rw [Function.update_self]
    · rw [Function.update_of_ne same] at free ⊢
      exact good.idle i free
  · intro i req' prog (busy' : Function.update st.active p _ i = _)
    by_cases same : i = p
    · subst same
      simp at busy'
    · rw [Function.update_of_ne same] at busy' ⊢
      exact good.ready i req' prog busy'
  · exact update_apart good.apart (fun q _ => Set.empty_disjoint _)
  · intro i
    by_cases same : i = p
    · subst same
      rw [Function.update_self]
      exact Set.empty_disjoint _
    · rw [Function.update_of_ne same, Set.disjoint_union_right]
      exact ⟨(fresh i same).symm, good.clients i⟩
  · have same : total (x ∪ held) (Function.update own p ∅) = x ∪ others held own p := by
      rw [total_update, Set.empty_union]
      simp only [others, Set.union_assoc]
    rw [same]
    exact inv'

theorem good_step (sound : Sound R Inv Owns post) (good : Good Inv Owns post st held own)
    (step : Step R st st') : ∃ held' own', Good Inv Owns post st' held' own' := by
  cases step with
  | call p req k idle may => exact good_call sound good idle may
  | turn p r busy =>
    obtain ⟨own', good'⟩ := good_turn good r busy
    exact ⟨held, own', good'⟩
  | finish p k busy result => exact good_finish sound good busy result
  | write o n v may =>
    exact ⟨held, own, good.owns, good.idle, good.ready, good.apart, good.clients,
      sound.write may good.owns good.inv⟩

/-- The run rule: a good start stays good along every interleaving. -/
theorem good_reachable (sound : Sound R Inv Owns post) (good : Good Inv Owns post st held own)
    (run : Reachable R st st') : ∃ held' own', Good Inv Owns post st' held' own' := by
  induction run with
  | refl => exact ⟨held, own, good⟩
  | step _ next ih =>
    obtain ⟨held', own', good'⟩ := ih
    exact good_step sound good' next

end Run

end Pool
