import OffsetStore.Lib.Program

/- Total correctness: whatever the environment answers, the program ends, and it ends
   well. A program whose calls matter only through the answers of one kind runs against
   every environment that answers these by 0 as it does alone. -/
namespace Program
open ByteMemory

variable {C α β S : Type}

namespace Prog

/-- Every possible answer of the environment leads to a result, and it has the given property. -/
def Returns (answers : C → Int → Prop) (post : α → Mem → Prop) : Prog C α → Mem → Prop
  | ret a, m => post a m
  | read o n next, m => Returns answers post (next (load m o n)) m
  | write o n v next, m => Returns answers post next (store m o n v)
  | fetchAdd o n d next, m => Returns answers post (next (load m o n)) (store m o n (load m o n + d))
  | call c next, m => ∀ r, answers c r → Returns answers post (next r) m
  | spin, _ => False

section Returns
variable {answers : C → Int → Prop}

theorem returns_ret {post : α → Mem → Prop} {a : α} {m : Mem} (holds : post a m) :
    Returns answers post (ret a : Prog C α) m := holds

theorem returns_read {post : α → Mem → Prop} {o n : Nat} {next : Nat → Prog C α} {m : Mem}
    (rest : Returns answers post (next (load m o n)) m) : Returns answers post (read o n next) m := rest

theorem returns_write {post : α → Mem → Prop} {o n v : Nat} {next : Prog C α} {m : Mem}
    (rest : Returns answers post next (store m o n v)) : Returns answers post (write o n v next) m := rest

theorem returns_fetchAdd {post : α → Mem → Prop} {o n d : Nat} {next : Nat → Prog C α} {m : Mem}
    (rest : Returns answers post (next (load m o n)) (store m o n (load m o n + d))) :
    Returns answers post (fetchAdd o n d next) m := rest

theorem returns_call {post : α → Mem → Prop} {c : C} {next : Int → Prog C α} {m : Mem}
    (all : ∀ r, answers c r → Returns answers post (next r) m) : Returns answers post (call c next) m := all

theorem returns_run {handle : C → S → Int × S} {post : α → Mem → Prop} {p : Prog C α} {m : Mem} {s : S}
    (returns : Returns answers post p m) (possible : ∀ c s, answers c (handle c s).1) :
    ∃ a m' s', run handle p m s = some (a, m', s') ∧ post a m' := by
  induction p generalizing m s with
  | ret a => exact ⟨a, m, s, rfl, returns⟩
  | read o n next ih => exact ih _ returns
  | write o n v next ih => exact ih returns
  | fetchAdd o n d next ih => exact ih _ returns
  | call c next ih => exact ih _ (returns _ (possible c s))
  | spin => exact False.elim returns

theorem returns_exec {post : α → Mem → Prop} {p : Prog C α} {m : Mem} (returns : Returns answers post p m)
    (possible : ∀ c, answers c 0) : ∃ a m', exec p m = some (a, m') ∧ post a m' := by
  induction p generalizing m with
  | ret a => exact ⟨a, m, rfl, returns⟩
  | read o n next ih => exact ih _ returns
  | write o n v next ih => exact ih returns
  | fetchAdd o n d next ih => exact ih _ returns
  | call c next ih => exact ih 0 (returns 0 (possible c))
  | spin => exact False.elim returns

theorem returns_bind {mid : α → Mem → Prop} {post : β → Mem → Prop} {p : Prog C α} {f : α → Prog C β}
    {m : Mem} (first : Returns answers mid p m) (second : ∀ a m', mid a m' → Returns answers post (f a) m') :
    Returns answers post (p >>= f) m := by
  induction p generalizing m with
  | ret a => exact second a m first
  | read o n next ih => exact ih _ first
  | write o n v next ih => exact ih first
  | fetchAdd o n d next ih => exact ih _ first
  | call c next ih => exact fun r possible => ih r (first r possible)
  | spin => exact False.elim first

theorem returns_burst {post : α → Mem → Prop} {p : Prog C α} {m : Mem} :
    Returns answers post p m ↔ Returns answers post (burst m p).2 (applyStores m (burst m p).1) := by
  induction p generalizing m with
  | read o n next ih => exact ih _
  | write o n v next ih => exact ih
  | _ => exact Iff.rfl

theorem returns_bind_of_ret {post : β → Mem → Prop} {p : Prog C α} {f : α → Prog C β} {m : Mem} {a : α}
    (value : burst m p = ([], ret a)) (rest : Returns answers post (f a) m) :
    Returns answers post (p >>= f) m := by
  have same := burst_bind_of_ret value f
  exact returns_burst.mpr (same ▸ returns_burst.mp rest)

theorem returns_weaken {post post' : α → Mem → Prop} {p : Prog C α} {m : Mem}
    (returns : Returns answers post p m) (weaker : ∀ a m', post a m' → post' a m') :
    Returns answers post' p m := by
  have bound := returns_bind (f := ret) returns fun a m' holds => returns_ret (weaker a m' holds)
  rwa [bind_ret] at bound

theorem returns_ends {post : α → Mem → Prop} {p : Prog C α} {m : Mem} (returns : Returns answers post p m) :
    Ends answers post p m := by
  induction p generalizing m with
  | ret a => exact ends_ret returns
  | read o n next ih => exact ends_read (ih _ returns)
  | write o n v next ih => exact ends_write (ih returns)
  | fetchAdd o n d next ih => exact ends_fetchAdd (ih _ returns)
  | call c next ih => exact ends_call fun r possible => ih r (returns r possible)
  | spin => exact False.elim returns

/-- A program without a possible result does not end. -/
theorem run_none {handle : C → S → Int × S} {p : Prog C α} {m : Mem} {s : S}
    (never : Ends answers (fun _ _ => False) p m) (possible : ∀ c s, answers c (handle c s).1) :
    run handle p m s = none := by
  rcases result : run handle p m s with _ | ⟨a, m', s'⟩
  · rfl
  · exact False.elim (ends_run never possible result)

end Returns

attribute [irreducible] Returns

/-- One run has one outcome. -/
theorem run_unique {o : Option (α × Mem × S)} {a b : α} {m m' : Mem} {s s' : S} (first : o = some (a, m, s))
    (second : o = some (b, m', s')) : a = b ∧ m = m' ∧ s = s' := by
  rw [first] at second
  simpa using second

/-- A program that only loads has, in every environment, the result of its uninterrupted run. -/
theorem Loads.ret_of_run {handle : C → S → Int × S} {p : Prog C α} {m m' : Mem} {s s' : S} {a : α} (loads : Loads p)
    (result : run handle p m s = some (a, m', s')) : burst m p = ([], ret a) := by
  revert result
  refine loads.along (motive := fun p => run handle p m s = some (a, m', s') → burst m p = ([], ret a)) (fun b result => ?_)
    (fun o n next ih => ih _) (fun result => absurd result (by simp [run]))
  have start : run handle (ret b : Prog C α) m s = some (b, m, s) := rfl
  rw [(run_unique start result).1, burst_ret]

/-- The answers to calls of other than the fixed kind make no difference. -/
def Steady (fixed : C → Bool) : Prog C α → Prop
  | ret _ => True
  | read _ _ next => ∀ v, Steady fixed (next v)
  | write _ _ _ next => Steady fixed next
  | fetchAdd _ _ _ next => ∀ v, Steady fixed (next v)
  | call c next => ∀ r, (fixed c = true → r = 0) → Steady fixed (next r) ∧ ∀ m, exec (next r) m = exec (next 0) m
  | spin => True

section Steady
variable {fixed : C → Bool}

theorem steady_ret {a : α} : Steady fixed (ret a : Prog C α) := trivial

theorem steady_spin : Steady fixed (spin : Prog C α) := trivial

theorem steady_read {o n : Nat} {next : Nat → Prog C α} (all : ∀ v, Steady fixed (next v)) :
    Steady fixed (read o n next) := all

theorem steady_write {o n v : Nat} {next : Prog C α} (rest : Steady fixed next) :
    Steady fixed (write o n v next) := rest

theorem steady_fetchAdd {o n d : Nat} {next : Nat → Prog C α} (all : ∀ v, Steady fixed (next v)) :
    Steady fixed (fetchAdd o n d next) := all

theorem steady_ite {c : Prop} [Decidable c] {p q : Prog C α} (yes : Steady fixed p) (no : Steady fixed q) :
    Steady fixed (if c then p else q) := by
  split
  · exact yes
  · exact no

/-- A call of the fixed kind. -/
theorem steady_fixed {c : C} {next : Int → Prog C α} (kind : fixed c = true) (rest : Steady fixed (next 0)) :
    Steady fixed (call c next) := by
  intro r zero
  rw [zero kind]
  exact ⟨rest, fun _ => rfl⟩

/-- A call whose answer is dropped. -/
theorem steady_perform {c : C} {rest : Prog C α} (steady : Steady fixed rest) :
    Steady fixed (call c fun _ => rest) := fun _ _ => ⟨steady, fun _ => rfl⟩

theorem steady_bind {p : Prog C α} {f : α → Prog C β} (first : Steady fixed p) (second : ∀ a, Steady fixed (f a)) :
    Steady fixed (p >>= f) := by
  induction p with
  | ret a => exact second a
  | read o n next ih => exact fun v => ih v (first v)
  | write o n v next ih => exact ih first
  | fetchAdd o n d next ih => exact fun v => ih v (first v)
  | call c next ih =>
    intro r zero
    obtain ⟨steady, same⟩ := first r zero
    have whole : ∀ m, exec (next r >>= f) m = exec (next 0 >>= f) m := by
      intro m
      rw [exec_bind, exec_bind, same]
    exact ⟨ih r steady, whole⟩
  | spin => trivial

theorem Loads.steady {p : Prog C α} (loads : Loads p) : Steady fixed p :=
  loads.along (motive := Steady fixed) (fun _ => trivial) (fun _ _ _ rest => rest) trivial

/-- Against every environment that answers the calls of the fixed kind by 0 the run is the uninterrupted one. -/
theorem steady_returns {answers : C → Int → Prop} {p : Prog C α} {m m' : Mem} {a : α} (steady : Steady fixed p)
    (zero : ∀ c r, answers c r → fixed c = true → r = 0) (result : exec p m = some (a, m')) :
    Returns answers (fun b m'' => b = a ∧ m'' = m') p m := by
  induction p generalizing m with
  | ret b =>
    simp only [exec_ret, Option.some.injEq, Prod.mk.injEq] at result
    exact returns_ret result
  | read o n next ih => exact returns_read (ih _ (steady _) result)
  | write o n v next ih => exact returns_write (ih steady result)
  | fetchAdd o n d next ih => exact returns_fetchAdd (ih _ (steady _) result)
  | call c next ih =>
    refine returns_call fun r possible => ?_
    obtain ⟨rest, same⟩ := steady r (zero c r possible)
    exact ih r rest ((same m).trans result)
  | spin => simp at result

theorem steady_run {handle : C → S → Int × S} {p : Prog C α} {m m' : Mem} {a : α} (steady : Steady fixed p)
    (zero : ∀ c s, fixed c = true → (handle c s).1 = 0) (result : exec p m = some (a, m')) (s : S) :
    ∃ s', run handle p m s = some (a, m', s') := by
  have returns : Returns (fun c r => fixed c = true → r = 0) (fun b m'' => b = a ∧ m'' = m') p m := steady_returns steady
    (fun _ _ possible kind => possible kind) result
  obtain ⟨_, _, s', run, rfl, rfl⟩ := returns_run (s := s) returns zero
  exact ⟨s', run⟩

end Steady

end Prog

end Program
