import OffsetStore.Lib.Program

/- Two programs in lockstep: they load, store and call the same, whatever they find,
   and their results are related. -/
namespace Program
open ByteMemory Prog
variable {C α β γ δ S : Type}

def Lockstep (R : α → β → Prop) : Prog C α → Prog C β → Prop
  | .ret a, .ret b => R a b
  | .read o n next, .read o' n' next' => o = o' ∧ n = n' ∧ ∀ v, Lockstep R (next v) (next' v)
  | .write o n v next, .write o' n' v' next' => (o = o' ∧ n = n' ∧ v = v') ∧ Lockstep R next next'
  | .fetchAdd o n d next, .fetchAdd o' n' d' next' =>
      (o = o' ∧ n = n' ∧ d = d') ∧ ∀ v, Lockstep R (next v) (next' v)
  | .call c next, .call c' next' => c = c' ∧ ∀ r, Lockstep R (next r) (next' r)
  | .spin, .spin => True
  | _, _ => False

section Rules
variable {R : α → β → Prop} {T : γ → δ → Prop}

theorem lockstep_ret {a : α} {b : β} (related : R a b) : Lockstep R (ret a : Prog C α) (ret b) := related

theorem lockstep_spin : Lockstep R (spin : Prog C α) spin := trivial

theorem lockstep_read {o n : Nat} {next : Nat → Prog C α} {next' : Nat → Prog C β}
    (all : ∀ v, Lockstep R (next v) (next' v)) : Lockstep R (read o n next) (read o n next') := ⟨rfl, rfl, all⟩

theorem lockstep_write {o n v : Nat} {next : Prog C α} {next' : Prog C β} (rest : Lockstep R next next') :
    Lockstep R (write o n v next) (write o n v next') := ⟨⟨rfl, rfl, rfl⟩, rest⟩

theorem lockstep_fetchAdd {o n d : Nat} {next : Nat → Prog C α} {next' : Nat → Prog C β}
    (all : ∀ v, Lockstep R (next v) (next' v)) : Lockstep R (fetchAdd o n d next) (fetchAdd o n d next') :=
  ⟨⟨rfl, rfl, rfl⟩, all⟩

theorem lockstep_call {c : C} {next : Int → Prog C α} {next' : Int → Prog C β}
    (all : ∀ r, Lockstep R (next r) (next' r)) : Lockstep R (call c next) (call c next') := ⟨rfl, all⟩

theorem lockstep_self (p : Prog C α) : Lockstep Eq p p := by
  induction p with
  | ret a => exact rfl
  | read o n next ih => exact lockstep_read ih
  | write o n v next ih => exact lockstep_write ih
  | fetchAdd o n d next ih => exact lockstep_fetchAdd ih
  | call c next ih => exact lockstep_call ih
  | spin => trivial

theorem lockstep_bind {p : Prog C α} {q : Prog C β} {f : α → Prog C γ} {g : β → Prog C δ} (same : Lockstep R p q)
    (next : ∀ a b, R a b → Lockstep T (f a) (g b)) : Lockstep T (p >>= f) (q >>= g) := by
  induction p generalizing q with
  | ret a =>
    cases q with
    | ret b => exact next a b same
    | _ => exact False.elim same
  | read o n _ ih =>
    cases q with
    | read o' n' _ => exact ⟨same.1, same.2.1, fun v => ih v (same.2.2 v)⟩
    | _ => exact False.elim same
  | write o n v _ ih =>
    cases q with
    | write o' n' v' _ => exact ⟨same.1, ih same.2⟩
    | _ => exact False.elim same
  | fetchAdd o n d _ ih =>
    cases q with
    | fetchAdd o' n' d' _ => exact ⟨same.1, fun v => ih v (same.2 v)⟩
    | _ => exact False.elim same
  | call c _ ih =>
    cases q with
    | call c' _ => exact ⟨same.1, fun r => ih r (same.2 r)⟩
    | _ => exact False.elim same
  | spin =>
    cases q with
    | spin => trivial
    | _ => exact False.elim same

/-- The same prefix on both sides. -/
theorem lockstep_after (p : Prog C α) {f : α → Prog C γ} {g : α → Prog C δ} (next : ∀ a, Lockstep T (f a) (g a)) :
    Lockstep T (p >>= f) (p >>= g) :=
  lockstep_bind (lockstep_self p) fun a _ same => same ▸ next a

theorem lockstep_ite {c : Prop} [Decidable c] {p p' : Prog C α} {q q' : Prog C β} (yes : c → Lockstep R p q)
    (no : ¬c → Lockstep R p' q') : Lockstep R (if c then p else p') (if c then q else q') := by
  split
  · exact yes ‹_›
  · exact no ‹_›

/-- Results of two runs: both without end, or the same memory and environment and related values. -/
inductive SameEnd (R : α → β → Prop) : Option (α × Mem × S) → Option (β × Mem × S) → Prop where
  | spins : SameEnd R none none
  | ends {a : α} {b : β} (m : Mem) (s : S) (related : R a b) : SameEnd R (some (a, m, s)) (some (b, m, s))

theorem lockstep_run {p : Prog C α} {q : Prog C β} (same : Lockstep R p q) (handle : C → S → Int × S) (m : Mem) (s : S) :
    SameEnd R (run handle p m s) (run handle q m s) := by
  induction p generalizing q m s with
  | ret a =>
    cases q with
    | ret b => exact .ends m s same
    | _ => exact False.elim same
  | read o n _ ih =>
    cases q with
    | read o' n' _ =>
      obtain ⟨rfl, rfl, rest⟩ := same
      exact ih _ (rest _) m s
    | _ => exact False.elim same
  | write o n v _ ih =>
    cases q with
    | write o' n' v' _ =>
      obtain ⟨⟨rfl, rfl, rfl⟩, rest⟩ := same
      exact ih rest _ s
    | _ => exact False.elim same
  | fetchAdd o n d _ ih =>
    cases q with
    | fetchAdd o' n' d' _ =>
      obtain ⟨⟨rfl, rfl, rfl⟩, rest⟩ := same
      exact ih _ (rest _) _ s
    | _ => exact False.elim same
  | call c _ ih =>
    cases q with
    | call c' _ =>
      obtain ⟨rfl, rest⟩ := same
      exact ih _ (rest _) m _
    | _ => exact False.elim same
  | spin =>
    cases q with
    | spin => exact .spins
    | _ => exact False.elim same

end Rules

end Program
