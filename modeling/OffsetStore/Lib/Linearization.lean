import OffsetStore.Lib.LockOrder

/- Calls of many processes on objects that share one memory, each object under a lock of
   its own. Every load, store, lock and unlock is a step by itself. When each call works
   inside the lock of its object, the calls and replies that the processes see are those of
   objects whose calls take effect at one moment, or fail at one moment for want of the lock. -/
namespace Linearization
open ByteMemory Program Prog LockOrder
variable {C L O A Call Reply α β ι : Type}

/-- What the processes see of a run, in its order, and where one of them is denied a lock. -/
inductive Event (ι Call Reply : Type) where
  | call (i : ι) (c : Call)
  | denied (i : ι)
  | reply (i : ι) (r : Reply)

/-- The object of each call, the replies with which it may change the value of its object, and its reply where
    the lock of the object is denied. -/
structure Spec (O A Call Reply : Type) where
  object : Call → O
  next : Call → A → Reply → A → Prop
  denied : Call → Reply

/-- The values of the objects, and the calls in progress; a call that has taken effect has its reply. -/
structure Atomic (O A ι Call Reply : Type) where
  value : O → A
  pending : ι → Option (Call × Option Reply)

/-- The objects themselves: a call takes effect at one moment between its start and its reply, unless it is denied. -/
inductive Spec.Run [DecidableEq O] [DecidableEq ι] (spec : Spec O A Call Reply) (start : O → A) :
    List (Event ι Call Reply) → Atomic O A ι Call Reply → Prop where
  | start : spec.Run start [] ⟨start, fun _ => none⟩
  | call {history t} (before : spec.Run start history t) (i : ι) (c : Call) (idle : t.pending i = none) :
      spec.Run start (history ++ [.call i c]) ⟨t.value, Function.update t.pending i (some (c, none))⟩
  | effect {history t} (before : spec.Run start history t) {i : ι} {c : Call} {r : Reply} {a : A}
      (waits : t.pending i = some (c, none)) (next : spec.next c (t.value (spec.object c)) r a) :
      spec.Run start history
        ⟨Function.update t.value (spec.object c) a, Function.update t.pending i (some (c, some r))⟩
  | denied {history t} (before : spec.Run start history t) {i : ι} {c : Call} (waits : t.pending i = some (c, none)) :
      spec.Run start (history ++ [.denied i])
        ⟨t.value, Function.update t.pending i (some (c, some (spec.denied c)))⟩
  | reply {history t} (before : spec.Run start history t) {i : ι} {c : Call} {r : Reply}
      (done : t.pending i = some (c, some r)) :
      spec.Run start (history ++ [.reply i r]) ⟨t.value, Function.update t.pending i none⟩

/-- The processes with what is left of their calls, their locks, and the memory they share. -/
structure State (C L ι Call Reply : Type) where
  active : ι → Option (Call × Prog C Reply)
  held : ι → Locks L
  mem : Mem
  history : List (Event ι Call Reply)

def origin (m : Mem) : State C L ι Call Reply := ⟨fun _ => none, fun _ => [], m, []⟩

def State.locks (s : State C L ι Call Reply) : System C L ι := ⟨fun _ => ret (), s.held, s.mem⟩

section Steps
variable [DecidableEq ι] [DecidableEq L]

/-- The process goes on with its call. -/
def State.go (s : State C L ι Call Reply) (i : ι) (c : Call) (p : Prog C Reply) (held : Locks L) (m : Mem) :
    State C L ι Call Reply :=
  ⟨Function.update s.active i (some (c, p)), Function.update s.held i held, m, s.history⟩

/-- A step of one process, or a change of bytes that are not kept. A lock is granted when it is free, and
    may be denied with an error at any time. -/
inductive Step (act : C → Act L) (code : ι → Call → Prog C Reply) (kept : Set Nat) :
    State C L ι Call Reply → State C L ι Call Reply → Prop where
  | call {s} (i : ι) (c : Call) (idle : s.active i = none) :
      Step act code kept s { s with
        active := Function.update s.active i (some (c, code i c))
        history := s.history ++ [.call i c] }
  | read {s} (i : ι) {c o n next} (here : s.active i = some (c, .read o n next)) :
      Step act code kept s (s.go i c (next (load s.mem o n)) (s.held i) s.mem)
  | write {s} (i : ι) {c o n v next} (here : s.active i = some (c, .write o n v next)) :
      Step act code kept s (s.go i c next (s.held i) (store s.mem o n v))
  | fetchAdd {s} (i : ι) {c o n d next} (here : s.active i = some (c, .fetchAdd o n d next)) :
      Step act code kept s (s.go i c (next (load s.mem o n)) (s.held i) (store s.mem o n (load s.mem o n + d)))
  | acquire {s} (i : ι) {c k next l shared} (here : s.active i = some (c, .call k next))
      (kind : act k = .acquire l shared) (free : s.locks.Free l shared) :
      Step act code kept s (s.go i c (next 0) ((l, shared) :: s.held i) s.mem)
  | denied {s} (i : ι) {c k next l shared r} (here : s.active i = some (c, .call k next))
      (kind : act k = .acquire l shared) (error : r ≠ 0) :
      Step act code kept s { s.go i c (next r) (s.held i) s.mem with history := s.history ++ [.denied i] }
  | taken {s} (i : ι) {c k next l refused} (here : s.active i = some (c, .call k next))
      (kind : act k = .attempt l refused) (free : s.locks.Free l false) :
      Step act code kept s (s.go i c (next 0) ((l, false) :: s.held i) s.mem)
  | refused {s} (i : ι) {c k next l refused r} (here : s.active i = some (c, .call k next))
      (kind : act k = .attempt l refused) (answer : refused r) :
      Step act code kept s (s.go i c (next r) (s.held i) s.mem)
  | release {s} (i : ι) {c k next l} (here : s.active i = some (c, .call k next)) (kind : act k = .release l) :
      Step act code kept s (s.go i c (next 0) (drop l (s.held i)) s.mem)
  | plain {s} (i : ι) {c k next r} (here : s.active i = some (c, .call k next)) (kind : act k = .plain) :
      Step act code kept s (s.go i c (next r) (s.held i) s.mem)
  | reply {s} (i : ι) {c r} (here : s.active i = some (c, .ret r)) :
      Step act code kept s { s with
        active := Function.update s.active i none
        history := s.history ++ [.reply i r] }
  | outside {s} (m : Mem) (same : ∀ b ∈ kept, m b = s.mem b) : Step act code kept s { s with mem := m }

abbrev Runs (act : C → Act L) (code : ι → Call → Prog C Reply) (kept : Set Nat) :
    State C L ι Call Reply → State C L ι Call Reply → Prop :=
  Relation.ReflTransGen (Step act code kept)

end Steps

section Moves
variable [DecidableEq ι] (s : State C L ι Call Reply) (i : ι) (c : Call) (p : Prog C Reply) (held : Locks L) (m : Mem)

def State.done (r : Reply) : State C L ι Call Reply :=
  ⟨Function.update s.active i none, Function.update s.held i held, m, s.history ++ [.reply i r]⟩

@[simp] theorem State.go_active : (s.go i c p held m).active i = some (c, p) := Function.update_self ..

@[simp] theorem State.go_held : (s.go i c p held m).held i = held := Function.update_self ..

@[simp] theorem State.go_mem : (s.go i c p held m).mem = m := rfl

@[simp] theorem State.go_done (held' : Locks L) (m' : Mem) (r : Reply) :
    (s.go i c p held m).done i held' m' r = s.done i held' m' r := by
  simp [State.go, State.done]

end Moves

/-- How the objects lie in memory: each in bytes of its own, under a lock of its own. -/
structure Layout (O A L : Type) where
  lock : O → L
  bytes : O → Set Nat
  holds : O → A → Mem → Prop
  single : Function.Injective lock
  apart : ∀ o o', o ≠ o' → Disjoint (bytes o) (bytes o')
  near : ∀ o a m m', (∀ b ∈ bytes o, m' b = m b) → holds o a m → holds o a m'

/-- The bytes of all objects but one. -/
def Layout.others (layout : Layout O A L) (o : O) : Set Nat := {b | ∃ o', o' ≠ o ∧ b ∈ layout.bytes o'}

theorem Layout.apart_others (layout : Layout O A L) (o : O) : Disjoint (layout.bytes o) (layout.others o) := by
  rw [Set.disjoint_right]
  rintro b ⟨o', other, mem⟩ own
  exact Set.disjoint_left.mp (layout.apart o' o other) mem own

def Layout.all (layout : Layout O A L) : Set Nat := {b | ∃ o, b ∈ layout.bytes o}

/-- The rest of a call that has the lock. What it loads from elsewhere may be anything; it stores no byte
    of another object, and nothing at all where it shares the lock; it ends with the release. -/
def Inside (act : C → Act L) (own others : Set Nat) (l : L) (shared : Bool) (post : Reply → Mem → Prop) :
    Prog C Reply → Mem → Prop
  | .ret _, _ => False
  | .read o n next, m => ((∀ b, o ≤ b → b < o + n → b ∈ own) ∧
      Inside act own others l shared post (next (load m o n)) m) ∨
      ∀ v, Inside act own others l shared post (next v) m
  | .write o n v next, m => shared = false ∧ (∀ b, o ≤ b → b < o + n → b ∉ others) ∧
      Inside act own others l shared post next (store m o n v)
  | .fetchAdd _ _ _ _, _ => False
  | .call k next, m => act k = .release l ∧ ∃ r, next 0 = ret r ∧ post r m
  | .spin, _ => True

/-- The loads and stores of the program lie in these bytes, whatever it loads. -/
def Within (own : Set Nat) : Prog C α → Prop
  | .ret _ => True
  | .read o n next => (∀ b, o ≤ b → b < o + n → b ∈ own) ∧ ∀ v, Within own (next v)
  | .write o n _ next => (∀ b, o ≤ b → b < o + n → b ∈ own) ∧ Within own next
  | .spin => True
  | _ => False

section Within
variable {own : Set Nat}

theorem within_ret {a : α} : Within own (ret a : Prog C α) := trivial

theorem within_read {o n : Nat} {next : Nat → Prog C α} (inside : ∀ b, o ≤ b → b < o + n → b ∈ own)
    (all : ∀ v, Within own (next v)) : Within own (read o n next) := ⟨inside, all⟩

theorem within_write {o n v : Nat} {next : Prog C α} (inside : ∀ b, o ≤ b → b < o + n → b ∈ own)
    (rest : Within own next) : Within own (write o n v next) := ⟨inside, rest⟩

theorem within_ite {c : Prop} [Decidable c] {p q : Prog C α} (yes : Within own p) (no : Within own q) :
    Within own (if c then p else q) := by
  split
  · exact yes
  · exact no

theorem within_bind {p : Prog C α} {f : α → Prog C β} (first : Within own p) (second : ∀ a, Within own (f a)) :
    Within own (p >>= f) := by
  induction p with
  | ret a => exact second a
  | read o n next ih => exact ⟨first.1, fun v => ih v (first.2 v)⟩
  | write o n v next ih => exact ⟨first.1, ih first.2⟩
  | fetchAdd => exact first.elim
  | call => exact first.elim
  | spin => trivial

/-- The second part may rely on what the first one returns. -/
theorem within_then {P : α → Prop} {p : Prog C α} {f : α → Prog C β} (first : Within own p) (results : Results P p)
    (second : ∀ a, P a → Within own (f a)) : Within own (p >>= f) := by
  induction p with
  | ret a => exact second a results
  | read o n next ih => exact ⟨first.1, fun v => ih v (first.2 v) (results v)⟩
  | write o n v next ih => exact ⟨first.1, ih first.2 results⟩
  | fetchAdd => exact first.elim
  | call => exact first.elim
  | spin => trivial

theorem within_writeBytes {o : Nat} {bs : List UInt8} (inside : ∀ b, o ≤ b → b < o + bs.length → b ∈ own) :
    Within own (writeBytes o bs : Prog C Unit) := by
  induction bs generalizing o with
  | nil => exact within_ret
  | cons byte bs ih =>
    rw [List.length_cons] at inside
    exact ⟨fun b low high => inside b low (by omega), ih fun b low high => inside b (by omega) (by omega)⟩

end Within

section Rules
variable {act : C → Act L} {own others : Set Nat} {l : L} {shared : Bool} {post : Reply → Mem → Prop} {m m' : Mem}

theorem inside_read {o n : Nat} {next : Nat → Prog C Reply} (inside : ∀ b, o ≤ b → b < o + n → b ∈ own)
    (rest : Inside act own others l shared post (next (load m o n)) m) :
    Inside act own others l shared post (read o n next) m := Or.inl ⟨inside, rest⟩

theorem inside_write {o n v : Nat} {next : Prog C Reply} (apart : ∀ b, o ≤ b → b < o + n → b ∉ others)
    (rest : Inside act own others l false post next (store m o n v)) :
    Inside act own others l false post (write o n v next) m := ⟨rfl, apart, rest⟩

theorem inside_release {k : C} {next : Int → Prog C Reply} {r : Reply} (kind : act k = .release l)
    (result : next 0 = ret r) (holds : post r m) : Inside act own others l shared post (call k next) m :=
  ⟨kind, r, result, holds⟩

/-- A program that only loads, from anywhere: its value is unknown. -/
theorem inside_loads {p : Prog C α} {f : α → Prog C Reply} (loads : Loads p)
    (all : ∀ a, Inside act own others l shared post (f a) m) : Inside act own others l shared post (p >>= f) m := by
  induction p with
  | ret a => exact all a
  | read o n next ih => exact Or.inr fun v => ih v (loads v)
  | write => exact loads.elim
  | fetchAdd => exact loads.elim
  | call => exact loads.elim
  | spin => trivial

/-- A program on the bytes of the object does what it does undisturbed. -/
theorem inside_exec {p : Prog C α} {f : α → Prog C Reply} {a : α} (within : Within own p)
    (apart : Disjoint own others) (mode : shared = false ∨ Loads p) (run : exec p m = some (a, m'))
    (rest : Inside act own others l shared post (f a) m') : Inside act own others l shared post (p >>= f) m := by
  induction p generalizing m with
  | ret b =>
    obtain ⟨rfl, rfl⟩ := Prod.mk.inj (Option.some.inj run)
    exact rest
  | read o n next ih =>
    exact Or.inl ⟨within.1, ih _ (within.2 _) (mode.imp_right fun loads => loads _) run⟩
  | write o n v next ih =>
    obtain alone | loads := mode
    · refine ⟨alone, fun b low high => Set.disjoint_left.mp apart (within.1 b low high), ?_⟩
      exact ih within.2 (Or.inl alone) run
    · exact loads.elim
  | fetchAdd => exact within.elim
  | call => exact within.elim
  | spin => simp at run

/-- Only the bytes of the object matter. -/
theorem Inside.near {p : Prog C Reply} (inside : Inside act own others l shared post p m)
    (stable : ∀ r m m', (∀ b ∈ own, m' b = m b) → post r m → post r m') (same : ∀ b ∈ own, m' b = m b) :
    Inside act own others l shared post p m' := by
  induction p generalizing m m' with
  | ret => exact inside
  | read o n next ih =>
    obtain ⟨here, rest⟩ | all := inside
    · have loaded : load m' o n = load m o n := load_congr fun b low high => same b (here b low high)
      refine Or.inl ⟨here, ?_⟩
      rw [loaded]
      exact ih _ rest same
    · exact Or.inr fun v => ih v (all v) same
  | write o n v next ih =>
    obtain ⟨alone, apart, rest⟩ := inside
    refine ⟨alone, apart, ih rest fun b mem => ?_⟩
    simp only [store]
    split
    · rfl
    · exact same b mem
  | fetchAdd => exact inside
  | call k next =>
    obtain ⟨kind, r, result, holds⟩ := inside
    exact ⟨kind, r, result, stable r m m' same holds⟩
  | spin => trivial

end Rules

section Calls
variable (spec : Spec O A Call Reply) (layout : Layout O A L) (act : C → Act L)

/-- The reply and the memory at the end of a call that began with the value a of its object. -/
def Fits (c : Call) (shared : Bool) (a : A) (r : Reply) (m : Mem) : Prop :=
  ∃ a', spec.next c a r a' ∧ layout.holds (spec.object c) a' m ∧ (shared = true → a' = a)

/-- The work of a call inside the lock of its object. -/
def Working (c : Call) (shared : Bool) (a : A) : Prog C Reply → Mem → Prop :=
  Inside act (layout.bytes (spec.object c)) (layout.others (spec.object c)) (layout.lock (spec.object c)) shared
    (Fits spec layout c shared a)

/-- A call that replies at once, whatever the value is, or works inside the lock of its object. -/
inductive Sectioned (c : Call) : Prog C Reply → Prop where
  | atOnce {r : Reply} (all : ∀ a, spec.next c a r a) : Sectioned c (ret r)
  | locked {k : C} {next : Int → Prog C Reply} {shared : Bool}
      (kind : act k = .acquire (layout.lock (spec.object c)) shared)
      (denied : ∀ error, error ≠ 0 → next error = ret (spec.denied c))
      (work : ∀ a m, layout.holds (spec.object c) a m → Working spec layout act c shared a (next 0) m) :
      Sectioned c (call k next)

/-- How far a call has come, with its locks and its reply once it has taken effect. -/
inductive Stage (value : O → A) (m : Mem) (c : Call) : Prog C Reply → Locks L → Option Reply → Prop where
  | waits {p : Prog C Reply} (ready : Sectioned spec layout act c p) : Stage value m c p [] none
  | works {p : Prog C Reply} {shared : Bool}
      (working : Working spec layout act c shared (value (spec.object c)) p m) :
      Stage value m c p [(layout.lock (spec.object c), shared)] none
  | replies {r : Reply} : Stage value m c (ret r) [] (some r)

/-- The memory and the processes beside the objects whose calls take effect at one moment. -/
structure Agrees (s : State C L ι Call Reply) (t : Atomic O A ι Call Reply) : Prop where
  holds : ∀ o, (∀ i, (layout.lock o, false) ∉ s.held i) → layout.holds o (t.value o) s.mem
  idle : ∀ i, s.active i = none → s.held i = [] ∧ t.pending i = none
  busy : ∀ i c p, s.active i = some (c, p) →
    ∃ done, t.pending i = some (c, done) ∧ Stage spec layout act t.value s.mem c p (s.held i) done
  exclusive : Exclusive s.locks

end Calls

section Run
variable {spec : Spec O A Call Reply} {layout : Layout O A L} {act : C → Act L} {code : ι → Call → Prog C Reply}
  {s s' : State C L ι Call Reply} {t : Atomic O A ι Call Reply} {value value' : O → A} {m m' : Mem}

theorem Working.near {c : Call} {shared : Bool} {a : A} {p : Prog C Reply}
    (working : Working spec layout act c shared a p m) (same : ∀ b ∈ layout.bytes (spec.object c), m' b = m b) :
    Working spec layout act c shared a p m' := by
  refine Inside.near working ?_ same
  rintro r m₁ m₂ equal ⟨a', next, holds, kept⟩
  exact ⟨a', next, layout.near _ _ _ _ equal holds, kept⟩

/-- The others may change what a call does not hold. -/
theorem Stage.keeps {c : Call} {p : Prog C Reply} {held : Locks L} {done : Option Reply}
    (stage : Stage spec layout act value m c p held done)
    (same : ∀ x ∈ held, x.1 = layout.lock (spec.object c) →
      value' (spec.object c) = value (spec.object c) ∧ ∀ b ∈ layout.bytes (spec.object c), m' b = m b) :
    Stage spec layout act value' m' c p held done := by
  cases stage with
  | waits ready => exact .waits ready
  | works working =>
    obtain ⟨equal, bytes⟩ := same _ List.mem_cons_self rfl
    refine .works ?_
    rw [equal]
    exact working.near bytes
  | replies => exact .replies

theorem others_of_ne {o o' : O} (other : o' ≠ o) {b : Nat} (mem : b ∈ layout.bytes o') : b ∈ layout.others o :=
  ⟨o', other, mem⟩

section Holder
variable (agrees : Agrees spec layout act s t) {i : ι} {c : Call}
include agrees

theorem Agrees.alone (held : s.held i = [(layout.lock (spec.object c), false)]) {j : ι} (other : j ≠ i) {x : L × Bool}
    (mem : x ∈ s.held j) {o : O} (name : x.1 = layout.lock o) : o ≠ spec.object c := by
  rintro rfl
  have own : (layout.lock (spec.object c), false) ∈ s.held i := by
    rw [held]
    exact List.mem_singleton_self _
  have shared := (agrees.exclusive i j other.symm _ own x mem name.symm).1
  cases shared

theorem Agrees.noted (history : List (Event ι Call Reply)) :
    Agrees spec layout act { s with history := history } t :=
  ⟨agrees.holds, agrees.idle, agrees.busy, agrees.exclusive⟩

theorem Agrees.read {o n : Nat} {next : Nat → Prog C Reply} (here : s.active i = some (c, .read o n next)) :
    ∃ done, t.pending i = some (c, done) ∧
      Stage spec layout act t.value s.mem c (next (load s.mem o n)) (s.held i) done := by
  obtain ⟨done, pending, stage⟩ := agrees.busy i c _ here
  generalize s.held i = held at stage ⊢
  cases stage with
  | waits ready => cases ready
  | works working =>
    obtain ⟨_, rest⟩ | all := working
    · exact ⟨none, pending, .works rest⟩
    · exact ⟨none, pending, .works (all _)⟩

theorem Agrees.denied {k : C} {next : Int → Prog C Reply} {l : L} {shared : Bool} {error : Int}
    (here : s.active i = some (c, .call k next)) (kind : act k = .acquire l shared) (nonzero : error ≠ 0) :
    t.pending i = some (c, none) ∧
      Stage spec layout act t.value s.mem c (next error) (s.held i) (some (spec.denied c)) := by
  obtain ⟨done, pending, stage⟩ := agrees.busy i c _ here
  generalize s.held i = held at stage ⊢
  cases stage with
  | waits ready =>
    cases ready with
    | locked _ denied _ =>
      rw [denied error nonzero]
      exact ⟨pending, .replies⟩
  | works working =>
    have release : act k = .release _ := working.1
    rw [kind] at release
    cases release

theorem Agrees.acts {k : C} {next : Int → Prog C Reply} (here : s.active i = some (c, .call k next)) :
    (∃ shared, act k = .acquire (layout.lock (spec.object c)) shared) ∨
      act k = .release (layout.lock (spec.object c)) := by
  obtain ⟨done, pending, stage⟩ := agrees.busy i c _ here
  generalize s.held i = held at stage
  cases stage with
  | waits ready =>
    cases ready with
    | locked kind => exact Or.inl ⟨_, kind⟩
  | works working => exact Or.inr working.1

end Holder

variable [DecidableEq ι]

@[simp] theorem State.go_locks (s : State C L ι Call Reply) (i : ι) (c : Call) (p : Prog C Reply) (held : Locks L)
    (m : Mem) : (s.go i c p held m).locks = s.locks.go i (ret ()) held m := by
  unfold State.locks State.go System.go
  rw [Function.update_eq_self]

/-- One process goes on with its call. What the locks of the others protect stays as it is. -/
theorem Agrees.go (agrees : Agrees spec layout act s t) {i : ι} {c : Call} {p : Prog C Reply} {held : Locks L}
    {done : Option Reply} (stage : Stage spec layout act value' m' c p held done)
    (exclusive : Exclusive (s.locks.go i (ret ()) held m'))
    (kept : ∀ o j, j ≠ i → ∀ x ∈ s.held j, x.1 = layout.lock o →
      value' o = t.value o ∧ ∀ b ∈ layout.bytes o, m' b = s.mem b)
    (holds : ∀ o, (layout.lock o, false) ∉ held → (∀ j, j ≠ i → (layout.lock o, false) ∉ s.held j) →
      layout.holds o (value' o) m') :
    Agrees spec layout act (s.go i c p held m') ⟨value', Function.update t.pending i (some (c, done))⟩ := by
  refine ⟨fun o unheld => ?_, fun j idle => ?_, fun j c' p' active => ?_, ?_⟩
  · refine holds o ?_ fun j other => ?_
    · simpa [State.go] using unheld i
    · simpa [State.go, other] using unheld j
  · by_cases own : j = i
    · subst own
      simp [State.go] at idle
    · simp only [State.go, Function.update_of_ne own] at idle ⊢
      exact agrees.idle j idle
  · by_cases own : j = i
    · subst own
      simp only [State.go, Function.update_self, Option.some.injEq, Prod.mk.injEq] at active
      obtain ⟨rfl, rfl⟩ := active
      exact ⟨done, by simp, by simpa [State.go] using stage⟩
    · simp only [State.go, Function.update_of_ne own] at active ⊢
      obtain ⟨done', pending, stage'⟩ := agrees.busy j c' p' active
      exact ⟨done', pending, stage'.keeps fun x mem name => kept _ j own x mem name⟩
  · rw [State.go_locks]
    exact exclusive

/-- A process between its locks: nothing that others rely on changes. -/
theorem Agrees.resume (agrees : Agrees spec layout act s t) {i : ι} {c : Call} {p : Prog C Reply}
    {done : Option Reply} (stage : Stage spec layout act t.value s.mem c p (s.held i) done) :
    Agrees spec layout act (s.go i c p (s.held i) s.mem) ⟨t.value, Function.update t.pending i (some (c, done))⟩ :=
  agrees.go stage (agrees.exclusive.stays i _ _) (fun _ _ _ _ _ _ => ⟨rfl, fun _ _ => rfl⟩)
    fun o own others => agrees.holds o fun j => by
      by_cases same : j = i
      · exact same ▸ own
      · exact others j same

theorem Agrees.rest (agrees : Agrees spec layout act s t) {i : ι} (free : s.held i = [])
    (history : List (Event ι Call Reply)) :
    Agrees spec layout act { s with active := Function.update s.active i none, history := history }
      ⟨t.value, Function.update t.pending i none⟩ := by
  refine ⟨agrees.holds, fun j idle => ?_, fun j c p active => ?_, agrees.exclusive⟩
  · by_cases own : j = i
    · subst own
      exact ⟨free, by simp⟩
    · simp only [Function.update_of_ne own] at idle ⊢
      exact agrees.idle j idle
  · by_cases own : j = i
    · subst own
      simp at active
    · simp only [Function.update_of_ne own] at active ⊢
      exact agrees.busy j c p active

section Holder
variable (agrees : Agrees spec layout act s t) {i : ι} {c : Call}
include agrees

/-- A store is made under a lock that nobody else has, and reaches no object but its own. -/
theorem Agrees.write {o n v : Nat} {next : Prog C Reply} (here : s.active i = some (c, .write o n v next)) :
    t.pending i = some (c, none) ∧ Agrees spec layout act (s.go i c next (s.held i) (store s.mem o n v))
      ⟨t.value, Function.update t.pending i (some (c, none))⟩ := by
  obtain ⟨done, pending, stage⟩ := agrees.busy i c _ here
  generalize held : s.held i = locks at stage ⊢
  cases stage with
  | waits ready => cases ready
  | works working =>
    obtain ⟨rfl, apart, rest⟩ := working
    have elsewhere : ∀ o', o' ≠ spec.object c → ∀ b ∈ layout.bytes o', store s.mem o n v b = s.mem b := by
      intro o' other b mem
      refine store_outside ?_
      by_contra inside
      exact apart b (by omega) (by omega) (others_of_ne other mem)
    have still := agrees.exclusive.stays i (ret ()) (store s.mem o n v)
    refine ⟨pending, agrees.go (.works rest) (held ▸ still) (fun o' j other x mem name => ?_) fun o' own others => ?_⟩
    · exact ⟨rfl, elsewhere o' (agrees.alone held other mem name)⟩
    · have other : o' ≠ spec.object c := by
        rintro rfl
        exact own (List.mem_singleton_self _)
      refine layout.near _ _ _ _ (elsewhere o' other) (agrees.holds o' fun j => ?_)
      by_cases same : j = i
      · rw [same, held]
        exact own
      · exact others j same

theorem Agrees.acquire {k : C} {next : Int → Prog C Reply} {l : L} {shared : Bool}
    (here : s.active i = some (c, .call k next)) (kind : act k = .acquire l shared) (free : s.locks.Free l shared) :
    t.pending i = some (c, none) ∧ Agrees spec layout act (s.go i c (next 0) ((l, shared) :: s.held i) s.mem)
      ⟨t.value, Function.update t.pending i (some (c, none))⟩ := by
  obtain ⟨done, pending, stage⟩ := agrees.busy i c _ here
  generalize held : s.held i = locks at stage ⊢
  cases stage with
  | waits ready =>
    cases ready with
    | locked kind' _ work =>
      rw [kind, Act.acquire.injEq] at kind'
      obtain ⟨rfl, rfl⟩ := kind'
      have stands := agrees.holds (spec.object c) fun j mem => by
        have shares := free j _ mem rfl
        cases shares.2
      have taken := agrees.exclusive.takes i (ret ()) s.mem free
      rw [show s.locks.held i = [] from held] at taken
      refine ⟨pending, agrees.go (.works (work _ _ stands)) taken (fun _ _ _ _ _ _ => ⟨rfl, fun _ _ => rfl⟩) ?_⟩
      intro o own others
      refine agrees.holds o fun j => ?_
      by_cases same : j = i
      · rw [same, held]
        exact List.not_mem_nil
      · exact others j same
  | works working =>
    have release : act k = .release _ := working.1
    rw [kind] at release
    cases release

/-- The moment of the call: its lock is released, and its object takes the new value. -/
theorem Agrees.release [DecidableEq O] [DecidableEq L] {k : C} {next : Int → Prog C Reply} {l : L}
    (here : s.active i = some (c, .call k next)) (kind : act k = .release l) :
    t.pending i = some (c, none) ∧ ∃ r a, spec.next c (t.value (spec.object c)) r a ∧
      Agrees spec layout act (s.go i c (next 0) (drop l (s.held i)) s.mem)
        ⟨Function.update t.value (spec.object c) a, Function.update t.pending i (some (c, some r))⟩ := by
  obtain ⟨done, pending, stage⟩ := agrees.busy i c _ here
  generalize held : s.held i = locks at stage ⊢
  cases stage with
  | waits ready =>
    cases ready with
    | locked kind' =>
      rw [kind] at kind'
      cases kind'
  | works working =>
    rename_i shared
    obtain ⟨kind', r, result, a, effect, stands, same⟩ := working
    rw [kind, Act.release.injEq] at kind'
    subst kind'
    rw [drop_head, result]
    have given : Exclusive (s.locks.go i (ret ()) [] s.mem) := agrees.exclusive.go s.mem fun _ _ _ mem => by cases mem
    refine ⟨pending, r, a, effect, agrees.go .replies given (fun o j other x mem name => ⟨?_, fun _ _ => rfl⟩) ?_⟩
    · by_cases own : o = spec.object c
      · subst own
        have both := agrees.exclusive i j other.symm (layout.lock (spec.object c), shared)
          (by rw [show s.locks.held i = _ from held]; exact List.mem_singleton_self _) x mem name.symm
        rw [Function.update_self, same both.1]
      · rw [Function.update_of_ne own]
    · intro o _ others
      by_cases own : o = spec.object c
      · subst own
        rw [Function.update_self]
        exact stands
      · rw [Function.update_of_ne own]
        refine agrees.holds o fun j => ?_
        by_cases same : j = i
        · rw [same, held]
          exact fun mem => own (layout.single (Prod.mk.inj (List.mem_singleton.mp mem)).1)
        · exact others j same

end Holder

/-- One step of the processes is a few steps of the objects. -/
theorem agrees_step [DecidableEq O] [DecidableEq L] {start : O → A}
    (ready : ∀ i c, Sectioned spec layout act c (code i c)) (run : spec.Run start s.history t)
    (agrees : Agrees spec layout act s t) (step : Step act code layout.all s s') :
    ∃ t', spec.Run start s'.history t' ∧ Agrees spec layout act s' t' := by
  have same : ∀ {i c done}, t.pending i = some (c, done) →
      (⟨t.value, Function.update t.pending i (some (c, done))⟩ : Atomic O A ι Call Reply) = t := by
    intro i c done pending
    rw [← pending, Function.update_eq_self]
  cases step with
  | call i c idle =>
    obtain ⟨free, nothing⟩ := agrees.idle i idle
    have waits : Stage spec layout act t.value s.mem c (code i c) (s.held i) none := free ▸ .waits (ready i c)
    have started := agrees.resume waits
    refine ⟨_, .call run i c nothing, ?_⟩
    simpa [State.go] using started.noted (s.history ++ [.call i c])
  | read i here =>
    obtain ⟨done, pending, stage⟩ := agrees.read here
    exact ⟨_, run, same pending ▸ agrees.resume stage⟩
  | write i here =>
    obtain ⟨pending, after⟩ := agrees.write here
    exact ⟨_, run, same pending ▸ after⟩
  | fetchAdd i here =>
    obtain ⟨done, pending, stage⟩ := agrees.busy i _ _ here
    generalize s.held i = held at stage
    cases stage with
    | waits ready => cases ready
    | works working => exact False.elim working
  | acquire i here kind free =>
    obtain ⟨pending, after⟩ := agrees.acquire here kind free
    exact ⟨_, run, same pending ▸ after⟩
  | denied i here kind error =>
    obtain ⟨pending, stage⟩ := agrees.denied here kind error
    exact ⟨_, .denied run pending, (agrees.resume stage).noted _⟩
  | taken i here kind free =>
    obtain ⟨_, own⟩ | own := agrees.acts here <;> rw [kind] at own <;> cases own
  | refused i here kind answer =>
    obtain ⟨_, own⟩ | own := agrees.acts here <;> rw [kind] at own <;> cases own
  | release i here kind =>
    obtain ⟨pending, r, a, effect, after⟩ := agrees.release here kind
    exact ⟨_, .effect run pending effect, after⟩
  | plain i here kind =>
    obtain ⟨_, own⟩ | own := agrees.acts here <;> rw [kind] at own <;> cases own
  | reply i here =>
    obtain ⟨done, pending, stage⟩ := agrees.busy i _ _ here
    generalize held : s.held i = locks at stage
    cases stage with
    | waits ready =>
      cases ready with
      | atOnce all =>
        have effect := Spec.Run.effect run pending (all _)
        have replied := Spec.Run.reply effect (i := i) (Function.update_self ..)
        refine ⟨_, replied, ?_⟩
        rw [Function.update_eq_self, Function.update_idem]
        exact agrees.rest held _
    | works working => exact False.elim working
    | replies => exact ⟨_, .reply run pending, agrees.rest held _⟩
  | outside m kept =>
    refine ⟨t, run, fun o unheld => ?_, agrees.idle, fun i c p active => ?_, agrees.exclusive⟩
    · exact layout.near _ _ _ _ (fun b mem => kept b ⟨o, mem⟩) (agrees.holds o unheld)
    · obtain ⟨done, pending, stage⟩ := agrees.busy i c p active
      exact ⟨done, pending, stage.keeps fun _ _ _ => ⟨rfl, fun b mem => kept b ⟨_, mem⟩⟩⟩

/-- Whatever the order of their steps, the processes see calls that take effect or are denied at one moment, and an
    object that nobody works on alone holds its value. -/
theorem linearizable [DecidableEq O] [DecidableEq L] {start : O → A}
    (ready : ∀ i c, Sectioned spec layout act c (code i c)) (stands : ∀ o, layout.holds o (start o) m)
    (runs : Runs act code layout.all (origin m) s) :
    ∃ t, spec.Run start s.history t ∧ Agrees spec layout act s t := by
  induction runs with
  | refl =>
    refine ⟨_, .start, fun o _ => stands o, fun i _ => ⟨rfl, rfl⟩, fun i c p active => ?_, ?_⟩
    · cases active
    · exact fun i j _ x mem => by cases mem
  | tail _ step ih =>
    obtain ⟨t, run, agrees⟩ := ih
    exact agrees_step ready run agrees step

/-- The rest of a call that has its lock, when it runs alone. -/
theorem runs_section [DecidableEq L] {own others kept : Set Nat} {l : L} {shared : Bool} {post : Reply → Mem → Prop}
    {i : ι} {c : Call} {p : Prog C Reply} {r : Reply} (inside : Inside act own others l shared post p s.mem)
    (here : s.active i = some (c, p)) (run : exec p s.mem = some (r, m')) :
    Runs act code kept s (s.done i (drop l (s.held i)) m' r) := by
  induction p generalizing s with
  | ret => exact inside.elim
  | read o n next ih =>
    have rest : Inside act own others l shared post (next (load s.mem o n)) s.mem := inside.elim And.right fun all => all _
    have later := ih (load s.mem o n) (s := s.go i c (next (load s.mem o n)) (s.held i) s.mem) rest (by simp) run
    rw [State.go_done, State.go_held] at later
    exact .head (.read i here) later
  | write o n v next ih =>
    have later := ih (s := s.go i c next (s.held i) (store s.mem o n v)) inside.2.2 (by simp) run
    rw [State.go_done, State.go_held] at later
    exact .head (.write i here) later
  | fetchAdd => exact inside.elim
  | call k next =>
    obtain ⟨kind, r', result, _⟩ := inside
    rw [exec_call, result] at run
    obtain ⟨rfl, rfl⟩ := Prod.mk.inj (Option.some.inj run)
    have released : Step act code kept s _ := .release i here kind
    rw [result] at released
    have replied : Step act code kept (s.go i c (ret r') (drop l (s.held i)) s.mem) _ := .reply i (State.go_active ..)
    exact .head released (.single (by simpa [State.go, State.done] using replied))
  | spin => simp at run

/-- A call that finds the lock of its object free and is not disturbed replies. -/
theorem runs_call [DecidableEq L] {kept : Set Nat} {i : ι} {c : Call} {k : C} {next : Int → Prog C Reply} {a : A} {r : Reply}
    (ready : Sectioned spec layout act c (call k next)) (holds : layout.holds (spec.object c) a s.mem)
    (here : s.active i = some (c, call k next)) (idle : s.held i = [])
    (free : ∀ shared, s.locks.Free (layout.lock (spec.object c)) shared) (run : exec (call k next) s.mem = some (r, m')) :
    Runs act code kept s (s.done i [] m' r) := by
  cases ready with
  | @locked _ _ shared kind _ work =>
    have taken : Step act code kept s _ := .acquire i here kind (free shared)
    rw [idle] at taken
    have later : Runs act code kept (s.go i c (next 0) [(layout.lock (spec.object c), shared)] s.mem) _ :=
      runs_section (work a _ holds) (State.go_active ..) run
    rw [State.go_done, State.go_held, drop_head] at later
    exact .head taken later

end Run

end Linearization
