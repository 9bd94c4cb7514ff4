import OffsetStore.Lib.Program

/- Processes that take and give back locks. A program is orderly when it waits only for
   locks that rank above all it holds; then the processes never wait for each other in
   a circle, however many there are and whatever they find in memory. -/
namespace LockOrder
open ByteMemory Program Prog
variable {C L α β ι : Type}

/-- What a call does to the locks. An attempt does not wait: it takes the lock for itself
    alone or is refused. -/
inductive Act (L : Type) where
  | acquire (lock : L) (shared : Bool)
  | attempt (lock : L) (refused : Int → Prop)
  | release (lock : L)
  | plain

/-- The locks a process holds, each with whether it shares it. -/
abbrev Locks (L : Type) := List (L × Bool)

section Orderly
variable [DecidableEq L]

def drop (l : L) (held : Locks L) : Locks L := held.eraseP fun x => x.1 = l

@[simp] theorem drop_head (l : L) (shared : Bool) (held : Locks L) : drop l ((l, shared) :: held) = held := by
  simp [drop]

/-- Holding these locks, the program waits for higher ones only, and releases only what it holds. -/
def Orderly (act : C → Act L) (rank : L → Nat) (post : α → Locks L → Prop) : Prog C α → Locks L → Prop
  | .ret a, held => post a held
  | .read _ _ next, held => ∀ v, Orderly act rank post (next v) held
  | .write _ _ _ next, held => Orderly act rank post next held
  | .fetchAdd _ _ _ next, held => ∀ v, Orderly act rank post (next v) held
  | .call c next, held =>
    match act c with
    | .acquire l shared => (∀ x ∈ held, rank x.1 < rank l) ∧ Orderly act rank post (next 0) ((l, shared) :: held)
    | .attempt l refused =>
      Orderly act rank post (next 0) ((l, false) :: held) ∧ ∀ r, refused r → Orderly act rank post (next r) held
    | .release l => (∃ x ∈ held, x.1 = l) ∧ Orderly act rank post (next 0) (drop l held)
    | .plain => ∀ r, Orderly act rank post (next r) held
  | .spin, _ => True

variable {act : C → Act L} {rank : L → Nat} {held : Locks L}

theorem orderly_bind {mid : α → Locks L → Prop} {post : β → Locks L → Prop} {p : Prog C α} {f : α → Prog C β}
    (first : Orderly act rank mid p held) (second : ∀ a held', mid a held' → Orderly act rank post (f a) held') :
    Orderly act rank post (p >>= f) held := by
  induction p generalizing held with
  | ret a => exact second a held first
  | read o n next ih => exact fun v => ih v (first v)
  | write o n v next ih => exact ih first
  | fetchAdd o n d next ih => exact fun v => ih v (first v)
  | call c next ih =>
    simp only [call_bind, Orderly] at first ⊢
    split at first
    · exact ⟨first.1, ih 0 first.2⟩
    · exact ⟨ih 0 first.1, fun r refused => ih r (first.2 r refused)⟩
    · exact ⟨first.1, ih 0 first.2⟩
    · exact fun r => ih r (first r)
  | spin => trivial

/-- A program that only loads takes no lock. -/
theorem orderly_loads {post : α → Locks L → Prop} {p : Prog C α} (loads : Loads p) (all : ∀ a, post a held) :
    Orderly act rank post p held := by
  induction p with
  | ret a => exact all a
  | read o n next ih => exact fun v => ih v (loads v)
  | write => exact loads.elim
  | fetchAdd => exact loads.elim
  | call => exact loads.elim
  | spin => trivial

end Orderly

/-- The program waits only for locks of rank k or more, and ends with the locks it began with. -/
def Balanced [DecidableEq L] (act : C → Act L) (rank : L → Nat) (k : Nat) (p : Prog C α) : Prop :=
  ∀ held : Locks L, (∀ x ∈ held, rank x.1 < k) → Orderly act rank (fun _ after => after = held) p held

/-- The program begins inside the section of a lock, leaves the section on every way out, and then
    waits for locks of rank k or more. -/
def Closes [DecidableEq L] (act : C → Act L) (rank : L → Nat) (k : Nat) (l : L) (p : Prog C α) : Prop :=
  ∀ (held : Locks L) (shared : Bool), (∀ x ∈ held, rank x.1 < k ∧ rank x.1 < rank l) →
    Orderly act rank (fun _ after => after = held) p ((l, shared) :: held)

section Balanced
variable [DecidableEq L] {act : C → Act L} {rank : L → Nat} {k : Nat} {l : L}

theorem balanced_ret {a : α} : Balanced act rank k (ret a : Prog C α) := fun _ _ => rfl

theorem balanced_spin : Balanced act rank k (spin : Prog C α) := fun _ _ => trivial

theorem balanced_read {o n : Nat} {next : Nat → Prog C α} (all : ∀ v, Balanced act rank k (next v)) :
    Balanced act rank k (read o n next) := fun held low v => all v held low

theorem balanced_write {o n v : Nat} {next : Prog C α} (rest : Balanced act rank k next) :
    Balanced act rank k (write o n v next) := fun held low => rest held low

theorem balanced_fetchAdd {o n d : Nat} {next : Nat → Prog C α} (all : ∀ v, Balanced act rank k (next v)) :
    Balanced act rank k (fetchAdd o n d next) := fun held low v => all v held low

theorem balanced_plain {c : C} {next : Int → Prog C α} (kind : act c = .plain)
    (all : ∀ r, Balanced act rank k (next r)) : Balanced act rank k (call c next) := by
  intro held low
  simp only [Orderly, kind]
  exact fun r => all r held low

theorem balanced_loads {p : Prog C α} (loads : Loads p) : Balanced act rank k p :=
  fun _ _ => orderly_loads loads fun _ => rfl

theorem balanced_raise {k' : Nat} {p : Prog C α} (balanced : Balanced act rank k' p) (below : k ≤ k') :
    Balanced act rank k p := fun held low => balanced held fun x mem => Nat.lt_of_lt_of_le (low x mem) below

theorem balanced_bind {p : Prog C α} {f : α → Prog C β} (first : Balanced act rank k p)
    (second : ∀ a, Balanced act rank k (f a)) : Balanced act rank k (p >>= f) := by
  intro held low
  refine orderly_bind (first held low) ?_
  rintro a _ rfl
  exact second a _ low

theorem balanced_ite {c : Prop} [Decidable c] {p q : Prog C α} (yes : c → Balanced act rank k p)
    (no : ¬c → Balanced act rank k q) : Balanced act rank k (if c then p else q) := by
  split
  · exact yes ‹_›
  · exact no ‹_›

theorem balanced_writeBytes {o : Nat} {bs : List UInt8} :
    Balanced act rank k (writeBytes o bs : Prog C Unit) := by
  induction bs generalizing o with
  | nil => exact balanced_ret
  | cons b bs ih => exact balanced_write ih

/-- Entering a section whose lock ranks k or higher. -/
theorem balanced_section {c : C} {next : Int → Prog C α} {shared : Bool} (kind : act c = .acquire l shared)
    (high : k ≤ rank l) (inside : Closes act rank k l (next 0)) : Balanced act rank k (call c next) := by
  intro held low
  have below : ∀ x ∈ held, rank x.1 < rank l := fun x mem => Nat.lt_of_lt_of_le (low x mem) high
  simp only [Orderly, kind]
  exact ⟨below, inside held shared fun x mem => ⟨low x mem, below x mem⟩⟩

/-- A lock that is tried, and given back at once. -/
theorem balanced_attempt {c c' : C} {next next' : Int → Prog C α} {refused : Int → Prop}
    (kind : act c = .attempt l refused) (given : next 0 = call c' next') (back : act c' = .release l)
    (rest : Balanced act rank k (next' 0)) (busy : ∀ r, refused r → Balanced act rank k (next r)) :
    Balanced act rank k (call c next) := by
  intro held low
  simp only [Orderly, kind, given, back, drop_head]
  exact ⟨⟨⟨(l, false), List.mem_cons_self, rfl⟩, rest held low⟩, fun r refused => busy r refused held low⟩

theorem closes_read {o n : Nat} {next : Nat → Prog C α} (all : ∀ v, Closes act rank k l (next v)) :
    Closes act rank k l (read o n next) := fun held shared low v => all v held shared low

theorem closes_write {o n v : Nat} {next : Prog C α} (rest : Closes act rank k l next) :
    Closes act rank k l (write o n v next) := fun held shared low => rest held shared low

theorem closes_plain {c : C} {next : Int → Prog C α} (kind : act c = .plain)
    (all : ∀ r, Closes act rank k l (next r)) : Closes act rank k l (call c next) := by
  intro held shared low
  simp only [Orderly, kind]
  exact fun r => all r held shared low

theorem closes_ite {c : Prop} [Decidable c] {p q : Prog C α} (yes : c → Closes act rank k l p)
    (no : ¬c → Closes act rank k l q) : Closes act rank k l (if c then p else q) := by
  split
  · exact yes ‹_›
  · exact no ‹_›

/-- Leaving the section. -/
theorem closes_release {c : C} {next : Int → Prog C α} (kind : act c = .release l)
    (rest : Balanced act rank k (next 0)) : Closes act rank k l (call c next) := by
  intro held shared low
  simp only [Orderly, kind, drop_head]
  exact ⟨⟨(l, shared), List.mem_cons_self, rfl⟩, rest held fun x mem => (low x mem).1⟩

/-- Work inside the section may use locks of higher rank. -/
theorem closes_bind {p : Prog C α} {f : α → Prog C β} (first : Balanced act rank (rank l + 1) p)
    (second : ∀ a, Closes act rank k l (f a)) : Closes act rank k l (p >>= f) := by
  intro held shared low
  have below : ∀ x ∈ (l, shared) :: held, rank x.1 < rank l + 1 := by
    intro x mem
    rcases List.mem_cons.mp mem with rfl | mem
    · exact Nat.lt_succ_self _
    · exact Nat.lt_succ_of_lt (low x mem).2
  refine orderly_bind (first _ below) ?_
  rintro a _ rfl
  exact second a held shared low

theorem closes_loads {p : Prog C α} {f : α → Prog C β} (loads : Loads p) (second : ∀ a, Closes act rank k l (f a)) :
    Closes act rank k l (p >>= f) := closes_bind (balanced_loads loads) second

/-- A part that leaves the section on every way, and what comes after it. -/
theorem closes_then {p : Prog C α} {f : α → Prog C β} (first : Closes act rank k l p)
    (second : ∀ a, Balanced act rank k (f a)) : Closes act rank k l (p >>= f) := by
  intro held shared low
  refine orderly_bind (first held shared low) ?_
  rintro a _ rfl
  exact second a _ fun x mem => (low x mem).1

theorem closes_spin : Closes act rank k l (spin : Prog C α) := fun _ _ _ => trivial

end Balanced

/-- The processes with their codes and locks, and the memory they share. -/
structure System (C L ι : Type) where
  code : ι → Prog C Unit
  held : ι → Locks L
  mem : Mem

/-- Nobody has the lock, or it is wanted for sharing and everybody who has it shares it. -/
def System.Free (s : System C L ι) (l : L) (shared : Bool) : Prop :=
  ∀ i, ∀ x ∈ s.held i, x.1 = l → shared = true ∧ x.2 = true

def System.Busy (s : System C L ι) (i : ι) : Prop := s.code i ≠ ret ()

section Waiting
variable {act : C → Act L} {s : System C L ι}

/-- The process waits for a lock that is not free. -/
def Waits (act : C → Act L) (s : System C L ι) (i : ι) (l : L) : Prop :=
  ∃ c next shared, s.code i = .call c next ∧ act c = .acquire l shared ∧ ¬s.Free l shared

/-- Some process has the lock that another one waits for. -/
theorem Waits.owner {i : ι} {l : L} (waits : Waits act s i l) : ∃ j, ∃ x ∈ s.held j, x.1 = l := by
  obtain ⟨c, next, shared, _, _, taken⟩ := waits
  simp only [System.Free, not_forall] at taken
  obtain ⟨j, x, mem, name, _⟩ := taken
  exact ⟨j, x, mem, name⟩

end Waiting

/-- Two processes have the same lock only when both share it. -/
def Exclusive (s : System C L ι) : Prop :=
  ∀ i j, i ≠ j → ∀ x ∈ s.held i, ∀ y ∈ s.held j, x.1 = y.1 → x.2 = true ∧ y.2 = true

/-- Every process is orderly, and gives back all it has. -/
def AllOrderly [DecidableEq L] (act : C → Act L) (rank : L → Nat) (s : System C L ι) : Prop :=
  ∀ i, Orderly act rank (fun _ held => held = []) (s.code i) (s.held i)

section Waiting
variable [DecidableEq L] {act : C → Act L} {rank : L → Nat} {s : System C L ι}

/-- A process that is not in a call holds nothing. -/
theorem AllOrderly.idle (kept : AllOrderly act rank s) {i : ι} (idle : ¬s.Busy i) : s.held i = [] := by
  have orderly := kept i
  rw [not_not.mp idle] at orderly
  exact orderly

theorem orderly_idle (idle : ∀ i, ¬s.Busy i) (none : ∀ i, s.held i = []) : AllOrderly act rank s := by
  intro i
  rw [not_not.mp (idle i)]
  exact none i

/-- The wait graph climbs: whoever waits and holds something waits for a higher lock. -/
theorem AllOrderly.climbs (kept : AllOrderly act rank s) {i : ι} {l : L} (waits : Waits act s i l) {x : L × Bool}
    (mem : x ∈ s.held i) : rank x.1 < rank l := by
  obtain ⟨c, next, shared, here, kind, _⟩ := waits
  have own := kept i
  simp only [here, Orderly, kind] at own
  exact own.1 x mem

theorem AllOrderly.releases (kept : AllOrderly act rank s) {i : ι} {c : C} {next : Int → Prog C Unit} {l : L}
    (here : s.code i = .call c next) (kind : act c = .release l) : ∃ x ∈ s.held i, x.1 = l := by
  have own := kept i
  simp only [here, Orderly, kind] at own
  exact own.1

/-- Following the owners of the locks waited for, one meets a process in a call that does not wait. -/
theorem AllOrderly.not_all_wait (kept : AllOrderly act rank s) {top : Nat} (bounded : ∀ l, rank l ≤ top) {i : ι}
    (busy : s.Busy i) : ∃ j, s.Busy j ∧ ∀ l, ¬Waits act s j l := by
  by_contra circle
  push Not at circle
  -- every busy process waits, and its owner for a lock that ranks higher still
  have endless : ∀ n, ∃ j l, Waits act s j l ∧ n ≤ rank l := by
    intro n
    induction n with
    | zero =>
      obtain ⟨l, waits⟩ := circle i busy
      exact ⟨i, l, waits, Nat.zero_le _⟩
    | succ n ih =>
      obtain ⟨j, l, waits, high⟩ := ih
      obtain ⟨owner, x, mem, rfl⟩ := waits.owner
      have working : s.Busy owner := by
        intro idle
        rw [kept.idle (not_not.mpr idle)] at mem
        cases mem
      obtain ⟨l', waits'⟩ := circle owner working
      have above := kept.climbs waits' mem
      exact ⟨owner, l', waits', by omega⟩
  obtain ⟨j, l, _, high⟩ := endless (top + 1)
  have low := bounded l
  omega

end Waiting

section System
variable [DecidableEq ι]

/-- The process goes on with this code and these locks. -/
def System.go (s : System C L ι) (i : ι) (p : Prog C Unit) (held : Locks L) (m : Mem) : System C L ι :=
  ⟨Function.update s.code i p, Function.update s.held i held, m⟩

section Exclusive
variable {s : System C L ι}

theorem Exclusive.go (exclusive : Exclusive s) {i : ι} {p : Prog C Unit} {held : Locks L} (m : Mem)
    (others : ∀ j, j ≠ i → ∀ x ∈ held, ∀ y ∈ s.held j, x.1 = y.1 → x.2 = true ∧ y.2 = true) :
    Exclusive (s.go i p held m) := by
  intro j k apart x mem y mem' name
  by_cases first : j = i
  · subst first
    simp only [System.go, Function.update_self, Function.update_of_ne (Ne.symm apart)] at mem mem'
    exact others k (Ne.symm apart) x mem y mem' name
  · by_cases second : k = i
    · subst second
      simp only [System.go, Function.update_self, Function.update_of_ne first] at mem mem'
      exact (others j first y mem' x mem name.symm).symm
    · simp only [System.go, Function.update_of_ne first, Function.update_of_ne second] at mem mem'
      exact exclusive j k apart x mem y mem' name

theorem Exclusive.stays (exclusive : Exclusive s) (i : ι) (p : Prog C Unit) (m : Mem) :
    Exclusive (s.go i p (s.held i) m) :=
  exclusive.go m fun j other x mem y mem' name => exclusive i j (Ne.symm other) x mem y mem' name

theorem Exclusive.takes (exclusive : Exclusive s) (i : ι) (p : Prog C Unit) (m : Mem) {l : L} {shared : Bool}
    (free : s.Free l shared) : Exclusive (s.go i p ((l, shared) :: s.held i) m) := by
  refine exclusive.go m fun j other x mem y mem' name => ?_
  rcases List.mem_cons.mp mem with rfl | mem
  · exact free j y mem' name.symm
  · exact exclusive i j (Ne.symm other) x mem y mem' name

end Exclusive

variable [DecidableEq L]

/-- A step of one process. An idle process may start any task; a lock is acquired when it is free
    and an attempt on a lock that is not free is refused. -/
inductive Step (act : C → Act L) (tasks : Prog C Unit → Prop) (i : ι) : System C L ι → System C L ι → Prop where
  | start {s : System C L ι} {p : Prog C Unit} (idle : ¬s.Busy i) (task : tasks p) :
      Step act tasks i s (s.go i p (s.held i) s.mem)
  | read {s : System C L ι} {o n : Nat} {next : Nat → Prog C Unit} (here : s.code i = .read o n next) :
      Step act tasks i s (s.go i (next (load s.mem o n)) (s.held i) s.mem)
  | write {s : System C L ι} {o n v : Nat} {next : Prog C Unit} (here : s.code i = .write o n v next) :
      Step act tasks i s (s.go i next (s.held i) (store s.mem o n v))
  | fetchAdd {s : System C L ι} {o n d : Nat} {next : Nat → Prog C Unit} (here : s.code i = .fetchAdd o n d next) :
      Step act tasks i s (s.go i (next (load s.mem o n)) (s.held i) (store s.mem o n (load s.mem o n + d)))
  | acquire {s : System C L ι} {c : C} {next : Int → Prog C Unit} {l : L} {shared : Bool}
      (here : s.code i = .call c next) (kind : act c = .acquire l shared) (free : s.Free l shared) :
      Step act tasks i s (s.go i (next 0) ((l, shared) :: s.held i) s.mem)
  | taken {s : System C L ι} {c : C} {next : Int → Prog C Unit} {l : L} {refused : Int → Prop}
      (here : s.code i = .call c next) (kind : act c = .attempt l refused) (free : s.Free l false) :
      Step act tasks i s (s.go i (next 0) ((l, false) :: s.held i) s.mem)
  | refused {s : System C L ι} {c : C} {next : Int → Prog C Unit} {l : L} {refused : Int → Prop} {r : Int}
      (here : s.code i = .call c next) (kind : act c = .attempt l refused) (busy : ¬s.Free l false) (answer : refused r) :
      Step act tasks i s (s.go i (next r) (s.held i) s.mem)
  | release {s : System C L ι} {c : C} {next : Int → Prog C Unit} {l : L}
      (here : s.code i = .call c next) (kind : act c = .release l) :
      Step act tasks i s (s.go i (next 0) (drop l (s.held i)) s.mem)
  | plain {s : System C L ι} {c : C} {next : Int → Prog C Unit} {r : Int}
      (here : s.code i = .call c next) (kind : act c = .plain) :
      Step act tasks i s (s.go i (next r) (s.held i) s.mem)

section Run
variable {act : C → Act L} {rank : L → Nat} {tasks : Prog C Unit → Prop} {s s' : System C L ι}

theorem AllOrderly.go (kept : AllOrderly act rank s) {i : ι} {p : Prog C Unit} {held : Locks L} (m : Mem)
    (orderly : Orderly act rank (fun _ held => held = []) p held) : AllOrderly act rank (s.go i p held m) := by
  intro j
  by_cases same : j = i
  · subst same
    simpa [System.go] using orderly
  · simpa [System.go, same] using kept j

theorem orderly_step (orderly : ∀ p, tasks p → Orderly act rank (fun _ held => held = []) p [])
    (kept : AllOrderly act rank s) {i : ι} (step : Step act tasks i s s') : AllOrderly act rank s' := by
  have own := kept i
  cases step with
  | start idle task =>
    refine kept.go s.mem ?_
    rw [kept.idle idle]
    exact orderly _ task
  | read here =>
    rw [here] at own
    exact kept.go s.mem (own _)
  | write here =>
    rw [here] at own
    exact kept.go _ own
  | fetchAdd here =>
    rw [here] at own
    exact kept.go _ (own _)
  | acquire here kind =>
    simp only [here, Orderly, kind] at own
    exact kept.go s.mem own.2
  | taken here kind =>
    simp only [here, Orderly, kind] at own
    exact kept.go s.mem own.1
  | refused here kind _ answer =>
    simp only [here, Orderly, kind] at own
    exact kept.go s.mem (own.2 _ answer)
  | release here kind =>
    simp only [here, Orderly, kind] at own
    exact kept.go s.mem own.2
  | plain here kind =>
    simp only [here, Orderly, kind] at own
    exact kept.go s.mem (own _)

/-- Any number of steps of any processes. -/
abbrev Runs (act : C → Act L) (tasks : Prog C Unit → Prop) : System C L ι → System C L ι → Prop :=
  Relation.ReflTransGen fun s s' => ∃ i, Step act tasks i s s'

theorem orderly_runs (orderly : ∀ p, tasks p → Orderly act rank (fun _ held => held = []) p [])
    (kept : AllOrderly act rank s) (runs : Runs act tasks s s') : AllOrderly act rank s' := by
  induction runs with
  | refl => exact kept
  | tail _ step ih =>
    obtain ⟨i, step⟩ := step
    exact orderly_step orderly ih step

theorem exclusive_step (exclusive : Exclusive s) {i : ι} (step : Step act tasks i s s') : Exclusive s' := by
  cases step with
  | acquire _ _ free => exact exclusive.takes i _ _ free
  | taken _ _ free => exact exclusive.takes i _ _ free
  | release =>
    refine exclusive.go s.mem fun j other x mem y mem' name => ?_
    exact exclusive i j (Ne.symm other) x (List.mem_of_mem_eraseP mem) y mem' name
  | _ => exact exclusive.stays i _ _

theorem exclusive_runs (exclusive : Exclusive s) (runs : Runs act tasks s s') : Exclusive s' := by
  induction runs with
  | refl => exact exclusive
  | tail _ step ih =>
    obtain ⟨i, step⟩ := step
    exact exclusive_step ih step

/-- A process in a call that does not wait can make a step, unless it is in an endless loop. -/
theorem step_of_not_waits (answered : ∀ c l refused, act c = .attempt l refused → ∃ r, refused r) {i : ι}
    (busy : s.Busy i) (free : ∀ l, ¬Waits act s i l) : s.code i = spin ∨ ∃ s', Step act tasks i s s' := by
  cases here : s.code i with
  | ret a => exact absurd here busy
  | read o n next => exact Or.inr ⟨_, .read here⟩
  | write o n v next => exact Or.inr ⟨_, .write here⟩
  | fetchAdd o n d next => exact Or.inr ⟨_, .fetchAdd here⟩
  | spin => exact Or.inl rfl
  | call c next =>
    refine Or.inr ?_
    cases kind : act c with
    | acquire l shared =>
      have open_ : s.Free l shared := by
        by_contra taken
        exact free l ⟨c, next, shared, here, kind, taken⟩
      exact ⟨_, .acquire here kind open_⟩
    | attempt l refused =>
      by_cases open_ : s.Free l false
      · exact ⟨_, .taken here kind open_⟩
      · obtain ⟨r, answer⟩ := answered c l refused kind
        exact ⟨_, .refused here kind open_ answer⟩
    | release l => exact ⟨_, .release here kind⟩
    | plain => exact ⟨s.go i (next 0) (s.held i) s.mem, .plain here kind⟩

end Run

end System

attribute [irreducible] Orderly

end LockOrder
