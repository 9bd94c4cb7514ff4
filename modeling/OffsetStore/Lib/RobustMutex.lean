import OffsetStore.Lib.Program

/- Processes that use one object under one robust mutex and may die at any point.
   Every load, store and call is a step of its own; whatever does not hold the mutex
   is not kept out by the machine, only by its own program. A lock left by a dead
   process goes to the next locker with a special answer, and is ruined unless that
   process marks it consistent before its unlock. A call returns with its unlock. -/
namespace RobustMutex
open ByteMemory Program Prog
variable {C Op Res Abs : Type}

/-- The calls of the mutex and its two answers besides 0. -/
structure Calls (C : Type) where
  lock : C
  consistent : C
  unlock : C
  ownerDead : Int
  notRecoverable : Int

inductive Owner where
  | free
  | held (p : Nat) (consistent : Bool)
  | orphaned
  | ruined
  deriving DecidableEq, Repr

/-- The log lists the calls in the order of their unlocks, with their results, and the
    calls that died in between, without one. -/
structure State (C Op Res : Type) where
  mem : Mem
  owner : Owner
  active : Nat → Option (Op × Prog C Res)
  log : List (Op × Option Res)

def origin (m : Mem) : State C Op Res := ⟨m, .free, fun _ => none, []⟩

def released : Bool → Owner
  | true => .free
  | false => .ruined

variable [DecidableEq C]

/-- A step of process p with the program that is left of its call. -/
inductive Step (x : Calls C) (code : Nat → Op → Prog C Res) (kept : Set Nat) :
    State C Op Res → State C Op Res → Prop where
  | begin {st} (p : Nat) (op : Op) (idle : st.active p = none) :
      Step x code kept st { st with active := Function.update st.active p (some (op, code p op)) }
  | read {st} (p : Nat) {op o n next} (busy : st.active p = some (op, read o n next)) :
      Step x code kept st
        { st with active := Function.update st.active p (some (op, next (load st.mem o n))) }
  | write {st} (p : Nat) {op o n v next} (busy : st.active p = some (op, write o n v next)) :
      Step x code kept st
        { st with mem := store st.mem o n v, active := Function.update st.active p (some (op, next)) }
  | fetchAdd {st} (p : Nat) {op o n d next} (busy : st.active p = some (op, fetchAdd o n d next)) :
      Step x code kept st
        { st with
          mem := store st.mem o n (load st.mem o n + d)
          active := Function.update st.active p (some (op, next (load st.mem o n))) }
  | lock {st} (p : Nat) {op next} (busy : st.active p = some (op, call x.lock next))
      (free : st.owner = .free) :
      Step x code kept st
        { st with owner := .held p true, active := Function.update st.active p (some (op, next 0)) }
  | inherit {st} (p : Nat) {op next} (busy : st.active p = some (op, call x.lock next))
      (dead : st.owner = .orphaned) :
      Step x code kept st
        { st with
          owner := .held p false
          active := Function.update st.active p (some (op, next x.ownerDead)) }
  | refuse {st} (p : Nat) {op next} (busy : st.active p = some (op, call x.lock next))
      (ruined : st.owner = .ruined) :
      Step x code kept st
        { st with active := Function.update st.active p (some (op, next x.notRecoverable)) }
  | recover {st} (p : Nat) {op next} {b : Bool} (busy : st.active p = some (op, call x.consistent next))
      (mine : st.owner = .held p b) :
      Step x code kept st
        { st with owner := .held p true, active := Function.update st.active p (some (op, next 0)) }
  | unlock {st} (p : Nat) {op next} {b : Bool} {r : Res}
      (busy : st.active p = some (op, call x.unlock next)) (mine : st.owner = .held p b)
      (result : next 0 = ret r) :
      Step x code kept st
        { st with
          owner := released b
          active := Function.update st.active p none
          log := st.log ++ [(op, some r)] }
  | other {st} (p : Nat) {op c next} (r : Int) (busy : st.active p = some (op, call c next))
      (foreign : c ≠ x.lock ∧ c ≠ x.consistent ∧ c ≠ x.unlock) :
      Step x code kept st { st with active := Function.update st.active p (some (op, next r)) }
  | die {st} (p : Nat) (away : ∀ b, st.owner ≠ .held p b) :
      Step x code kept st { st with active := Function.update st.active p none }
  | dieHolding {st} (p : Nat) {op q} {b : Bool} (busy : st.active p = some (op, q))
      (mine : st.owner = .held p b) :
      Step x code kept st
        { st with
          owner := .orphaned
          active := Function.update st.active p none
          log := st.log ++ [(op, none)] }
  | outside {st} (m : Mem) (same : ∀ a ∈ kept, m a = st.mem a) : Step x code kept st { st with mem := m }

inductive Reachable (x : Calls C) (code : Nat → Op → Prog C Res) (kept : Set Nat)
    (start : State C Op Res) : State C Op Res → Prop where
  | refl : Reachable x code kept start start
  | step {st st'} (before : Reachable x code kept start st) (next : Step x code kept st st') :
      Reachable x code kept start st'

/-- A log explained by a sequential object: a call that returned took its effect with
    the result it returned, a call that died took its whole effect or none. -/
inductive Explains (next : Abs → Op → Res → Option Abs) (s₀ : Abs) : List (Op × Option Res) → Abs → Prop where
  | start : Explains next s₀ [] s₀
  | returned {log s t op r} (before : Explains next s₀ log s) (effect : next s op r = some t) :
      Explains next s₀ (log ++ [(op, some r)]) t
  | lost {log s op} (before : Explains next s₀ log s) : Explains next s₀ (log ++ [(op, none)]) s
  | taken {log s t op r} (before : Explains next s₀ log s) (effect : next s op r = some t) :
      Explains next s₀ (log ++ [(op, none)]) t

/-- The bytes stand for the state before the call or for one after it. -/
def Either (repr : Abs → Mem → Prop) (next : Abs → Op → Res → Option Abs) (s : Abs) (op : Op) (m : Mem) : Prop :=
  repr s m ∨ ∃ r t, next s op r = some t ∧ repr t m

/-- The rest of a critical section that began in s: wherever it stops the bytes stand for
    s or for a state after the call, it loads kept bytes only, and it ends with its
    unlock and the right result. -/
def Careful (x : Calls C) (repr : Abs → Mem → Prop) (next : Abs → Op → Res → Option Abs) (kept : Set Nat)
    (s : Abs) (op : Op) : Bool → Prog C Res → Mem → Prop
  | _, .ret _, _ => False
  | b, .read o n k, m => Either repr next s op m ∧ (∀ a, o ≤ a → a < o + n → a ∈ kept) ∧
      Careful x repr next kept s op b (k (load m o n)) m
  | b, .write o n v k, m => Either repr next s op m ∧ Careful x repr next kept s op b k (store m o n v)
  | _, .fetchAdd _ _ _ _, _ => False
  | b, .call c k, m =>
      if c = x.unlock then b = true ∧ ∃ r t, k 0 = ret r ∧ next s op r = some t ∧ repr t m
      else if c = x.consistent then Either repr next s op m ∧ Careful x repr next kept s op true (k 0) m
      else if c = x.lock then False
      else Either repr next s op m ∧ ∀ r, Careful x repr next kept s op b (k r) m
  | _, .spin, _ => False

/-- A call that begins with the lock, and is careful from there. -/
def Guarded (x : Calls C) (repr : Abs → Mem → Prop) (next : Abs → Op → Res → Option Abs) (kept : Set Nat)
    (op : Op) (q : Prog C Res) : Prop :=
  ∃ k, q = call x.lock k ∧ ∀ s m, repr s m →
    Careful x repr next kept s op true (k 0) m ∧ Careful x repr next kept s op false (k x.ownerDead) m

/-- What the object needs of its description: the calls of the mutex are three, and only
    the kept bytes matter. -/
structure Sound (x : Calls C) (code : Nat → Op → Prog C Res) (repr : Abs → Mem → Prop)
    (next : Abs → Op → Res → Option Abs) (kept : Set Nat) : Prop where
  lock_unlock : x.lock ≠ x.unlock
  lock_consistent : x.lock ≠ x.consistent
  consistent_unlock : x.consistent ≠ x.unlock
  near : ∀ s m m', (∀ a ∈ kept, m' a = m a) → repr s m → repr s m'
  guarded : ∀ p op, Guarded x repr next kept op (code p op)

section Rules
variable {x : Calls C} {repr : Abs → Mem → Prop} {next : Abs → Op → Res → Option Abs} {kept : Set Nat}
  {s : Abs} {op : Op} {b : Bool}

theorem Careful.either {q : Prog C Res} {m : Mem} (careful : Careful x repr next kept s op b q m) :
    Either repr next s op m := by
  cases q with
  | ret r => exact False.elim careful
  | read o n k => exact careful.1
  | write o n v k => exact careful.1
  | fetchAdd o n d k => exact False.elim careful
  | call c k =>
    unfold Careful at careful
    split at careful
    · obtain ⟨_, r, t, _, effect, stands⟩ := careful
      exact Or.inr ⟨r, t, effect, stands⟩
    · split at careful
      · exact careful.1
      · split at careful
        · exact False.elim careful
        · exact careful.1
  | spin => exact False.elim careful

theorem Either.congr {m m' : Mem} (near : ∀ s, repr s m → repr s m') (either : Either repr next s op m) :
    Either repr next s op m' := by
  cases either with
  | inl before => exact Or.inl (near s before)
  | inr after =>
    obtain ⟨r, t, effect, stands⟩ := after
    exact Or.inr ⟨r, t, effect, near t stands⟩

theorem Careful.congr {q : Prog C Res} {m m' : Mem}
    (near : ∀ s m m', (∀ a ∈ kept, m' a = m a) → repr s m → repr s m') (same : ∀ a ∈ kept, m' a = m a)
    (careful : Careful x repr next kept s op b q m) : Careful x repr next kept s op b q m' := by
  induction q generalizing b m m' with
  | ret r => exact careful
  | read o n k ih =>
    obtain ⟨either, inside, rest⟩ := careful
    have loaded : load m' o n = load m o n := load_congr fun a lo hi => same a (inside a lo hi)
    refine ⟨either.congr fun s => near s m m' same, inside, ?_⟩
    rw [loaded]
    exact ih _ same rest
  | write o n v k ih =>
    refine ⟨careful.1.congr fun s => near s m m' same, ih (fun a mem => ?_) careful.2⟩
    simp only [store]
    split
    · rfl
    · exact same a mem
  | fetchAdd o n d k ih => exact careful
  | call c k ih =>
    unfold Careful at careful ⊢
    split at careful
    · obtain ⟨clean, r, t, result, effect, stands⟩ := careful
      rw [if_pos ‹_›]
      exact ⟨clean, r, t, result, effect, near t m m' same stands⟩
    · rw [if_neg ‹_›]
      split at careful
      · rw [if_pos ‹_›]
        exact ⟨careful.1.congr fun s => near s m m' same, ih 0 same careful.2⟩
      · rw [if_neg ‹_›]
        split at careful
        · exact False.elim careful
        · rw [if_neg ‹_›]
          exact ⟨careful.1.congr fun s => near s m m' same, fun r => ih r same (careful.2 r)⟩
  | spin => exact careful

/-- The rules below walk through the part of a section that still stands for s. -/
theorem careful_read {o n : Nat} {k : Nat → Prog C Res} {m : Mem} {v : Nat} (stands : repr s m)
    (inside : ∀ a, o ≤ a → a < o + n → a ∈ kept) (value : load m o n = v)
    (rest : Careful x repr next kept s op b (k v) m) : Careful x repr next kept s op b (read o n k) m :=
  ⟨Or.inl stands, inside, value ▸ rest⟩

theorem careful_write {o n v : Nat} {k : Prog C Res} {m : Mem} (stands : repr s m)
    (rest : Careful x repr next kept s op b k (store m o n v)) :
    Careful x repr next kept s op b (write o n v k) m := ⟨Or.inl stands, rest⟩

theorem careful_unlock {k : Int → Prog C Res} {m : Mem} {r : Res} {t : Abs} (result : k 0 = ret r)
    (effect : next s op r = some t) (stands : repr t m) :
    Careful x repr next kept s op true (call x.unlock k) m := by
  unfold Careful
  rw [if_pos rfl]
  exact ⟨rfl, r, t, result, effect, stands⟩

theorem careful_consistent {k : Int → Prog C Res} {m : Mem} (other : x.consistent ≠ x.unlock)
    (stands : repr s m) (rest : Careful x repr next kept s op true (k 0) m) :
    Careful x repr next kept s op b (call x.consistent k) m := by
  unfold Careful
  rw [if_neg other, if_pos rfl]
  exact ⟨Or.inl stands, rest⟩

theorem careful_readBytes {o n : Nat} {f : List UInt8 → Prog C Res} {m : Mem} (stands : repr s m)
    (inside : ∀ a, o ≤ a → a < o + n → a ∈ kept)
    (rest : Careful x repr next kept s op b (f (loadBytes m o n)) m) :
    Careful x repr next kept s op b (readBytes o n >>= f) m := by
  induction n generalizing o f with
  | zero => exact rest
  | succ n ih =>
    rw [readBytes, read_bind]
    refine careful_read stands (fun a lo hi => inside a lo (by omega)) rfl ?_
    rw [bind_assoc]
    refine ih (fun a lo hi => inside a (by omega) (by omega)) ?_
    simpa [loadBytes, load] using rest

/-- A copy to bytes that do not matter in s. -/
theorem careful_writeBytes {o : Nat} {bs : List UInt8} {f : Unit → Prog C Res} {m : Mem}
    (stands : ∀ m', SameOff m m' o (o + bs.length) → repr s m')
    (rest : Careful x repr next kept s op b (f ()) (storeBytes m o bs)) :
    Careful x repr next kept s op b (writeBytes o bs >>= f) m := by
  induction bs generalizing o m with
  | nil => exact rest
  | cons c bs ih =>
    rw [List.length_cons] at stands
    refine careful_write (stands m fun _ _ => rfl) (ih (fun m' same => stands m' ?_) rest)
    have first : SameOff m (store m o 1 c.toNat) o (o + (bs.length + 1)) := SameOff.store (by omega) (by omega)
    exact first.trans fun a out => same a (by omega)

end Rules

/-- The log is explained, the bytes stand for the state it leads to unless a process is in
    its critical section, and then that section is careful; everybody else waits. -/
structure Good (x : Calls C) (repr : Abs → Mem → Prop) (next : Abs → Op → Res → Option Abs) (kept : Set Nat)
    (s₀ s : Abs) (st : State C Op Res) : Prop where
  explains : Explains next s₀ st.log s
  idle : st.owner = .free ∨ st.owner = .orphaned → repr s st.mem
  inside : ∀ p b, st.owner = .held p b → ∃ op q, st.active p = some (op, q) ∧
    Careful x repr next kept s op b q st.mem
  waits : ∀ p op q, st.active p = some (op, q) → (∀ b, st.owner ≠ .held p b) →
    Guarded x repr next kept op q
  whole : st.owner ≠ .ruined

section Run
variable {x : Calls C} {code : Nat → Op → Prog C Res} {repr : Abs → Mem → Prop}
  {next : Abs → Op → Res → Option Abs} {kept : Set Nat} {s₀ s : Abs} {st st' : State C Op Res}

theorem good_origin {m : Mem} (stands : repr s₀ m) : Good x repr next kept s₀ s₀ (origin m) :=
  ⟨.start, fun _ => stands, by simp [origin], by simp [origin], by simp [origin]⟩

theorem Good.holder (good : Good x repr next kept s₀ s st) {p : Nat} {op : Op} {q : Prog C Res}
    (busy : st.active p = some (op, q)) (away : ∀ k, q ≠ call x.lock k) :
    ∃ b, st.owner = .held p b ∧ Careful x repr next kept s op b q st.mem := by
  by_cases mine : ∃ b, st.owner = .held p b
  · obtain ⟨b, held⟩ := mine
    obtain ⟨op', q', active, careful⟩ := good.inside p b held
    rw [busy] at active
    obtain ⟨rfl, rfl⟩ := Prod.mk.inj (Option.some.inj active)
    exact ⟨b, held, careful⟩
  · obtain ⟨k, start, _⟩ := good.waits p op q busy fun b held => mine ⟨b, held⟩
    exact absurd start (away k)

theorem Good.waiting (sound : Sound x code repr next kept) (good : Good x repr next kept s₀ s st) {p : Nat}
    {op : Op} {k : Int → Prog C Res} (busy : st.active p = some (op, call x.lock k)) :
    ∀ s m, repr s m → Careful x repr next kept s op true (k 0) m ∧
      Careful x repr next kept s op false (k x.ownerDead) m := by
  have away : ∀ b, st.owner ≠ .held p b := by
    intro b held
    obtain ⟨op', q, active, careful⟩ := good.inside p b held
    rw [busy] at active
    obtain ⟨rfl, rfl⟩ := Prod.mk.inj (Option.some.inj active)
    unfold Careful at careful
    rw [if_neg sound.lock_unlock, if_neg sound.lock_consistent, if_pos rfl] at careful
    exact careful
  obtain ⟨k', start, careful⟩ := good.waits p op _ busy away
  rw [call.injEq] at start
  rw [start.2]
  exact careful

theorem Good.goes_on (good : Good x repr next kept s₀ s st) {p : Nat} {op : Op} {b b' : Bool} {q : Prog C Res}
    {m : Mem} (held : st.owner = .held p b) (careful : Careful x repr next kept s op b' q m) :
    Good x repr next kept s₀ s
      { st with
        mem := m
        owner := .held p b'
        active := Function.update st.active p (some (op, q)) } := by
  refine ⟨good.explains, by simp, ?_, ?_, by simp⟩
  · intro p' b'' owner
    obtain ⟨rfl, rfl⟩ := Owner.held.inj owner
    exact ⟨op, q, Function.update_self .., careful⟩
  · intro p' op' q' busy away
    have other : p' ≠ p := fun same => away b' (by rw [same])
    simp only [Function.update_of_ne other] at busy
    exact good.waits p' op' q' busy fun c owner => other (by
      rw [held] at owner
      exact (Owner.held.inj owner).1.symm)

theorem Good.enters (good : Good x repr next kept s₀ s st) {p : Nat} {op : Op} {b : Bool} {q : Prog C Res}
    (careful : Careful x repr next kept s op b q st.mem) (unheld : ∀ p b, st.owner ≠ .held p b) :
    Good x repr next kept s₀ s
      { st with owner := .held p b, active := Function.update st.active p (some (op, q)) } := by
  refine ⟨good.explains, by simp, ?_, ?_, by simp⟩
  · intro p' b' owner
    obtain ⟨rfl, rfl⟩ := Owner.held.inj owner
    exact ⟨op, q, Function.update_self .., careful⟩
  · intro p' op' q' busy away
    have other : p' ≠ p := fun same => away b (by rw [same])
    simp only [Function.update_of_ne other] at busy
    exact good.waits p' op' q' busy fun c => unheld p' c

theorem Good.leaves (good : Good x repr next kept s₀ s st) {p : Nat} {b : Bool} {owner : Owner} {t : Abs}
    {log : List (Op × Option Res)} (held : st.owner = .held p b) (left : owner = .free ∨ owner = .orphaned)
    (explains : Explains next s₀ log t) (stands : repr t st.mem) :
    Good x repr next kept s₀ t
      { st with owner := owner, active := Function.update st.active p none, log := log } := by
  have unheld : ∀ p b, owner ≠ .held p b := by
    intro p b same
    rw [same] at left
    simp at left
  refine ⟨explains, fun _ => stands, fun p' b' same => absurd same (unheld p' b'), ?_, ?_⟩
  · intro p' op q busy _
    by_cases other : p' = p
    · subst other
      simp at busy
    · simp only [Function.update_of_ne other] at busy
      refine good.waits p' op q busy fun c same => other ?_
      rw [held] at same
      exact (Owner.held.inj same).1.symm
  · intro same
    simp only at same
    rw [same] at left
    simp at left

/-- A process that does not hold the mutex gets another program, or none. -/
theorem Good.replaced (good : Good x repr next kept s₀ s st) {p : Nat} (away : ∀ b, st.owner ≠ .held p b)
    {slot : Option (Op × Prog C Res)} (guarded : ∀ op q, slot = some (op, q) → Guarded x repr next kept op q) :
    Good x repr next kept s₀ s { st with active := Function.update st.active p slot } := by
  refine ⟨good.explains, good.idle, ?_, ?_, good.whole⟩
  · intro p' b held
    have other : p' ≠ p := fun same => away b (same ▸ held)
    simp only [Function.update_of_ne other]
    exact good.inside p' b held
  · intro p' op' q busy out
    by_cases same : p' = p
    · subst same
      simp only [Function.update_self] at busy
      exact guarded op' q busy
    · simp only [Function.update_of_ne same] at busy
      exact good.waits p' op' q busy out

theorem Good.begins (sound : Sound x code repr next kept) (good : Good x repr next kept s₀ s st) {p : Nat}
    (free : st.active p = none) (op : Op) :
    Good x repr next kept s₀ s { st with active := Function.update st.active p (some (op, code p op)) } := by
  refine good.replaced (fun b held => ?_) ?_
  · obtain ⟨op', q, busy, _⟩ := good.inside p b held
    rw [free] at busy
    simp at busy
  · rintro op' q ⟨⟩
    exact sound.guarded p op

theorem Good.recovers (sound : Sound x code repr next kept) (good : Good x repr next kept s₀ s st) {p : Nat} {op : Op}
    {k : Int → Prog C Res} (busy : st.active p = some (op, call x.consistent k)) :
    Good x repr next kept s₀ s { st with owner := .held p true, active := Function.update st.active p (some (op, k 0)) } := by
  obtain ⟨b, held, careful⟩ := good.holder busy fun k same => sound.lock_consistent (call.inj same).1.symm
  unfold Careful at careful
  rw [if_neg sound.consistent_unlock, if_pos rfl] at careful
  exact good.goes_on held careful.2

theorem Good.unlocks (sound : Sound x code repr next kept) (good : Good x repr next kept s₀ s st) {p : Nat} {op : Op}
    {b : Bool} {k : Int → Prog C Res} {r : Res} (busy : st.active p = some (op, call x.unlock k)) (mine : st.owner = .held p b)
    (result : k 0 = ret r) : ∃ t, Good x repr next kept s₀ t
      { st with owner := released b, active := Function.update st.active p none, log := st.log ++ [(op, some r)] } := by
  obtain ⟨b, held, careful⟩ := good.holder busy fun k same => sound.lock_unlock (call.inj same).1.symm
  unfold Careful at careful
  rw [if_pos rfl] at careful
  obtain ⟨clean, r', t, same, effect, stands⟩ := careful
  rw [held] at mine
  obtain ⟨_, rfl⟩ := Owner.held.inj mine
  rw [result] at same
  obtain rfl := ret.inj same
  subst clean
  exact ⟨t, good.leaves held (Or.inl rfl) (good.explains.returned effect) stands⟩

theorem Good.answered (good : Good x repr next kept s₀ s st) {p : Nat} {op : Op} {c : C} {k : Int → Prog C Res}
    (busy : st.active p = some (op, call c k)) (foreign : c ≠ x.lock ∧ c ≠ x.consistent ∧ c ≠ x.unlock) (r : Int) :
    Good x repr next kept s₀ s { st with active := Function.update st.active p (some (op, k r)) } := by
  obtain ⟨b, held, careful⟩ := good.holder busy fun k same => foreign.1 (call.inj same).1
  unfold Careful at careful
  rw [if_neg foreign.2.2, if_neg foreign.2.1, if_neg foreign.1] at careful
  have after := good.goes_on held (careful.2 r)
  rwa [← held] at after

theorem Good.dies (good : Good x repr next kept s₀ s st) {p : Nat} {op : Op} {q : Prog C Res} {b : Bool}
    (busy : st.active p = some (op, q)) (mine : st.owner = .held p b) : ∃ t, Good x repr next kept s₀ t
      { st with owner := .orphaned, active := Function.update st.active p none, log := st.log ++ [(op, none)] } := by
  obtain ⟨op', q', active, careful⟩ := good.inside _ _ mine
  rw [busy] at active
  obtain ⟨rfl, rfl⟩ := Prod.mk.inj (Option.some.inj active)
  cases careful.either with
  | inl before => exact ⟨s, good.leaves mine (Or.inr rfl) good.explains.lost before⟩
  | inr after =>
    obtain ⟨r, t, effect, stands⟩ := after
    exact ⟨t, good.leaves mine (Or.inr rfl) (good.explains.taken effect) stands⟩

theorem good_step (sound : Sound x code repr next kept) (good : Good x repr next kept s₀ s st)
    (step : Step x code kept st st') : ∃ t, Good x repr next kept s₀ t st' := by
  cases step with
  | begin p op free => exact ⟨s, good.begins sound free op⟩
  | read p busy =>
    obtain ⟨b, held, careful⟩ := good.holder busy (by simp)
    have after := good.goes_on held careful.2.2
    rw [← held] at after
    exact ⟨s, after⟩
  | write p busy =>
    obtain ⟨b, held, careful⟩ := good.holder busy (by simp)
    have after := good.goes_on held careful.2
    rw [← held] at after
    exact ⟨s, after⟩
  | fetchAdd p busy =>
    obtain ⟨b, _, careful⟩ := good.holder busy (by simp)
    exact False.elim careful
  | lock p busy free =>
    have stands := good.idle (Or.inl free)
    exact ⟨s, good.enters (good.waiting sound busy s st.mem stands).1 (by simp [free])⟩
  | inherit p busy dead =>
    have stands := good.idle (Or.inr dead)
    exact ⟨s, good.enters (good.waiting sound busy s st.mem stands).2 (by simp [dead])⟩
  | refuse p busy ruined => exact absurd ruined good.whole
  | recover p busy mine => exact ⟨s, good.recovers sound busy⟩
  | unlock p busy mine result => exact good.unlocks sound busy mine result
  | other p r busy foreign => exact ⟨s, good.answered busy foreign r⟩
  | die p away => exact ⟨s, good.replaced away (by simp)⟩
  | dieHolding p busy mine => exact good.dies busy mine
  | outside m same =>
    refine ⟨s, good.explains, fun free => sound.near s _ m same (good.idle free), ?_, good.waits, good.whole⟩
    intro p b held
    obtain ⟨op, q, busy, careful⟩ := good.inside p b held
    exact ⟨op, q, busy, careful.congr sound.near same⟩

/-- The run rule: every history is explained, whoever dies and wherever. -/
theorem good_reachable (sound : Sound x code repr next kept) {m : Mem} (stands : repr s₀ m)
    (run : Reachable x code kept (origin m) st) : ∃ s, Good x repr next kept s₀ s st := by
  induction run with
  | refl => exact ⟨s₀, good_origin stands⟩
  | step _ step ih =>
    obtain ⟨s, good⟩ := ih
    exact good_step sound good step

/-- At every moment the bytes stand for the state of the log, or for a state after the
    call in the critical section. -/
theorem Good.stands (good : Good x repr next kept s₀ s st) :
    repr s st.mem ∨ ∃ p b op q, st.owner = .held p b ∧ st.active p = some (op, q) ∧
      Either repr next s op st.mem := by
  cases kind : st.owner with
  | free => exact Or.inl (good.idle (Or.inl kind))
  | orphaned => exact Or.inl (good.idle (Or.inr kind))
  | held p b =>
    obtain ⟨op, q, busy, careful⟩ := good.inside p b kind
    exact Or.inr ⟨p, b, op, q, rfl, busy, careful.either⟩
  | ruined => exact absurd kind good.whole

/-- A critical section that nobody disturbs gets to its unlock. -/
theorem careful_finishes {op : Op} {p : Nat} {b : Bool} {q : Prog C Res} {start : State C Op Res} {m : Mem}
    {active : Nat → Option (Op × Prog C Res)} {log : List (Op × Option Res)}
    (before : Reachable x code kept start ⟨m, .held p b, Function.update active p (some (op, q)), log⟩)
    (careful : Careful x repr next kept s op b q m) :
    ∃ r t m', next s op r = some t ∧ repr t m' ∧
      Reachable x code kept start ⟨m', .free, Function.update active p none, log ++ [(op, some r)]⟩ := by
  induction q generalizing b m with
  | ret r => exact False.elim careful
  | read o n k ih =>
    have after := before.step (.read p (Function.update_self ..))
    rw [Function.update_idem] at after
    exact ih _ after careful.2.2
  | write o n v k ih =>
    have after := before.step (.write p (Function.update_self ..))
    rw [Function.update_idem] at after
    exact ih after careful.2
  | fetchAdd o n d k ih => exact False.elim careful
  | call c k ih =>
    unfold Careful at careful
    split at careful
    · obtain ⟨rfl, r, t, result, effect, stands⟩ := careful
      subst c
      have after := before.step (.unlock p (Function.update_self ..) rfl result)
      rw [Function.update_idem] at after
      exact ⟨r, t, m, effect, stands, after⟩
    · split at careful
      · subst c
        have after := before.step (.recover p (Function.update_self ..) rfl)
        rw [Function.update_idem] at after
        exact ih 0 after careful.2
      · split at careful
        · exact False.elim careful
        · have after := before.step (.other p 0 (Function.update_self ..) ⟨‹_›, ‹_›, ‹_›⟩)
          rw [Function.update_idem] at after
          exact ih 0 after (careful.2 0)
  | spin => exact False.elim careful

/-- A call that nobody disturbs returns one of its results, also after the death of a holder. -/
theorem Sound.returns (sound : Sound x code repr next kept) {start : State C Op Res}
    (before : Reachable x code kept start st) (p : Nat) (op : Op) (idle : st.active p = none)
    (left : st.owner = .free ∨ st.owner = .orphaned) (stands : repr s st.mem) :
    ∃ r t m', next s op r = some t ∧ repr t m' ∧
      Reachable x code kept start ⟨m', .free, st.active, st.log ++ [(op, some r)]⟩ := by
  obtain ⟨k, shape, sections⟩ := sound.guarded p op
  obtain ⟨entered, recovering⟩ := sections s st.mem stands
  have began := before.step (.begin p op idle)
  rw [shape] at began
  have same : Function.update st.active p none = st.active := by rw [← idle, Function.update_eq_self]
  rw [← same]
  cases left with
  | inl free =>
    have locked := began.step (.lock p (Function.update_self ..) free)
    rw [Function.update_idem] at locked
    exact careful_finishes locked entered
  | inr dead =>
    have locked := began.step (.inherit p (Function.update_self ..) dead)
    rw [Function.update_idem] at locked
    exact careful_finishes locked recovering

end Run

end RobustMutex
