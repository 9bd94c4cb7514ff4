import OffsetStore.Lib.ByteMemory

/- Programs that load and store words of a byte memory and call an environment.
   One program text has several meanings: an uninterrupted run, a run against an
   arbitrary environment, a run cut after some store, and a run in turns that
   yields at the entry and exit of critical sections. Loops carry fuel; running
   out of it is the program spin, which has no result in any meaning. -/
namespace Program
open ByteMemory

inductive Prog (C α : Type) where
  | ret (a : α)
  | read (o n : Nat) (next : Nat → Prog C α)
  | write (o n v : Nat) (next : Prog C α)
  | fetchAdd (o n d : Nat) (next : Nat → Prog C α)
  | call (c : C) (next : Int → Prog C α)
  | spin

variable {C α β γ S : Type}

namespace Prog

def bind : Prog C α → (α → Prog C β) → Prog C β
  | ret a, f => f a
  | read o n next, f => read o n fun v => (next v).bind f
  | write o n v next, f => write o n v (next.bind f)
  | fetchAdd o n d next, f => fetchAdd o n d fun v => (next v).bind f
  | call c next, f => call c fun r => (next r).bind f
  | spin, _ => spin

instance : Monad (Prog C) where
  pure := ret
  bind := bind

@[simp] theorem pure_eq (a : α) : (pure a : Prog C α) = ret a := rfl
@[simp] theorem ret_bind (a : α) (f : α → Prog C β) : (ret a >>= f) = f a := rfl
@[simp] theorem read_bind (o n : Nat) (next : Nat → Prog C α) (f : α → Prog C β) :
    (read o n next >>= f) = read o n fun v => next v >>= f := rfl
@[simp] theorem write_bind (o n v : Nat) (next : Prog C α) (f : α → Prog C β) :
    (write o n v next >>= f) = write o n v (next >>= f) := rfl
@[simp] theorem fetchAdd_bind (o n d : Nat) (next : Nat → Prog C α) (f : α → Prog C β) :
    (fetchAdd o n d next >>= f) = fetchAdd o n d fun v => next v >>= f := rfl
@[simp] theorem call_bind (c : C) (next : Int → Prog C α) (f : α → Prog C β) :
    (call c next >>= f) = call c fun r => next r >>= f := rfl
@[simp] theorem spin_bind (f : α → Prog C β) : ((spin : Prog C α) >>= f) = spin := rfl

@[simp] theorem bind_assoc (p : Prog C α) (f : α → Prog C β) (g : β → Prog C γ) :
    (p >>= f) >>= g = p >>= fun a => f a >>= g := by
  induction p with
  | ret a => rfl
  | read o n next ih => simp only [read_bind, ih]
  | write o n v next ih => simp only [write_bind, ih]
  | fetchAdd o n d next ih => simp only [fetchAdd_bind, ih]
  | call c next ih => simp only [call_bind, ih]
  | spin => rfl

@[simp] theorem bind_ret (p : Prog C α) : (p >>= ret) = p := by
  induction p with
  | ret a => rfl
  | read o n next ih => simp only [read_bind, ih]
  | write o n v next ih => simp only [write_bind, ih]
  | fetchAdd o n d next ih => simp only [fetchAdd_bind, ih]
  | call c next ih => simp only [call_bind, ih]
  | spin => rfl

theorem ite_bind {c : Prop} [Decidable c] (p q : Prog C α) (f : α → Prog C β) :
    ((if c then p else q) >>= f) = if c then p >>= f else q >>= f := by
  split <;> rfl

/-- The basic actions, as statements of a do block. -/
def loadWord (o n : Nat) : Prog C Nat := read o n ret
def storeWord (o n v : Nat) : Prog C Unit := write o n v (ret ())
def request (c : C) : Prog C Int := call c ret
def perform (c : C) : Prog C Unit := call c fun _ => ret ()

@[simp] theorem loadWord_bind (o n : Nat) (f : Nat → Prog C β) :
    (loadWord o n >>= f) = read o n f := rfl
@[simp] theorem storeWord_bind (o n v : Nat) (f : Unit → Prog C β) :
    (storeWord o n v >>= f) = write o n v (f ()) := rfl
@[simp] theorem request_bind (c : C) (f : Int → Prog C β) :
    (request c >>= f) = call c f := rfl
@[simp] theorem perform_bind (c : C) (f : Unit → Prog C β) :
    (perform c >>= f) = call c fun _ => f () := rfl

/-- Stores of single bytes in address order, as memcpy and memset do. -/
def writeBytes : Nat → List UInt8 → Prog C Unit
  | _, [] => ret ()
  | o, b :: bs => write o 1 b.toNat (writeBytes (o + 1) bs)

def readBytes : Nat → Nat → Prog C (List UInt8)
  | _, 0 => ret []
  | o, n + 1 => read o 1 fun b => readBytes (o + 1) n >>= fun bs => ret (UInt8.ofNat b :: bs)

/-- A store as data: offset, width and value. -/
abbrev Store := Nat × Nat × Nat

def applyStores (m : Mem) : List Store → Mem
  | [] => m
  | (o, n, v) :: rest => applyStores (store m o n v) rest

/-- The loads and stores of a program up to its next call, its result or its last
   fuel: the stores made on the way and the program that is left. -/
def burst (m : Mem) : Prog C α → List Store × Prog C α
  | read o n next => burst m (next (load m o n))
  | write o n v next => ((o, n, v) :: (burst (store m o n v) next).1, (burst (store m o n v) next).2)
  | p => ([], p)

@[simp] theorem burst_ret (m : Mem) (a : α) : burst m (ret a : Prog C α) = ([], ret a) := rfl
@[simp] theorem burst_read (m : Mem) (o n : Nat) (next : Nat → Prog C α) :
    burst m (read o n next) = burst m (next (load m o n)) := rfl
@[simp] theorem burst_write (m : Mem) (o n v : Nat) (next : Prog C α) :
    burst m (write o n v next) =
      ((o, n, v) :: (burst (store m o n v) next).1, (burst (store m o n v) next).2) := rfl
@[simp] theorem burst_fetchAdd (m : Mem) (o n d : Nat) (next : Nat → Prog C α) :
    burst m (fetchAdd o n d next) = ([], fetchAdd o n d next) := rfl
@[simp] theorem burst_call (m : Mem) (c : C) (next : Int → Prog C α) :
    burst m (call c next) = ([], call c next) := rfl
@[simp] theorem burst_spin (m : Mem) : burst m (spin : Prog C α) = ([], spin) := rfl

@[simp] theorem applyStores_nil (m : Mem) : applyStores m [] = m := rfl
@[simp] theorem applyStores_cons (m : Mem) (o n v : Nat) (rest : List Store) :
    applyStores m ((o, n, v) :: rest) = applyStores (store m o n v) rest := rfl

theorem applyStores_append (m : Mem) (xs ys : List Store) :
    applyStores m (xs ++ ys) = applyStores (applyStores m xs) ys := by
  induction xs generalizing m with
  | nil => rfl
  | cons x xs ih => exact ih _

theorem applyStores_outside {m : Mem} {ws : List Store} {a : Nat}
    (out : ∀ w ∈ ws, a < w.1 ∨ w.1 + w.2.1 ≤ a) : applyStores m ws a = m a := by
  induction ws generalizing m with
  | nil => rfl
  | cons w ws ih =>
    obtain ⟨o, n, v⟩ := w
    rw [applyStores_cons, ih (fun w mem => out w (List.mem_cons_of_mem _ mem))]
    exact store_outside (out (o, n, v) (by simp))

theorem burst_bind (m : Mem) (p : Prog C α) (f : α → Prog C β) :
    burst m (p >>= f) =
      ((burst m p).1 ++ (burst (applyStores m (burst m p).1) ((burst m p).2 >>= f)).1,
        (burst (applyStores m (burst m p).1) ((burst m p).2 >>= f)).2) := by
  induction p generalizing m with
  | read o n next ih => simp only [read_bind, burst_read, ih]
  | write o n v next ih => simp only [write_bind, burst_write, ih, applyStores_cons, List.cons_append]
  | _ => simp

/-- After a prefix that only loads, the burst goes on from the loaded value. -/
theorem burst_bind_of_ret {m : Mem} {p : Prog C α} {a : α} (value : burst m p = ([], ret a))
    (f : α → Prog C β) : burst m (p >>= f) = burst m (f a) := by
  simp [burst_bind m p, value]

theorem ret_of_burst_bind {m : Mem} {p : Prog C α} {f : α → Prog C β} {b : β}
    (value : burst m (p >>= f) = ([], ret b)) :
    ∃ a, burst m p = ([], ret a) ∧ burst m (f a) = ([], ret b) := by
  induction p generalizing m with
  | ret a => exact ⟨a, rfl, value⟩
  | read o n next ih => exact ih _ value
  | write o n v next ih => simp at value
  | fetchAdd o n d next ih => simp at value
  | call c next ih => simp at value
  | spin => simp at value

theorem burst_bind_of_call {m : Mem} {p : Prog C α} {ws : List Store} {c : C}
    {next : Int → Prog C α} (left : burst m p = (ws, call c next)) (f : α → Prog C β) :
    burst m (p >>= f) = (ws, call c fun r => next r >>= f) := by
  simp [burst_bind m p, left]

theorem burst_bind_congr {m : Mem} {p q : Prog C α} (same : burst m p = burst m q)
    (f : α → Prog C β) : burst m (p >>= f) = burst m (q >>= f) := by
  rw [burst_bind, same, ← burst_bind]

theorem burst_readBytes (m : Mem) (o n : Nat) :
    burst m (readBytes o n : Prog C (List UInt8)) = ([], ret (loadBytes m o n)) := by
  induction n generalizing o with
  | zero => rfl
  | succ n ih =>
    rw [readBytes, burst_read, burst_bind_of_ret (ih _), loadBytes]
    simp [load]

/-- An uninterrupted run in which every call succeeds with result 0. -/
def exec : Prog C α → Mem → Option (α × Mem)
  | ret a, m => some (a, m)
  | read o n next, m => exec (next (load m o n)) m
  | write o n v next, m => exec next (store m o n v)
  | fetchAdd o n d next, m => exec (next (load m o n)) (store m o n (load m o n + d))
  | call _ next, m => exec (next 0) m
  | spin, _ => none

@[simp] theorem exec_ret (a : α) (m : Mem) : exec (ret a : Prog C α) m = some (a, m) := rfl
@[simp] theorem exec_read (o n : Nat) (next : Nat → Prog C α) (m : Mem) :
    exec (read o n next) m = exec (next (load m o n)) m := rfl
@[simp] theorem exec_write (o n v : Nat) (next : Prog C α) (m : Mem) :
    exec (write o n v next) m = exec next (store m o n v) := rfl
@[simp] theorem exec_fetchAdd (o n d : Nat) (next : Nat → Prog C α) (m : Mem) :
    exec (fetchAdd o n d next) m =
      exec (next (load m o n)) (store m o n (load m o n + d)) := rfl
@[simp] theorem exec_call (c : C) (next : Int → Prog C α) (m : Mem) :
    exec (call c next) m = exec (next 0) m := rfl
@[simp] theorem exec_spin (m : Mem) : exec (spin : Prog C α) m = none := rfl

theorem exec_burst (m : Mem) (p : Prog C α) :
    exec p m = exec (burst m p).2 (applyStores m (burst m p).1) := by
  induction p generalizing m with
  | read o n next ih => exact ih _ m
  | write o n v next ih => exact ih _
  | _ => rfl

theorem exec_of_burst {m : Mem} {p q : Prog C α} {ws : List Store} (left : burst m p = (ws, q)) :
    exec p m = exec q (applyStores m ws) := by
  rw [exec_burst, left]

theorem exec_bind (p : Prog C α) (f : α → Prog C β) (m : Mem) :
    exec (p >>= f) m = (exec p m).bind fun r => exec (f r.1) r.2 := by
  induction p generalizing m with
  | ret a => rfl
  | read o n next ih => simp only [read_bind, exec, ih]
  | write o n v next ih => simp only [write_bind, exec, ih]
  | fetchAdd o n d next ih => simp only [fetchAdd_bind, exec, ih]
  | call c next ih => simp only [call_bind, exec, ih]
  | spin => rfl

theorem exec_bind_of_some {p : Prog C α} {m m' : Mem} {a : α} (run : exec p m = some (a, m'))
    (f : α → Prog C β) : exec (p >>= f) m = exec (f a) m' := by
  rw [exec_bind, run]
  rfl

theorem exec_bind_some {p : Prog C α} {f : α → Prog C β} {m m' : Mem} {b : β} (run : exec (p >>= f) m = some (b, m')) :
    ∃ a m₁, exec p m = some (a, m₁) ∧ exec (f a) m₁ = some (b, m') := by
  rw [exec_bind] at run
  obtain ⟨⟨a, m₁⟩, first, second⟩ := Option.bind_eq_some_iff.mp run
  exact ⟨a, m₁, first, second⟩

theorem exec_bind_of_burst {p : Prog C α} {m : Mem} {a : α} (value : burst m p = ([], ret a))
    (f : α → Prog C β) : exec (p >>= f) m = exec (f a) m :=
  exec_bind_of_some (exec_of_burst value) f

theorem exec_writeBytes (o : Nat) (bs : List UInt8) (m : Mem) :
    exec (writeBytes o bs : Prog C Unit) m = some ((), storeBytes m o bs) := by
  induction bs generalizing o m with
  | nil => rfl
  | cons b bs ih => exact ih _ _

/-- The program with a lack of fuel made visible: it then ends without a result. -/
def attempt : Prog C α → Prog C (Option α)
  | ret a => ret (some a)
  | read o n next => read o n fun v => attempt (next v)
  | write o n v next => write o n v (attempt next)
  | fetchAdd o n d next => fetchAdd o n d fun v => attempt (next v)
  | call c next => call c fun r => attempt (next r)
  | spin => ret none

/-- Goes on with the result of an attempt. -/
def onward (f : α → Prog C (Option β)) : Option α → Prog C (Option β)
  | some a => f a
  | none => ret none

theorem attempt_bind (p : Prog C α) (f : α → Prog C β) :
    attempt (p >>= f) = attempt p >>= onward fun a => attempt (f a) := by
  induction p with
  | ret a => rfl
  | read o n next ih => simp only [read_bind, attempt, ih]
  | write o n v next ih => simp only [write_bind, attempt, ih]
  | fetchAdd o n d next ih => simp only [fetchAdd_bind, attempt, ih]
  | call c next ih => simp only [call_bind, attempt, ih]
  | spin => rfl

theorem burst_attempt (m : Mem) (p : Prog C α) :
    burst m (attempt p) = ((burst m p).1, attempt (burst m p).2) := by
  induction p generalizing m with
  | read o n next ih => exact ih _ m
  | write o n v next ih => simp only [attempt, burst_write, ih]
  | _ => rfl

theorem exec_attempt {p : Prog C α} {m m' : Mem} {a : α} (run : exec (attempt p) m = some (some a, m')) :
    exec p m = some (a, m') := by
  induction p generalizing m with
  | ret b => simpa [attempt] using run
  | read o n next ih => exact ih _ run
  | write o n v next ih => exact ih run
  | fetchAdd o n d next ih => exact ih _ run
  | call c next ih => exact ih _ run
  | spin => simp [attempt] at run

theorem exec_attempt_some {p : Prog C α} {m m' : Mem} {a : α} (run : exec p m = some (a, m')) :
    exec (attempt p) m = some (some a, m') := by
  induction p generalizing m with
  | ret b => simpa [attempt] using run
  | read o n next ih => exact ih _ run
  | write o n v next ih => exact ih run
  | fetchAdd o n d next ih => exact ih _ run
  | call c next ih => exact ih _ run
  | spin => simp at run

/-- An uninterrupted attempt always ends. -/
theorem exec_attempt_ends (p : Prog C α) (m : Mem) : ∃ r m', exec (attempt p) m = some (r, m') := by
  induction p generalizing m with
  | ret b => exact ⟨some b, m, rfl⟩
  | read o n next ih => exact ih _ m
  | write o n v next ih => exact ih _
  | fetchAdd o n d next ih => exact ih _ _
  | call c next ih => exact ih 0 m
  | spin => exact ⟨none, m, rfl⟩

/-- Calls of the fixed kind are answered by 0, whatever the environment says. -/
def assume (fixed : C → Bool) : Prog C α → Prog C α
  | ret a => ret a
  | read o n next => read o n fun v => assume fixed (next v)
  | write o n v next => write o n v (assume fixed next)
  | fetchAdd o n d next => fetchAdd o n d fun v => assume fixed (next v)
  | call c next => call c fun r => assume fixed (next (if fixed c then 0 else r))
  | spin => spin

theorem assume_bind (fixed : C → Bool) (p : Prog C α) (f : α → Prog C β) :
    assume fixed (p >>= f) = assume fixed p >>= fun a => assume fixed (f a) := by
  induction p with
  | ret a => rfl
  | read o n next ih => simp only [read_bind, assume, ih]
  | write o n v next ih => simp only [write_bind, assume, ih]
  | fetchAdd o n d next ih => simp only [fetchAdd_bind, assume, ih]
  | call c next ih => simp only [call_bind, assume, ih]
  | spin => rfl

theorem exec_assume (fixed : C → Bool) (p : Prog C α) (m : Mem) :
    exec (assume fixed p) m = exec p m := by
  induction p generalizing m with
  | ret a => rfl
  | read o n next ih => exact ih _ m
  | write o n v next ih => exact ih _
  | fetchAdd o n d next ih => exact ih _ _
  | call c next ih => simp only [assume, exec_call, ite_self, ih]
  | spin => rfl

theorem burst_assume (fixed : C → Bool) (m : Mem) (p : Prog C α) :
    burst m (assume fixed p) = ((burst m p).1, assume fixed (burst m p).2) := by
  induction p generalizing m with
  | read o n next ih => exact ih _ m
  | write o n v next ih => simp only [assume, burst_write, ih]
  | _ => rfl

/-- A run against an environment that answers every call and keeps its own state. -/
def run (handle : C → S → Int × S) : Prog C α → Mem → S → Option (α × Mem × S)
  | ret a, m, s => some (a, m, s)
  | read o n next, m, s => run handle (next (load m o n)) m s
  | write o n v next, m, s => run handle next (store m o n v) s
  | fetchAdd o n d next, m, s =>
      run handle (next (load m o n)) (store m o n (load m o n + d)) s
  | call c next, m, s => run handle (next (handle c s).1) m (handle c s).2
  | spin, _, _ => none

theorem run_bind (handle : C → S → Int × S) (p : Prog C α) (f : α → Prog C β) (m : Mem) (s : S) :
    run handle (p >>= f) m s =
      (run handle p m s).bind fun r => run handle (f r.1) r.2.1 r.2.2 := by
  induction p generalizing m s with
  | ret a => rfl
  | read o n next ih => simp only [read_bind, run, ih]
  | write o n v next ih => simp only [write_bind, run, ih]
  | fetchAdd o n d next ih => simp only [fetchAdd_bind, run, ih]
  | call c next ih => simp only [call_bind, run, ih]
  | spin => rfl

theorem run_burst (handle : C → S → Int × S) (m : Mem) (s : S) (p : Prog C α) :
    run handle p m s = run handle (burst m p).2 (applyStores m (burst m p).1) s := by
  induction p generalizing m with
  | read o n next ih => exact ih _ m
  | write o n v next ih => exact ih _
  | _ => rfl

/-- Every possible answer of the environment leads to a result with the given property,
   as far as the program ends at all. -/
def Ends (answers : C → Int → Prop) (post : α → Mem → Prop) : Prog C α → Mem → Prop
  | ret a, m => post a m
  | read o n next, m => Ends answers post (next (load m o n)) m
  | write o n v next, m => Ends answers post next (store m o n v)
  | fetchAdd o n d next, m => Ends answers post (next (load m o n)) (store m o n (load m o n + d))
  | call c next, m => ∀ r, answers c r → Ends answers post (next r) m
  | spin, _ => True

section Ends
variable {answers : C → Int → Prop}

theorem ends_ret {post : α → Mem → Prop} {a : α} {m : Mem} (holds : post a m) :
    Ends answers post (ret a : Prog C α) m := holds

theorem ends_write {post : α → Mem → Prop} {o n v : Nat} {next : Prog C α} {m : Mem}
    (rest : Ends answers post next (store m o n v)) : Ends answers post (write o n v next) m := rest

theorem ends_read {post : α → Mem → Prop} {o n : Nat} {next : Nat → Prog C α} {m : Mem}
    (rest : Ends answers post (next (load m o n)) m) : Ends answers post (read o n next) m := rest

theorem ends_fetchAdd {post : α → Mem → Prop} {o n d : Nat} {next : Nat → Prog C α} {m : Mem}
    (rest : Ends answers post (next (load m o n)) (store m o n (load m o n + d))) :
    Ends answers post (fetchAdd o n d next) m := rest

theorem ends_spin {post : α → Mem → Prop} {m : Mem} : Ends answers post (spin : Prog C α) m := trivial

theorem ends_call {post : α → Mem → Prop} {c : C} {next : Int → Prog C α} {m : Mem}
    (all : ∀ r, answers c r → Ends answers post (next r) m) : Ends answers post (call c next) m := all

theorem ends_run {handle : C → S → Int × S} {post : α → Mem → Prop} {p : Prog C α} {m m' : Mem}
    {s s' : S} {a : α} (ends : Ends answers post p m) (possible : ∀ c s, answers c (handle c s).1)
    (result : run handle p m s = some (a, m', s')) :
    post a m' := by
  induction p generalizing m s with
  | ret b =>
    simp only [run, Option.some.injEq, Prod.mk.injEq] at result
    rw [← result.1, ← result.2.1]
    exact ends
  | read o n next ih => exact ih _ ends result
  | write o n v next ih => exact ih ends result
  | fetchAdd o n d next ih => exact ih _ ends result
  | call c next ih => exact ih _ (ends _ (possible c s)) result
  | spin => simp [run] at result

theorem ends_exec {post : α → Mem → Prop} {p : Prog C α} {m m' : Mem} {a : α}
    (ends : Ends answers post p m) (possible : ∀ c, answers c 0) (result : exec p m = some (a, m')) :
    post a m' := by
  induction p generalizing m with
  | ret b =>
    simp only [exec_ret, Option.some.injEq, Prod.mk.injEq] at result
    rw [← result.1, ← result.2]
    exact ends
  | read o n next ih => exact ih _ ends result
  | write o n v next ih => exact ih ends result
  | fetchAdd o n d next ih => exact ih _ ends result
  | call c next ih => exact ih 0 (ends 0 (possible c)) result
  | spin => simp at result

theorem ends_bind {mid : α → Mem → Prop} {post : β → Mem → Prop} {p : Prog C α} {f : α → Prog C β}
    {m : Mem} (first : Ends answers mid p m) (second : ∀ a m', mid a m' → Ends answers post (f a) m') :
    Ends answers post (p >>= f) m := by
  induction p generalizing m with
  | ret a => exact second a m first
  | read o n next ih => exact ih _ first
  | write o n v next ih => exact ih first
  | fetchAdd o n d next ih => exact ih _ first
  | call c next ih => exact fun r possible => ih r (first r possible)
  | spin => trivial

theorem ends_weaken {post post' : α → Mem → Prop} {p : Prog C α} {m : Mem}
    (ends : Ends answers post p m) (weaker : ∀ a m', post a m' → post' a m') :
    Ends answers post' p m := by
  have bound := ends_bind (f := ret) ends fun a m' holds => ends_ret (weaker a m' holds)
  rwa [bind_ret] at bound

theorem ends_and {post post' : α → Mem → Prop} {p : Prog C α} {m : Mem} (first : Ends answers post p m)
    (second : Ends answers post' p m) : Ends answers (fun a m' => post a m' ∧ post' a m') p m := by
  induction p generalizing m with
  | ret a => exact ⟨first, second⟩
  | read o n next ih => exact ih _ first second
  | write o n v next ih => exact ih first second
  | fetchAdd o n d next ih => exact ih _ first second
  | call c next ih => exact fun r possible => ih r (first r possible) (second r possible)
  | spin => trivial

theorem ends_burst {post : α → Mem → Prop} {p : Prog C α} {m : Mem} :
    Ends answers post p m ↔ Ends answers post (burst m p).2 (applyStores m (burst m p).1) := by
  induction p generalizing m with
  | read o n next ih => exact ih _
  | write o n v next ih => exact ih
  | _ => exact Iff.rfl

theorem ends_bind_of_ret {post : β → Mem → Prop} {p : Prog C α} {f : α → Prog C β} {m : Mem} {a : α}
    (value : burst m p = ([], ret a)) (rest : Ends answers post (f a) m) : Ends answers post (p >>= f) m := by
  have same := burst_bind_of_ret value f
  exact ends_burst.mpr (same ▸ ends_burst.mp rest)

theorem ends_writeBytes {post : Unit → Mem → Prop} {o : Nat} {bs : List UInt8} {m : Mem}
    (holds : post () (storeBytes m o bs)) : Ends answers post (writeBytes o bs) m := by
  induction bs generalizing o m with
  | nil => exact holds
  | cons b bs ih => exact ih holds

end Ends

attribute [irreducible] Ends

/-- All stores fall into [lo, hi), whatever is loaded and answered. -/
def Confined (lo hi : Nat) : Prog C α → Prop
  | ret _ => True
  | read _ _ next => ∀ v, Confined lo hi (next v)
  | write o n _ next => (lo ≤ o ∧ o + n ≤ hi) ∧ Confined lo hi next
  | fetchAdd o n _ next => (lo ≤ o ∧ o + n ≤ hi) ∧ ∀ v, Confined lo hi (next v)
  | call _ next => ∀ r, Confined lo hi (next r)
  | spin => True

section Confined
variable {lo hi : Nat}

theorem confined_ret {a : α} : Confined lo hi (ret a : Prog C α) := trivial

theorem confined_read {o n : Nat} {next : Nat → Prog C α} (all : ∀ v, Confined lo hi (next v)) :
    Confined lo hi (read o n next) := all

theorem confined_write {o n v : Nat} {next : Prog C α} (left : lo ≤ o) (right : o + n ≤ hi)
    (rest : Confined lo hi next) : Confined lo hi (write o n v next) := ⟨⟨left, right⟩, rest⟩

theorem confined_call {c : C} {next : Int → Prog C α} (all : ∀ r, Confined lo hi (next r)) :
    Confined lo hi (call c next) := all

theorem confined_widen {lo' hi' : Nat} {p : Prog C α} (confined : Confined lo hi p) (left : lo' ≤ lo)
    (right : hi ≤ hi') : Confined lo' hi' p := by
  induction p with
  | ret a => trivial
  | read o n next ih => exact fun v => ih v (confined v)
  | write o n v next ih =>
    have inside := confined.1
    exact ⟨⟨by omega, by omega⟩, ih confined.2⟩
  | fetchAdd o n d next ih =>
    have inside := confined.1
    exact ⟨⟨by omega, by omega⟩, fun v => ih v (confined.2 v)⟩
  | call c next ih => exact fun r => ih r (confined r)
  | spin => trivial

theorem confined_bind {p : Prog C α} {f : α → Prog C β} (first : Confined lo hi p)
    (second : ∀ a, Confined lo hi (f a)) : Confined lo hi (p >>= f) := by
  induction p with
  | ret a => exact second a
  | read o n next ih => exact fun v => ih v (first v)
  | write o n v next ih => exact ⟨first.1, ih first.2⟩
  | fetchAdd o n d next ih => exact ⟨first.1, fun v => ih v (first.2 v)⟩
  | call c next ih => exact fun r => ih r (first r)
  | spin => trivial

theorem confined_writeBytes {o : Nat} {bs : List UInt8} (left : lo ≤ o) (right : o + bs.length ≤ hi) :
    Confined lo hi (writeBytes o bs : Prog C Unit) := by
  induction bs generalizing o with
  | nil => trivial
  | cons b bs ih =>
    rw [List.length_cons] at right
    exact ⟨⟨left, by omega⟩, ih (by omega) (by omega)⟩

theorem ends_confined {answers : C → Int → Prop} {p : Prog C α} (confined : Confined lo hi p) (m : Mem) :
    Ends answers (fun _ m' => SameOff m m' lo hi) p m := by
  have step : ∀ m' : Mem, SameOff m m' lo hi → Ends answers (fun _ m' => SameOff m m' lo hi) p m' := by
    induction p with
    | ret a => exact fun m' same => ends_ret same
    | read o n next ih => exact fun m' same => ends_read (ih _ (confined _) m' same)
    | write o n v next ih =>
      intro m' same
      exact ends_write (ih confined.2 _ (same.trans (SameOff.store confined.1.1 confined.1.2)))
    | fetchAdd o n d next ih =>
      intro m' same
      exact ends_fetchAdd (ih _ (confined.2 _) _ (same.trans (SameOff.store confined.1.1 confined.1.2)))
    | call c next ih => exact fun m' same => ends_call fun r _ => ih r (confined r) m' same
    | spin => exact fun m' _ => ends_spin
  exact step m fun _ _ => rfl

/-- A program that stores nothing. -/
abbrev Silent (p : Prog C α) : Prop := Confined 0 0 p

theorem ends_silent {answers : C → Int → Prop} {p : Prog C α} (silent : Silent p) (m : Mem) :
    Ends answers (fun _ m' => m' = m) p m :=
  ends_weaken (ends_confined silent m) fun _ _ same => funext fun a => same a (Or.inr (Nat.zero_le a))

end Confined

/-- A program that only loads. -/
def Loads : Prog C α → Prop
  | ret _ => True
  | read _ _ next => ∀ v, Loads (next v)
  | spin => True
  | _ => False

section Loads

theorem loads_ret {a : α} : Loads (ret a : Prog C α) := trivial

theorem loads_spin : Loads (spin : Prog C α) := trivial

theorem loads_read {o n : Nat} {next : Nat → Prog C α} (all : ∀ v, Loads (next v)) :
    Loads (read o n next) := all

theorem loads_ite {c : Prop} [Decidable c] {p q : Prog C α} (yes : Loads p) (no : Loads q) :
    Loads (if c then p else q) := by
  split
  · exact yes
  · exact no

/-- A property of programs that a loading program has if it survives results and loads. -/
theorem Loads.along {motive : Prog C α → Prop} (result : ∀ a, motive (ret a))
    (step : ∀ o n next, (∀ v, motive (next v)) → motive (read o n next)) (stuck : motive spin) {p : Prog C α}
    (loads : Loads p) : motive p := by
  induction p with
  | ret a => exact result a
  | read o n next ih => exact step o n next fun v => ih v (loads v)
  | write => exact False.elim loads
  | fetchAdd => exact False.elim loads
  | call => exact False.elim loads
  | spin => exact stuck

theorem loads_bind {p : Prog C α} {f : α → Prog C β} (first : Loads p) (second : ∀ a, Loads (f a)) :
    Loads (p >>= f) :=
  first.along (motive := fun p => Loads (p >>= f)) second (fun _ _ _ rest => rest) trivial

theorem loads_readBytes (o n : Nat) : Loads (readBytes o n : Prog C (List UInt8)) := by
  induction n generalizing o with
  | zero => exact loads_ret
  | succ n ih => exact loads_read fun _ => loads_bind (ih _) fun _ => loads_ret

/-- An uninterrupted run of a program that only loads is its burst. -/
theorem loads_exec {p : Prog C α} (loads : Loads p) {m m' : Mem} {a : α} :
    exec p m = some (a, m') ↔ m' = m ∧ burst m p = ([], ret a) := by
  refine loads.along (motive := fun p => exec p m = some (a, m') ↔ m' = m ∧ burst m p = ([], ret a)) (fun b => ?_)
    (fun o n next ih => ih _) (by simp)
  simp only [exec_ret, Option.some.injEq, Prod.mk.injEq, burst_ret, ret.injEq, true_and]
  exact ⟨fun same => ⟨same.2.symm, same.1⟩, fun same => ⟨same.2, same.1.symm⟩⟩

theorem run_of_ret {S : Type} {handle : C → S → Int × S} {m : Mem} {p : Prog C α} {a : α}
    (value : burst m p = ([], ret a)) (s : S) : run handle p m s = some (a, m, s) := by
  rw [run_burst, value]
  rfl

theorem Loads.silent {p : Prog C α} (loads : Loads p) : Silent p :=
  loads.along (motive := Silent) (fun _ => trivial) (fun _ _ _ rest => rest) trivial

end Loads

/-- Loads, and stores where they are allowed, lead to programs of one kind. -/
inductive Straight (stores : Prop) (exit : Prog C α → Prop) : Prog C α → Prop
  | done {p : Prog C α} (leaves : exit p) : Straight stores exit p
  | read {o n : Nat} {next : Nat → Prog C α} (rest : ∀ v, Straight stores exit (next v)) :
      Straight stores exit (read o n next)
  | write {o n v : Nat} {next : Prog C α} (allowed : stores) (rest : Straight stores exit next) :
      Straight stores exit (write o n v next)

section Straight
variable {stores : Prop} {exit exit' : Prog C α → Prop}

theorem straight_ite {c : Prop} [Decidable c] {p q : Prog C α} (yes : c → Straight stores exit p)
    (no : ¬c → Straight stores exit q) : Straight stores exit (if c then p else q) := by
  split
  · exact yes ‹c›
  · exact no ‹¬c›

/-- A property that survives loads and stores holds of the program if it holds of every exit. -/
theorem Straight.along {motive : Prog C α → Prop} {p : Prog C α} (straight : Straight stores exit p)
    (loads : ∀ o n next, (∀ v, motive (next v)) → motive (Prog.read o n next))
    (writes : stores → ∀ o n v next, motive next → motive (Prog.write o n v next))
    (exits : ∀ p, exit p → motive p) : motive p := by
  induction straight with
  | done leaves => exact exits _ leaves
  | read _ ih => exact loads _ _ _ ih
  | write allowed _ ih => exact writes allowed _ _ _ _ ih

theorem Straight.mono {p : Prog C α} (straight : Straight stores exit p) (more : ∀ q, exit q → exit' q) :
    Straight stores exit' p :=
  straight.along (fun _ _ _ rest => .read rest) (fun allowed _ _ _ _ rest => .write allowed rest)
    fun q leaves => .done (more q leaves)

end Straight

/-- What the environment has seen when the program ends, whatever the memory holds. -/
def Leads {S : Type} (handle : C → S → Int × S) (post : α → S → Prop) : Prog C α → S → Prop
  | ret a, s => post a s
  | read _ _ next, s => ∀ v, Leads handle post (next v) s
  | write _ _ _ next, s => Leads handle post next s
  | fetchAdd _ _ _ next, s => ∀ v, Leads handle post (next v) s
  | call c next, s => Leads handle post (next (handle c s).1) (handle c s).2
  | spin, _ => True

section Leads
variable {handle : C → S → Int × S} {s s' : S}

theorem leads_ret {post : α → S → Prop} {a : α} (holds : post a s) :
    Leads handle post (ret a : Prog C α) s := holds

theorem leads_read {post : α → S → Prop} {o n : Nat} {next : Nat → Prog C α}
    (all : ∀ v, Leads handle post (next v) s) : Leads handle post (read o n next) s := all

theorem leads_write {post : α → S → Prop} {o n v : Nat} {next : Prog C α}
    (rest : Leads handle post next s) : Leads handle post (write o n v next) s := rest

theorem leads_fetchAdd {post : α → S → Prop} {o n d : Nat} {next : Nat → Prog C α}
    (all : ∀ v, Leads handle post (next v) s) : Leads handle post (fetchAdd o n d next) s := all

theorem leads_call {post : α → S → Prop} {c : C} {next : Int → Prog C α}
    (rest : Leads handle post (next (handle c s).1) (handle c s).2) :
    Leads handle post (call c next) s := rest

theorem leads_spin {post : α → S → Prop} : Leads handle post (spin : Prog C α) s := trivial

theorem leads_ite {post : α → S → Prop} {c : Prop} [Decidable c] {p q : Prog C α}
    (yes : c → Leads handle post p s) (no : ¬c → Leads handle post q s) :
    Leads handle post (if c then p else q) s := by
  split
  · exact yes ‹_›
  · exact no ‹_›

theorem leads_run {post : α → S → Prop} {p : Prog C α} {m m' : Mem} {a : α}
    (leads : Leads handle post p s) (result : run handle p m s = some (a, m', s')) : post a s' := by
  induction p generalizing m s with
  | ret b =>
    simp only [run, Option.some.injEq, Prod.mk.injEq] at result
    rw [← result.1, ← result.2.2]
    exact leads
  | read o n next ih => exact ih _ (leads _) result
  | write o n v next ih => exact ih leads result
  | fetchAdd o n d next ih => exact ih _ (leads _) result
  | call c next ih => exact ih _ leads result
  | spin => simp [run] at result

theorem leads_bind {mid : α → S → Prop} {post : β → S → Prop} {p : Prog C α} {f : α → Prog C β}
    (first : Leads handle mid p s) (second : ∀ a s', mid a s' → Leads handle post (f a) s') :
    Leads handle post (p >>= f) s := by
  induction p generalizing s with
  | ret a => exact second a s first
  | read o n next ih => exact fun v => ih v (first v)
  | write o n v next ih => exact ih first
  | fetchAdd o n d next ih => exact fun v => ih v (first v)
  | call c next ih => exact ih _ first
  | spin => trivial

end Leads

attribute [irreducible] Leads

/-- What the program returns, whatever it reads and is answered. -/
def Results (P : α → Prop) : Prog C α → Prop
  | ret a => P a
  | read _ _ next => ∀ v, Results P (next v)
  | write _ _ _ next => Results P next
  | fetchAdd _ _ _ next => ∀ v, Results P (next v)
  | call _ next => ∀ r, Results P (next r)
  | spin => True

section Results
variable {P : α → Prop}

theorem results_ret {a : α} (holds : P a) : Results P (ret a : Prog C α) := holds

theorem results_read {o n : Nat} {next : Nat → Prog C α} (all : ∀ v, Results P (next v)) :
    Results P (read o n next) := all

theorem results_write {o n v : Nat} {next : Prog C α} (rest : Results P next) : Results P (write o n v next) := rest

theorem results_fetchAdd {o n d : Nat} {next : Nat → Prog C α} (all : ∀ v, Results P (next v)) :
    Results P (fetchAdd o n d next) := all

theorem results_call {c : C} {next : Int → Prog C α} (all : ∀ r, Results P (next r)) : Results P (call c next) := all

theorem results_ite {c : Prop} [Decidable c] {p q : Prog C α} (yes : Results P p) (no : Results P q) :
    Results P (if c then p else q) := by
  split
  · exact yes
  · exact no

end Results

theorem results_true (p : Prog C α) : Results (fun _ => True) p := by
  induction p with
  | ret a => trivial
  | read o n next ih => exact ih
  | write o n v next ih => exact ih
  | fetchAdd o n d next ih => exact ih
  | call c next ih => exact ih
  | spin => trivial

theorem results_then {P : α → Prop} {Q : β → Prop} {p : Prog C α} {f : α → Prog C β} (first : Results P p)
    (all : ∀ a, P a → Results Q (f a)) : Results Q (p >>= f) := by
  induction p with
  | ret a => exact all a first
  | read o n next ih => exact fun v => ih v (first v)
  | write o n v next ih => exact ih first
  | fetchAdd o n d next ih => exact fun v => ih v (first v)
  | call c next ih => exact fun r => ih r (first r)
  | spin => trivial

theorem results_bind {P : β → Prop} (p : Prog C α) {f : α → Prog C β} (all : ∀ a, Results P (f a)) :
    Results P (p >>= f) := results_then (results_true p) fun a _ => all a

theorem results_exec {P : α → Prop} {p : Prog C α} (results : Results P p) {m m' : Mem} {a : α}
    (run : exec p m = some (a, m')) : P a := by
  induction p generalizing m with
  | ret b =>
    obtain ⟨rfl, _⟩ := Prod.mk.inj (Option.some.inj run)
    exact results
  | read o n next ih => exact ih _ (results _) run
  | write o n v next ih => exact ih results run
  | fetchAdd o n d next ih => exact ih _ (results _) run
  | call c next ih => exact ih _ (results _) run
  | spin => exact absurd run (by simp)

theorem ends_results {answers : C → Int → Prop} {P : α → Prop} {p : Prog C α} (results : Results P p) (m : Mem) :
    Ends answers (fun a _ => P a) p m := by
  induction p generalizing m with
  | ret a => exact ends_ret results
  | read o n next ih => exact ends_read (ih _ (results _) m)
  | write o n v next ih => exact ends_write (ih results _)
  | fetchAdd o n d next ih => exact ends_fetchAdd (ih _ (results _) _)
  | call c next ih => exact ends_call fun r _ => ih r (results r) m
  | spin => exact ends_spin

end Prog

/-- A loop returns when every sufficiently large fuel gives the same result. -/
def Yields (f : Nat → Prog C α) (m : Mem) (a : α) (m' : Mem) : Prop :=
  ∃ enough, ∀ fuel, enough ≤ fuel → (f fuel).exec m = some (a, m')

end Program
