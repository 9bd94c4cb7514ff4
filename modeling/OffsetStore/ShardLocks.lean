import OffsetStore.AllocPaths

/- Who holds the shard mutexes when allocator_alloc and allocator_free return. The
   mutexes are robust: an attempt that is answered by EOWNERDEAD has acquired the
   mutex, like one answered by 0; any other answer leaves it alone. Nothing is assumed
   about the bytes of the region or about the arguments. -/
namespace OffsetStore
open ByteMemory Program Prog

/- What holds at every exit of a call holds when it returns, for any meaning of the calls that leave the library. -/
section Walk
variable {S : Type} {handle : Sys → S → Int × S} {t : S} {region : ShmRegion} {s : Nat}

theorem leads_header (header : Nat) :
    Leads handle (fun _ t' => t' = t) (allocatorHeaderValid region header) t := by
  unfold allocatorHeaderValid ShmRegion.load64 ShmRegion.load32
  simp only [loadWord_bind]
  refine leads_read fun magic => leads_ite (fun _ => leads_ret rfl) fun _ => ?_
  refine leads_read fun version => leads_ite (fun _ => leads_ret rfl) fun _ => ?_
  refine leads_read fun count => leads_ite (fun _ => leads_ret rfl) fun _ => ?_
  refine leads_read fun heapOffset => leads_read fun heapSize => ?_
  refine leads_ite (fun _ => leads_ret rfl) fun _ => ?_
  exact leads_ite (fun _ => leads_ret rfl) fun _ => leads_ret rfl

/-- Every way out of the walk along a free list is an exit. -/
theorem leads_walk {post : Option (Except OffsetStoreStatus Nat) → S → Prop}
    (after : ∀ found, Leads handle post (allocExit s found) t) (header size alignment fuel link x : Nat) :
    Leads handle post (allocWalk region header s size alignment fuel link x) t :=
  walk_paths (motive := fun p => Leads handle post p t) (fun _ _ _ rest => leads_read rest)
    (fun _ _ _ _ rest => leads_write rest) leads_spin (fun found _ => after found) header size fuel link x

end Walk

/-- One thread: the mutexes it holds, how its coming lock attempts are answered, and the
    answers it got so far. -/
structure Thread where
  held : List Nat
  outcomes : Nat → Int
  answered : List Int

def Thread.answer (t : Thread) : Int := t.outcomes t.answered.length

def Thread.lock (t : Thread) (mutex : Nat) : Thread :=
  { t with
    held := if t.answer = 0 ∨ t.answer = eownerdead then mutex :: t.held else t.held
    answered := t.answer :: t.answered }

def Thread.unlock (t : Thread) (mutex : Nat) : Thread :=
  { t with held := t.held.filter fun other => other ≠ mutex }

/-- All calls but locking and unlocking are answered by an arbitrary function. -/
def lockHandle (reply : Sys → Int) : Sys → Thread → Int × Thread
  | .mutexLock mutex, t => (t.answer, t.lock mutex)
  | .mutexUnlock mutex, t => (0, t.unlock mutex)
  | c, t => (reply c, t)

/-- The thread holds none of the four shard mutexes. -/
def Thread.Clear (t : Thread) : Prop := ∀ s, s < 4 → shardMutex s ∉ t.held

def Thread.Balanced (t : Thread) : Prop := t.Clear ↔ eownerdead ∉ t.answered

/-- Clear, and no owner has been found dead: where every attempt on a shard begins. -/
structure Thread.Fresh (t : Thread) : Prop where
  clear : t.Clear
  alive : eownerdead ∉ t.answered

theorem Thread.Fresh.balanced {t : Thread} (fresh : t.Fresh) : t.Balanced :=
  ⟨fun _ => fresh.alive, fun _ => fresh.clear⟩

section Locks
variable {reply : Sys → Int} {t : Thread} {region : ShmRegion} {s : Nat}

/-- A clean acquisition followed by the release of the same mutex. -/
theorem Thread.Fresh.released (fresh : t.Fresh) (acquired : t.answer = 0) :
    ((t.lock (shardMutex s)).unlock (shardMutex s)).Fresh := by
  refine ⟨?_, ?_⟩
  · intro r small held
    simp only [Thread.unlock, Thread.lock, acquired, true_or, if_true, List.mem_filter, List.mem_cons] at held
    rcases held with ⟨same | before, other⟩
    · simp [same] at other
    · exact fresh.clear r small before
  · simp only [Thread.unlock, Thread.lock, acquired, List.mem_cons, not_or]
    exact ⟨by decide, fresh.alive⟩

/-- An attempt that does not answer 0 ends the call. It has acquired the mutex exactly when
    it found a dead owner. -/
theorem Thread.Fresh.failed (fresh : t.Fresh) (shard : s < 4) (failed : t.answer ≠ 0) :
    (t.lock (shardMutex s)).Balanced := by
  unfold Thread.Balanced
  by_cases dead : t.answer = eownerdead
  · have leaked : ¬(t.lock (shardMutex s)).Clear := by
      intro clear
      apply clear s shard
      simp [Thread.lock, dead]
    have noted : eownerdead ∈ (t.lock (shardMutex s)).answered := by
      simp [Thread.lock, dead]
    exact ⟨fun clear => absurd clear leaked, fun alive => absurd noted alive⟩
  · have same : (t.lock (shardMutex s)).held = t.held := by
      simp only [Thread.lock, failed, dead, or_self, if_false]
    have alive : eownerdead ∉ (t.lock (shardMutex s)).answered := by
      simp only [Thread.lock, List.mem_cons, not_or]
      exact ⟨Ne.symm dead, fresh.alive⟩
    have clear : (t.lock (shardMutex s)).Clear := by
      intro r small held
      rw [same] at held
      exact fresh.clear r small held
    exact ⟨fun _ => alive, fun _ => clear⟩

/-- The tracker and the consistency call change no lock. -/
theorem leads_note (r : Int) :
    Leads (lockHandle reply) (fun _ t' => t' = t) (noteShardLock s r) t := by
  have last : Leads (lockHandle reply) (fun _ t' => t' = t)
      (if r = eownerdead then Prog.perform (Sys.mutexConsistent (shardMutex s)) else pure ()) t :=
    leads_ite (fun _ => leads_call (leads_ret rfl)) fun _ => leads_ret rfl
  unfold noteShardLock
  simp only [request_bind, perform_bind]
  refine leads_call ?_
  split
  · exact leads_call (leads_call last)
  · exact leads_call last

theorem leads_exit {β : Type} (result : β) {post : β → Thread → Prop}
    (after : post result (t.unlock (shardMutex s))) :
    Leads (lockHandle reply) post (allocExit s result) t := by
  unfold allocExit
  simp only [perform_bind]
  exact leads_call (leads_call (leads_ret after))

/-- The loop over the shards: before each attempt the thread is fresh, and the first
    attempt that is not answered by 0 is the last. -/
theorem leads_shards (fresh : t.Fresh) (fuel header shard size alignment left : Nat) :
    Leads (lockHandle reply) (fun _ t' => t'.Balanced)
      (allocShards fuel region header shard size alignment left) t := by
  induction left generalizing t with
  | zero => exact leads_fetchAdd fun _ => leads_ret fresh.balanced
  | succ left ih =>
    have small : (shard + (shardCount - (left + 1))) % shardCount < 4 := Nat.mod_lt _ (by simp)
    unfold allocShards ShmRegion.load64
    generalize (shard + (shardCount - (left + 1))) % shardCount = s at small
    simp only [request_bind, loadWord_bind]
    refine leads_call (leads_bind (leads_note _) ?_)
    rintro _ _ rfl
    refine leads_ite (fun failed => leads_ret (fresh.failed small failed)) fun acquired => ?_
    have released := fresh.released (s := s) (not_not.mp acquired)
    refine leads_bind (leads_header _) ?_
    rintro valid _ rfl
    refine leads_ite (fun _ => leads_exit _ released.balanced) fun _ => ?_
    refine leads_read fun x => ?_
    refine leads_bind (leads_walk (fun found => leads_exit found released) _ _ _ _ _ _) ?_
    intro found t' (fresh' : t'.Fresh)
    split
    · exact leads_ret fresh'.balanced
    · exact ih fresh'

theorem leads_alloc (fresh : t.Fresh) (fuel size alignment : Nat) :
    Leads (lockHandle reply) (fun _ t' => t'.Balanced) (allocatorAlloc fuel region size alignment) t := by
  unfold allocatorAlloc
  refine leads_ite (fun _ => leads_ret fresh.balanced) fun _ => ?_
  simp only
  split
  · exact leads_ret fresh.balanced
  · split
    · exact leads_ret fresh.balanced
    · refine leads_bind (leads_header _) ?_
      rintro valid _ rfl
      exact leads_ite (fun _ => leads_ret fresh.balanced) fun _ => leads_shards fresh _ _ _ _ _ _

theorem leads_freeLocked (fresh : t.Fresh) (shard : s < 4) (header ptr blockOffset : Nat) :
    Leads (lockHandle reply) (fun _ t' => t'.Balanced) (freeLocked region header ptr blockOffset s) t := by
  unfold freeLocked ShmRegion.load32 ShmRegion.load64 ShmRegion.store32 ShmRegion.store64
  simp only [request_bind, perform_bind, loadWord_bind, storeWord_bind]
  refine leads_call (leads_bind (leads_note _) ?_)
  rintro _ _ rfl
  refine leads_ite (fun failed => leads_ret (fresh.failed shard failed)) fun acquired => ?_
  have released := fresh.released (s := s) (not_not.mp acquired)
  refine leads_bind (leads_header _) ?_
  rintro valid _ rfl
  refine leads_ite (fun _ => leads_call (leads_ret released.balanced)) fun _ => ?_
  split
  · exact leads_call (leads_ret released.balanced)
  · refine leads_read fun payloadOffset => ?_
    refine leads_ite (fun _ => leads_call (leads_ret released.balanced)) fun _ => ?_
    refine leads_write (leads_write (leads_read fun head => leads_write (leads_write ?_)))
    exact leads_call (leads_call (leads_ret released.balanced))

theorem leads_free (fresh : t.Fresh) (ptr : Nat) :
    Leads (lockHandle reply) (fun _ t' => t'.Balanced) (allocatorFree region ptr) t := by
  unfold allocatorFree ShmRegion.load32 ShmRegion.load64
  simp only [loadWord_bind]
  refine leads_ite (fun _ => leads_ret fresh.balanced) fun _ => ?_
  split
  · exact leads_ret fresh.balanced
  · refine leads_bind (leads_header _) ?_
    rintro valid _ rfl
    refine leads_ite (fun _ => leads_ret fresh.balanced) fun _ => leads_read fun blockOffset => ?_
    split
    · exact leads_ret fresh.balanced
    · refine leads_read fun flags => leads_ite (fun _ => leads_ret fresh.balanced) fun _ => ?_
      refine leads_read fun shard => leads_ite (fun _ => leads_ret fresh.balanced) fun small => ?_
      exact leads_freeLocked fresh (by simpa using small) _ _ _

end Locks

inductive AllocatorCall where
  | alloc (fuel size alignment : Nat)
  | free (ptr : Nat)

/-- The status of one call. -/
def AllocatorCall.code (region : ShmRegion) : AllocatorCall → Code OffsetStoreStatus
  | .alloc fuel size alignment => do
    let result ← allocatorAlloc fuel region size alignment
    match result with
    | .ok _ => return .ok
    | .error status => return status
  | .free ptr => allocatorFree region ptr

theorem leads_request {reply : Sys → Int} {t : Thread} (fresh : t.Fresh) (region : ShmRegion)
    (request : AllocatorCall) :
    Leads (lockHandle reply) (fun _ t' => t'.Balanced) (request.code region) t := by
  cases request with
  | alloc fuel size alignment =>
    refine leads_bind (leads_alloc fresh fuel size alignment) ?_
    intro result t' balanced
    cases result with
    | ok ptr => exact leads_ret balanced
    | error status => exact leads_ret balanced
  | free ptr => exact leads_free fresh ptr

/-- A call returns without any shard mutex exactly when none of its lock attempts found a
    dead owner. -/
theorem shard_mutexes_released_iff {reply : Sys → Int} {region : ShmRegion} {request : AllocatorCall}
    {m m' : Mem} {t t' : Thread} {status : OffsetStoreStatus} (clear : t.Clear) (start : t.answered = [])
    (returns : run (lockHandle reply) (request.code region) m t = some (status, m', t')) :
    t'.Clear ↔ eownerdead ∉ t'.answered := by
  have fresh : t.Fresh := ⟨clear, by simp [start]⟩
  have balanced := leads_run (leads_request fresh region request) returns
  exact balanced

/-- A thread that holds nothing and whose first lock attempt is answered by r. -/
def firstAttempt (r : Int) : Thread := ⟨[], fun k => if k = 0 then r else 0, []⟩

theorem firstAttempt_clear (r : Int) : (firstAttempt r).Clear := fun _ _ held => by
  simp [firstAttempt] at held

/-- What a call returns, the mutexes held then and the answers of its lock attempts. -/
def callSummary (m : Mem) (request : AllocatorCall) (t : Thread) :
    Option (OffsetStoreStatus × List Nat × List Int) :=
  (run (lockHandle fun _ => 0) (request.code smallRegion) m t).map
    fun r => (r.1, r.2.2.held, r.2.2.answered)

theorem returns_of_summary {m : Mem} {request : AllocatorCall} {t : Thread} {status : OffsetStoreStatus}
    {held : List Nat} {answered : List Int}
    (summary : callSummary m request t = some (status, held, answered)) :
    ∃ m' t', run (lockHandle fun _ => 0) (request.code smallRegion) m t = some (status, m', t') ∧
      t'.held = held ∧ t'.answered = answered := by
  obtain ⟨⟨status', m', t'⟩, returns, same⟩ := Option.map_eq_some_iff.mp summary
  simp only [Prod.mk.injEq] at same
  obtain ⟨rfl, rfl, rfl⟩ := same
  exact ⟨m', t', returns, rfl, rfl⟩

theorem shard_mutexes_released_iff_small :
    ∃ m' t', run (lockHandle fun _ => 0) ((AllocatorCall.alloc 8 100 16).code smallRegion) initialised
        (firstAttempt 0) = some (.ok, m', t') ∧ t'.Clear := by
  have summary : callSummary initialised (.alloc 8 100 16) (firstAttempt 0) = some (.ok, [], [0]) := by
    decide +kernel
  obtain ⟨m', t', returns, _, answered⟩ := returns_of_summary summary
  refine ⟨m', t', returns, (shard_mutexes_released_iff (firstAttempt_clear 0) rfl returns).mpr ?_⟩
  rw [answered]
  decide

/-- The first attempt of an allocation finds a dead owner: the call fails and keeps the mutex. -/
theorem shard_mutex_kept :
    ∃ m' t', (firstAttempt eownerdead).Clear ∧
      run (lockHandle fun _ => 0) ((AllocatorCall.alloc 8 100 16).code smallRegion) initialised
        (firstAttempt eownerdead) = some (.systemError, m', t') ∧ ¬t'.Clear := by
  have summary : callSummary initialised (.alloc 8 100 16) (firstAttempt eownerdead) =
      some (.systemError, [shardMutex 0], [eownerdead]) := by decide +kernel
  obtain ⟨m', t', returns, held, _⟩ := returns_of_summary summary
  refine ⟨m', t', firstAttempt_clear _, returns, fun clear => clear 0 (by omega) ?_⟩
  rw [held]
  exact List.mem_singleton_self _

end OffsetStore
