import OffsetStore.RingBufRuns

/- ringbuf_length among the pushes and pops of other processes. When the elements do not
   wrap around it reads both indices again after its unlock, so that what it returns
   depends on what the others do between that unlock and its last read. -/
namespace OffsetStore
open ByteMemory Program Prog Words Pool RobustMutex

/-- A call of ringbuf_length in progress: what is left of it, whether it holds the mutex, and
    the memories since its start, the present one first. -/
structure LengthState where
  mem : Mem
  left : Code Nat
  locked : Bool
  moments : List Mem

/-- One load or one call of ringbuf_length, which does nothing else. -/
def LengthState.advance (st : LengthState) : Option LengthState :=
  match st.left with
  | .read o k next => some { st with left := next (load st.mem o k) }
  | .call (.mutexLock _) next => some { st with left := next 0, locked := true }
  | .call (.mutexUnlock _) next => some { st with left := next 0, locked := false }
  | .call _ next => some { st with left := next 0 }
  | _ => none

theorem advance_read {st : LengthState} {o k : Nat} {next : Nat → Code Nat} (left : st.left = .read o k next) :
    st.advance = some { st with left := next (load st.mem o k) } := by
  unfold LengthState.advance
  rw [left]

theorem advance_lock {st : LengthState} {mutex : Nat} {next : Int → Code Nat}
    (left : st.left = .call (.mutexLock mutex) next) : st.advance = some { st with left := next 0, locked := true } := by
  unfold LengthState.advance
  rw [left]

theorem advance_unlock {st : LengthState} {mutex : Nat} {next : Int → Code Nat}
    (left : st.left = .call (.mutexUnlock mutex) next) : st.advance = some { st with left := next 0, locked := false } := by
  unfold LengthState.advance
  rw [left]

inductive LengthEvent where
  | own
  | push (p : Nat) (element : Mem)
  | pop (p : Nat)

/-- A whole call of another process, which needs the mutex. -/
def LengthState.moved (region : ShmRegion) (hdr : Nat) (op : RingOp) (st : LengthState) : Option LengthState :=
  if st.locked then none
  else (exec (ringCode region hdr op) st.mem).map fun r => { st with mem := r.2, moments := r.2 :: st.moments }

def lengthNext (regions : Nat → ShmRegion) (hdr : Nat) (st : LengthState) : LengthEvent → Option LengthState
  | .own => st.advance
  | .push p element => st.moved (regions p) hdr (.push element)
  | .pop p => st.moved (regions p) hdr .pop

/-- The states of the runs whose steps are all allowed. -/
inductive LengthRun (regions : Nat → ShmRegion) (hdr : Nat) (may : LengthState → LengthEvent → Prop)
    (start : LengthState) : LengthState → Prop where
  | start : LengthRun regions hdr may start start
  | step {st st' : LengthState} (before : LengthRun regions hdr may start st) (event : LengthEvent)
      (allowed : may st event) (next : lengthNext regions hdr st event = some st') : LengthRun regions hdr may start st'

def lengthOrigin (region : ShmRegion) (hdr : Nat) (m : Mem) : LengthState := ⟨m, ringbufLength region hdr, false, [m]⟩

/-- What is left of the call when it has read the tail after its unlock. -/
def headRead (hdr tail : Nat) : Code Nat :=
  .read (hdr + RingBufHeader.head) 8 fun head => ret (sub64 tail head)

def tailRead (hdr : Nat) : Code Nat := .read (hdr + RingBufHeader.tail) 8 (headRead hdr)

/-- The critical section, from the comparison on. -/
def lengthCompare (hdr tail : Nat) : Code Nat :=
  .read (hdr + RingBufHeader.head) 8 fun head =>
    if tail ≥ head then .call (.mutexUnlock (hdr + RingBufHeader.lock)) fun _ => tailRead hdr
    else .read (hdr + RingBufHeader.capacity) 8 fun capacity =>
      .call (.mutexUnlock (hdr + RingBufHeader.lock)) fun _ => ret (add64 (sub64 capacity head) tail)

/-- The last read finds the head no further than the tail that was read before it, and between
    those two reads no element is removed after one has been inserted. -/
def Calm (hdr : Nat) (st : LengthState) : LengthEvent → Prop
  | .own => ∀ tail, st.left = headRead hdr tail → load st.mem (hdr + RingBufHeader.head) 8 ≤ tail
  | .push _ _ => True
  | .pop _ => ∀ tail, st.left = headRead hdr tail →
      load st.mem (hdr + RingBufHeader.head) 8 ≠ load st.mem (hdr + RingBufHeader.tail) 8 →
      load st.mem (hdr + RingBufHeader.tail) 8 = tail

section Moves
variable {n c e hdr data head : Nat} {region : ShmRegion} {q : List (List UInt8)} {m m' : Mem}

theorem ringbufLength_eq (map : region.Mapped) (total : region.size = n) (place : RingPlace n c e hdr data) :
    ∃ next, ringbufLength region hdr = .call (.mutexLock (hdr + RingBufHeader.lock)) next ∧
      next 0 = .read (hdr + RingBufHeader.tail) 8 (lengthCompare hdr) := by
  have user := map.user
  have header := place.header
  have field : ∀ f, f + 8 ≤ 40 → region.load64 (add64 region.base hdr) f = loadWord (hdr + f) 8 := fun f small =>
    load64_field (by omega)
  unfold ringbufLength
  simp only [resolve_ring map total place, ringbufLock, ringbufUnlock, ring_mutex map total place, containerLock,
    containerUnlock, RingBufHeader.tail, RingBufHeader.head, RingBufHeader.capacity]
  refine ⟨_, rfl, ?_⟩
  simp (disch := omega) only [field]
  rfl

section Fields
variable {α : Type} (map : region.Mapped) (total : region.size = n) (place : RingPlace n c e hdr data)
include map total place

theorem exec_field (f : Nat → Code α) {field v : Nat} (small : field + 8 ≤ 40) (value : load m (hdr + field) 8 = v) :
    exec (region.load64 (add64 region.base hdr) field >>= f) m = exec (f v) m := by
  have user := map.user
  have header := place.header
  rw [load64_field (by omega), loadWord_bind, exec_read, value]

variable (ring : RingAt c e hdr data head q m)
include ring

theorem exec_idx (f : Nat → Code α) (i : Nat) :
    exec (ringbufIdx region (add64 region.base hdr) i >>= f) m = exec (f (i % c)) m := by
  unfold ringbufIdx
  rw [bind_assoc, exec_field map total place _ (by simp) ring.capacity]
  rfl

theorem exec_data (f : Option Nat → Code α) :
    exec (ringbufData region (add64 region.base hdr) >>= f) m = exec (f (some (add64 region.base data))) m := by
  have user := map.user
  have buffer := place.buffer
  have positive : 0 < c * e := Nat.mul_pos (by have := place.capacity; omega) place.positive
  have resolved : offsetPtrTryResolve region.base region.size data (mul64 c e) = some (add64 region.base data) := by
    rw [mul64_eq (by omega)]
    exact resolve_eq_some map buffer.1 (by omega) (by omega)
  unfold ringbufData
  simp only [bind_assoc]
  rw [exec_field map total place _ (by simp) ring.dataOffset, exec_field map total place _ (by simp) ring.capacity,
    exec_field map total place _ (by simp) ring.elemSize, resolved]
  rfl

theorem exec_push (element : Mem) : (q.length = c - 1 ∧ exec (ringbufPush region hdr element) m = some (-1, m)) ∨
    ∃ m' bytes, exec (ringbufPush region hdr element) m = some (0, m') ∧ RingAt c e hdr data head (q ++ [bytes]) m' := by
  have user := map.user
  have header := place.header
  have buffer := place.buffer
  have least := Nat.le_mul_of_pos_right c place.positive
  have room := ring.room
  have last : ringSlot c head q.length < c := ringSlot_lt (by omega)
  have next : add64 (ringSlot c head q.length) 1 % c = ringSlot c head (q.length + 1) := by
    rw [add64_eq (by omega)]
    exact ringSlot_next
  unfold ringbufPush
  simp only [resolve_ring map total place]
  rw [exec_bind_of_some (show exec (ringbufLock region (add64 region.base hdr)) m = some ((), m) from rfl),
    exec_field map total place _ (by simp) ring.tailWord, exec_idx map total place ring, next,
    exec_field map total place _ (by simp) ring.headWord]
  by_cases full : q.length = c - 1
  · rw [if_pos (ring.full_iff.mpr full)]
    exact Or.inl ⟨full, rfl⟩
  · rw [if_neg fun same => full (ring.full_iff.mp same), exec_data map total place ring]
    dsimp only
    rw [exec_field map total place _ (by simp) ring.tailWord, exec_field map total place _ (by simp) ring.elemSize]
    have fits := slot_le (e := e) last
    have length : (loadBytes element 0 e).length = e := loadBytes_length ..
    have copied : RingAt c e hdr data head q (storeBytes m (data + ringSlot c head q.length * e)
        (loadBytes element 0 e)) := ring.scratch place fun a out => storeBytes_outside (by rwa [length])
    have there := loadBytes_storeBytes m (data + ringSlot c head q.length * e) (loadBytes element 0 e)
    rw [length] at there
    rw [mul64_eq (by omega), copyIn_field (by omega), exec_bind_of_some (exec_writeBytes _ _ _),
      store64_field (by simp only [RingBufHeader.tail]; omega), storeWord_bind, exec_write]
    exact Or.inr ⟨_, _, rfl, copied.pushed place (by omega) (by omega) there⟩

theorem exec_pop : (q = [] ∧ exec (ringbufPop region hdr) m = some (none, m)) ∨
    ∃ first rest m', q = first :: rest ∧ exec (ringbufPop region hdr) m = some (some first, m') ∧
      RingAt c e hdr data (ringSlot c head 1) rest m' := by
  have user := map.user
  have header := place.header
  have buffer := place.buffer
  have least := Nat.le_mul_of_pos_right c place.positive
  have bound := ring.bound
  unfold ringbufPop
  simp only [resolve_ring map total place]
  rw [exec_bind_of_some (show exec (ringbufLock region (add64 region.base hdr)) m = some ((), m) from rfl),
    exec_field map total place _ (by simp) ring.headWord, exec_field map total place _ (by simp) ring.tailWord]
  cases q with
  | nil =>
    rw [if_pos (ring.empty_iff.mpr rfl)]
    exact Or.inl ⟨rfl, rfl⟩
  | cons first rest =>
    rw [if_neg fun same => List.cons_ne_nil _ _ (ring.empty_iff.mp same), exec_data map total place ring]
    dsimp only
    rw [exec_field map total place _ (by simp) ring.headWord, exec_field map total place _ (by simp) ring.elemSize]
    have fits := slot_le (e := e) bound
    have there := ring.elements 0 (by simp)
    rw [ringSlot_zero bound] at there
    have next : add64 head 1 % c = ringSlot c head 1 := by
      rw [add64_eq (by omega)]
      rfl
    rw [mul64_eq (by omega), copyOut_field (by omega), exec_bind_of_burst (burst_readBytes _ _ _),
      exec_field map total place _ (by simp) ring.headWord, exec_idx map total place ring, next,
      store64_field (by simp only [RingBufHeader.head]; omega), storeWord_bind, exec_write]
    refine Or.inr ⟨first, rest, _, rfl, ?_, ring.popped place (by omega)⟩
    rw [there]
    rfl

/-- A push or a pop leaves a ring in which the head is where it was, or the tail. -/
theorem exec_move {op : RingOp} (moves : (∃ element, op = .push element) ∨ op = .pop) {r : RingResult} {m' : Mem}
    (run : exec (ringCode region hdr op) m = some (r, m')) :
    ∃ head' q', RingAt c e hdr data head' q' m' ∧
      (head' = head ∨ (op = .pop ∧ q ≠ [] ∧ ringSlot c head' q'.length = ringSlot c head q.length)) := by
  obtain ⟨element, rfl⟩ | rfl := moves
  · obtain ⟨rc, m₁, inner, outer⟩ := exec_bind_some run
    obtain ⟨-, rfl⟩ := Prod.mk.inj (Option.some.inj outer)
    obtain ⟨-, full⟩ | ⟨m₂, bytes, done, pushed⟩ := exec_push map total place ring element
    · obtain ⟨-, rfl⟩ := Prod.mk.inj (Option.some.inj (full.symm.trans inner))
      exact ⟨head, q, ring, Or.inl rfl⟩
    · obtain ⟨-, rfl⟩ := Prod.mk.inj (Option.some.inj (done.symm.trans inner))
      exact ⟨head, _, pushed, Or.inl rfl⟩
  · obtain ⟨out, m₁, inner, outer⟩ := exec_bind_some run
    obtain ⟨-, rfl⟩ := Prod.mk.inj (Option.some.inj outer)
    obtain ⟨rfl, empty⟩ | ⟨first, rest, m₂, rfl, done, popped⟩ := exec_pop map total place ring
    · obtain ⟨-, rfl⟩ := Prod.mk.inj (Option.some.inj (empty.symm.trans inner))
      exact ⟨head, [], ring, Or.inl rfl⟩
    · obtain ⟨-, rfl⟩ := Prod.mk.inj (Option.some.inj (done.symm.trans inner))
      refine ⟨_, rest, popped, Or.inr ⟨rfl, by simp, ?_⟩⟩
      rw [ringSlot_next, List.length_cons, Nat.add_comm 1]

end Fields

end Moves

/-- How far the call has come. From its second read of the tail on, some moment since its start
    had that tail with the present head. -/
inductive LengthStage (region : ShmRegion) (c e hdr data : Nat) (st : LengthState) : Prop where
  | fresh (left : st.left = ringbufLength region hdr) (free : st.locked = false)
  | entered (left : st.left = .read (hdr + RingBufHeader.tail) 8 (lengthCompare hdr)) (mine : st.locked = true)
  | compared (left : st.left = lengthCompare hdr (load st.mem (hdr + RingBufHeader.tail) 8)) (mine : st.locked = true)
  | flat (left : st.left = .call (.mutexUnlock (hdr + RingBufHeader.lock)) fun _ => tailRead hdr) (mine : st.locked = true)
  | wrapped {head tail : Nat} (left : st.left = .read (hdr + RingBufHeader.capacity) 8 fun capacity =>
        .call (.mutexUnlock (hdr + RingBufHeader.lock)) fun _ => ret (add64 (sub64 capacity head) tail))
      (mine : st.locked = true) (headWord : load st.mem (hdr + RingBufHeader.head) 8 = head)
      (tailWord : load st.mem (hdr + RingBufHeader.tail) 8 = tail) (below : tail < head)
  | counted {v : Nat} (left : st.left = .call (.mutexUnlock (hdr + RingBufHeader.lock)) fun _ => ret v)
      (mine : st.locked = true) (moment : ∃ μ ∈ st.moments, ∃ q, RingStands c e hdr data q μ ∧ v = q.length)
  | tail (left : st.left = tailRead hdr) (free : st.locked = false)
  | head {tail : Nat} (left : st.left = headRead hdr tail) (free : st.locked = false)
      (moment : ∃ μ ∈ st.moments, ∃ q, RingAt c e hdr data (load st.mem (hdr + RingBufHeader.head) 8) q μ ∧
        ringSlot c (load st.mem (hdr + RingBufHeader.head) 8) q.length = tail)
  | done {v : Nat} (left : st.left = ret v) (moment : ∃ μ ∈ st.moments, ∃ q, RingStands c e hdr data q μ ∧ v = q.length)

structure LengthGood (region : ShmRegion) (c e hdr data : Nat) (st : LengthState) : Prop where
  now : st.mem ∈ st.moments
  stands : ∃ head q, RingAt c e hdr data head q st.mem
  stage : LengthStage region c e hdr data st

section Runs
variable {n c e hdr data : Nat} {region : ShmRegion} {regions : Nat → ShmRegion} {q : List (List UInt8)} {m : Mem}
  {st st' : LengthState}

/-- Where the elements wrap around, the tail lies that far before the head. -/
theorem ringSlot_wrapped {head count : Nat} (bound : head < c) (room : count < c)
    (below : ringSlot c head count < head) : c - head + ringSlot c head count = count := by
  unfold ringSlot at below ⊢
  by_cases short : head + count < c
  · rw [Nat.mod_eq_of_lt short] at below
    omega
  · rw [Nat.mod_eq_sub_mod (by omega), Nat.mod_eq_of_lt (by omega)] at below ⊢
    omega

theorem ringSlot_flat {head count : Nat} (bound : head < c) (room : count < c)
    (above : head ≤ ringSlot c head count) : ringSlot c head count - head = count := by
  unfold ringSlot at above ⊢
  by_cases short : head + count < c
  · rw [Nat.mod_eq_of_lt short] at above ⊢
    omega
  · rw [Nat.mod_eq_sub_mod (by omega), Nat.mod_eq_of_lt (by omega)] at above ⊢
    omega

theorem length_own (map : region.Mapped) (total : region.size = n) (place : RingPlace n c e hdr data)
    (good : LengthGood region c e hdr data st) (calm : Calm hdr st .own) (next : st.advance = some st') :
    LengthGood region c e hdr data st' := by
  obtain ⟨head, q, ring⟩ := good.stands
  have buffer := place.buffer
  have user := map.user
  have least := Nat.le_mul_of_pos_right c place.positive
  have bound := ring.bound
  have room := ring.room
  cases good.stage with
  | fresh left free =>
    obtain ⟨rest, shape, enter⟩ := ringbufLength_eq map total place
    rw [advance_lock (left.trans shape)] at next
    obtain rfl := Option.some.inj next
    exact ⟨good.now, good.stands, .entered enter rfl⟩
  | entered left mine =>
    rw [advance_read left] at next
    obtain rfl := Option.some.inj next
    exact ⟨good.now, good.stands, .compared rfl mine⟩
  | compared left mine =>
    rw [lengthCompare] at left
    rw [advance_read left] at next
    obtain rfl := Option.some.inj next
    refine ⟨good.now, good.stands, ?_⟩
    by_cases above : load st.mem (hdr + RingBufHeader.tail) 8 ≥ load st.mem (hdr + RingBufHeader.head) 8
    · refine .flat ?_ mine
      dsimp only
      rw [if_pos above]
    · refine .wrapped ?_ mine rfl rfl (Nat.not_le.mp above)
      dsimp only
      rw [if_neg above]
  | flat left mine =>
    rw [advance_unlock left] at next
    obtain rfl := Option.some.inj next
    exact ⟨good.now, good.stands, .tail rfl rfl⟩
  | wrapped left mine headWord tailWord below =>
    rw [advance_read left] at next
    obtain rfl := Option.some.inj next
    refine ⟨good.now, good.stands, .counted rfl mine ⟨st.mem, good.now, q, ⟨head, ring⟩, ?_⟩⟩
    rw [ring.headWord] at headWord
    rw [ring.tailWord] at tailWord
    subst headWord tailWord
    have length := ringSlot_wrapped bound room below
    rw [ring.capacity, sub64_eq (by omega) (by omega), add64_eq (by omega), length]
  | counted left mine moment =>
    rw [advance_unlock left] at next
    obtain rfl := Option.some.inj next
    exact ⟨good.now, good.stands, .done rfl moment⟩
  | tail left free =>
    rw [advance_read left] at next
    obtain rfl := Option.some.inj next
    refine ⟨good.now, good.stands, .head rfl free ⟨st.mem, good.now, q, ?_, ?_⟩⟩
    · rw [ring.headWord]
      exact ring
    · rw [ring.headWord, ring.tailWord]
  | head left free moment =>
    rw [advance_read left] at next
    obtain rfl := Option.some.inj next
    obtain ⟨μ, mem, q', there, same⟩ := moment
    have above := calm _ left
    have word := there.bound
    refine ⟨good.now, good.stands, .done rfl ⟨μ, mem, q', ⟨_, there⟩, ?_⟩⟩
    rw [← same] at above ⊢
    have inside : ringSlot c (load st.mem (hdr + RingBufHeader.head) 8) q'.length < c := ringSlot_lt (by omega)
    rw [sub64_eq above (by omega), ringSlot_flat word there.room above]
  | done left moment =>
    unfold LengthState.advance at next
    rw [left] at next
    exact absurd next (by simp)

/-- A call of another process while the length call does not hold the mutex. -/
theorem length_move (map : region.Mapped) (total : region.size = n) (place : RingPlace n c e hdr data)
    {mapping : ShmRegion} (good : LengthGood mapping c e hdr data st) {op : RingOp}
    (moves : (∃ element, op = .push element) ∨ op = .pop)
    (calm : op = .pop → ∀ tail, st.left = headRead hdr tail →
      load st.mem (hdr + RingBufHeader.head) 8 ≠ load st.mem (hdr + RingBufHeader.tail) 8 →
      load st.mem (hdr + RingBufHeader.tail) 8 = tail)
    (next : st.moved region hdr op = some st') : LengthGood mapping c e hdr data st' := by
  obtain ⟨head, q, ring⟩ := good.stands
  unfold LengthState.moved at next
  split at next
  · exact absurd next (by simp)
  · rename_i free
    obtain ⟨⟨r, m'⟩, run, same⟩ := Option.map_eq_some_iff.mp next
    subst same
    obtain ⟨head', q', ring', kept⟩ := exec_move map total place ring moves run
    refine ⟨List.mem_cons_self, ⟨head', q', ring'⟩, ?_⟩
    have grow : ∀ {P : Mem → Prop}, (∃ μ ∈ st.moments, P μ) → ∃ μ ∈ m' :: st.moments, P μ :=
      fun ⟨μ, mem, holds⟩ => ⟨μ, List.mem_cons_of_mem _ mem, holds⟩
    cases good.stage with
    | fresh left unlocked => exact .fresh left unlocked
    | entered left mine => exact absurd mine free
    | compared left mine => exact absurd mine free
    | flat left mine => exact absurd mine free
    | wrapped left mine => exact absurd mine free
    | counted left mine => exact absurd mine free
    | tail left unlocked => exact .tail left unlocked
    | head left unlocked moment =>
      refine .head left unlocked ?_
      simp only
      rw [ring'.headWord]
      obtain rfl | ⟨isPop, some, sameTail⟩ := kept
      · rw [ring.headWord] at moment
        exact grow moment
      · -- the tail is still the one that was read: the present moment has it
        refine ⟨m', List.mem_cons_self, q', ring', ?_⟩
        rw [sameTail, ← ring.tailWord]
        refine calm isPop _ left fun equal => some ?_
        rw [ring.headWord, ring.tailWord] at equal
        exact ring.empty_iff.mp equal
    | done left moment => exact .done left (grow moment)

theorem length_run (map : region.Mapped) (total : region.size = n) (mapped : ∀ p, (regions p).Mapped)
    (sizes : ∀ p, (regions p).size = n) (place : RingPlace n c e hdr data) (stands : RingStands c e hdr data q m)
    (run : LengthRun regions hdr (Calm hdr) (lengthOrigin region hdr m) st) : LengthGood region c e hdr data st := by
  induction run with
  | start =>
    obtain ⟨head, ring⟩ := stands
    exact ⟨List.mem_cons_self, ⟨head, q, ring⟩, .fresh rfl rfl⟩
  | step before event allowed next ih =>
    cases event with
    | own => exact length_own map total place ih allowed next
    | push p element =>
      exact length_move (mapped p) (sizes p) place ih (Or.inl ⟨element, rfl⟩) (fun bad => absurd bad (by simp)) next
    | pop p => exact length_move (mapped p) (sizes p) place ih (Or.inr rfl) (fun _ => allowed) next

/-- In a calm run the result is a number of elements that the ring held since the call began. -/
theorem calm_length_held (map : region.Mapped) (total : region.size = n) (mapped : ∀ p, (regions p).Mapped)
    (sizes : ∀ p, (regions p).size = n) (place : RingPlace n c e hdr data) (stands : RingStands c e hdr data q m)
    (run : LengthRun regions hdr (Calm hdr) (lengthOrigin region hdr m) st) {v : Nat} (done : st.left = ret v) :
    v ≤ c - 1 ∧ ∃ μ ∈ st.moments, ∃ q, RingStands c e hdr data q μ ∧ v = q.length := by
  have good := length_run map total mapped sizes place stands run
  obtain ⟨μ, mem, q', held, count⟩ : ∃ μ ∈ st.moments, ∃ q, RingStands c e hdr data q μ ∧ v = q.length := by
    cases good.stage with
    | fresh left free =>
      obtain ⟨rest, shape, enter⟩ := ringbufLength_eq map total place
      rw [left, shape] at done
      exact absurd done (by simp)
    | entered left mine => exact absurd (left.symm.trans done) (by simp)
    | compared left mine => exact absurd (left.symm.trans done) (by simp [lengthCompare])
    | flat left mine => exact absurd (left.symm.trans done) (by simp)
    | wrapped left mine => exact absurd (left.symm.trans done) (by simp)
    | counted left mine => exact absurd (left.symm.trans done) (by simp)
    | tail left free => exact absurd (left.symm.trans done) (by simp [tailRead])
    | head left free => exact absurd (left.symm.trans done) (by simp [headRead])
    | done left moment =>
      obtain rfl := Prog.ret.inj (left.symm.trans done)
      exact moment
  obtain ⟨head, ring⟩ := held
  have room := ring.room
  exact ⟨by omega, μ, mem, q', ⟨head, ring⟩, count⟩

/-- The bound on the head is needed: a tail read before the head has passed it makes the difference wrap. -/
theorem passed_tail_wraps (map : region.Mapped) (total : region.size = n) (place : RingPlace n c e hdr data)
    (ring : RingAt c e hdr data (load st.mem (hdr + RingBufHeader.head) 8) q st.mem) {tail : Nat}
    (left : st.left = headRead hdr tail) (passed : tail < load st.mem (hdr + RingBufHeader.head) 8) :
    ∃ st' v, st.advance = some st' ∧ st'.left = ret v ∧ c - 1 < v := by
  have user := map.user
  have buffer := place.buffer
  have least := Nat.le_mul_of_pos_right c place.positive
  have bound := ring.bound
  refine ⟨_, _, advance_read left, rfl, ?_⟩
  unfold sub64
  omega

theorem moved_eq {op : RingOp} {r : RingResult} {m' : Mem} (free : st.locked = false)
    (run : exec (ringCode region hdr op) st.mem = some (r, m')) :
    st.moved region hdr op = some { st with mem := m', moments := m' :: st.moments } := by
  unfold LengthState.moved
  rw [if_neg (by simp [free]), run]
  rfl

section Alone
variable {start : LengthState} {o k : Nat} {b : Bool} {ms : List Mem}

theorem own_read {next : Nat → Code Nat}
    (before : LengthRun regions hdr (Calm hdr) start ⟨m, .read o k next, b, ms⟩)
    (calm : Calm hdr ⟨m, .read o k next, b, ms⟩ .own) :
    LengthRun regions hdr (Calm hdr) start ⟨m, next (load m o k), b, ms⟩ := .step before .own calm rfl

theorem own_call {lock : Sys} {next : Int → Code Nat} {st : LengthState}
    (before : LengthRun regions hdr (Calm hdr) start ⟨m, .call lock next, b, ms⟩)
    (answer : LengthState.advance ⟨m, .call lock next, b, ms⟩ = some st) : LengthRun regions hdr (Calm hdr) start st :=
  .step before .own (fun _ left => absurd left (by simp [headRead])) answer

end Alone

/-- A call that finds the head no further than the tail gets to its second read of the tail. -/
theorem length_enters (map : region.Mapped) (total : region.size = n) (place : RingPlace n c e hdr data)
    {start : LengthState} {m : Mem} {ms : List Mem}
    (before : LengthRun regions hdr (Calm hdr) start ⟨m, ringbufLength region hdr, false, ms⟩)
    (flat : load m (hdr + RingBufHeader.head) 8 ≤ load m (hdr + RingBufHeader.tail) 8) :
    LengthRun regions hdr (Calm hdr) start ⟨m, tailRead hdr, false, ms⟩ := by
  obtain ⟨rest, shape, enter⟩ := ringbufLength_eq map total place
  rw [shape] at before
  have entered := own_call before rfl
  rw [enter] at entered
  have compared := own_read entered fun _ left => absurd left (by simp [headRead])
  have busy : ∀ t t', lengthCompare hdr t ≠ headRead hdr t' := by
    intro t t' same
    obtain ⟨_, _, next⟩ := Prog.read.inj same
    have zero := congrFun next 0
    simp at zero
  have decided := own_read compared fun t' left => absurd left (busy _ t')
  rw [if_pos flat] at decided
  exact own_call decided rfl

theorem lengthRun_events {may : LengthState → LengthEvent → Prop} (any : ∀ st event, may st event) {start : LengthState}
    {events : List LengthEvent} (run : events.foldlM (lengthNext regions hdr) st = some st')
    (before : LengthRun regions hdr may start st) : LengthRun regions hdr may start st' := by
  induction events generalizing st with
  | nil =>
    obtain rfl := Option.some.inj run
    exact before
  | cons event events ih =>
    obtain ⟨mid, next, rest⟩ := Option.bind_eq_some_iff.mp run
    exact ih rest (before.step event (any st event) next)

end Runs

/-- What is left of a call that has returned. -/
def LengthState.result (st : LengthState) : Option Nat :=
  match st.left with
  | .ret v => some v
  | _ => none

/-- A ring buffer of two slots of one byte. One process has pushed an element, another one pops
    it while the length is computed, and the first pushes again before the last read. -/
theorem calm_length_held_small : ∃ m st, exec (ringbufCreate 4096 smallRegion 2 1) initialised = some (2784, m) ∧
    LengthRun (fun _ => smallRegion) 2784 (Calm 2784) (lengthOrigin smallRegion 2784 m) st ∧ st.left = ret 0 ∧
    st.moments.length = 4 ∧ ∃ μ ∈ st.moments, ∃ q, RingStands 2 1 2784 2928 q μ ∧ 0 = q.length := by
  obtain ⟨m, run, capacity, elemSize, data, head, tail⟩ := ringbufCreate_small
  have place : RingPlace 4096 2 1 2784 2928 := ⟨by decide, by decide, by decide, by decide, by decide⟩
  have ring : RingAt 2 1 2784 2928 0 [] m :=
    ⟨capacity, elemSize, data, head, tail, by decide, by decide, fun i inside => absurd inside (by simp)⟩
  have map := smallRegion_mapped
  have started : LengthRun (fun _ => smallRegion) 2784 (Calm 2784) (lengthOrigin smallRegion 2784 m)
    (lengthOrigin smallRegion 2784 m) := .start
  obtain ⟨full, _⟩ | ⟨m₁, bytes, run₁, ring₁⟩ := exec_push map rfl place ring fun _ => 7
  · exact absurd full (by simp)
  have pushed := started.step (.push 1 fun _ => 7) trivial (moved_eq rfl (exec_bind_of_some run₁ _))
  have flat : load m₁ 2792 8 ≤ load m₁ 2800 8 := ring₁.headWord ▸ Nat.zero_le _
  have entered := length_enters map rfl place pushed flat
  obtain ⟨none, _⟩ | ⟨_, _, m₂, only, run₂, ring₂⟩ := exec_pop map rfl place ring₁
  · exact absurd none (by simp)
  obtain ⟨rfl, rfl⟩ := List.cons.inj only
  have popped := entered.step (.pop 2) (fun _ left => absurd left (by simp [tailRead, headRead]))
    (moved_eq rfl (exec_bind_of_some run₂ _))
  have tail₂ : load m₂ (2784 + RingBufHeader.tail) 8 = 1 := ring₂.tailWord
  have between := own_read popped fun _ left => absurd left (by simp [headRead])
  rw [tail₂] at between
  obtain ⟨full, _⟩ | ⟨m₃, _, run₃, ring₃⟩ := exec_push map rfl place ring₂ fun _ => 7
  · exact absurd full (by simp)
  have again := between.step (.push 1 fun _ => 7) trivial (moved_eq rfl (exec_bind_of_some run₃ _))
  have head₃ : load m₃ (2784 + RingBufHeader.head) 8 = 1 := ring₃.headWord
  have returned := own_read again fun t left => by
    obtain ⟨_, _, next⟩ := Prog.read.inj left
    have zero : sub64 1 0 = sub64 t 0 := Prog.ret.inj (congrFun next 0)
    unfold sub64 at zero
    change load m₃ (2784 + RingBufHeader.head) 8 ≤ t
    omega
  rw [head₃] at returned
  obtain ⟨_, moment⟩ := calm_length_held map rfl (fun _ => map) (fun _ => rfl) place ⟨0, ring⟩ returned (v := 0) rfl
  exact ⟨m, _, run, returned, rfl, rfl, moment⟩

/-- The tail of a ring of two slots wraps around between the unlock and the second read. -/
theorem length_beyond_capacity : ∃ m st, exec (ringbufCreate 4096 smallRegion 2 1) initialised = some (2784, m) ∧
    LengthRun (fun _ => smallRegion) 2784 (fun _ _ => True) (lengthOrigin smallRegion 2784 m) st ∧
    st.left = ret (2 ^ 64 - 1) ∧ ¬2 ^ 64 - 1 ≤ 2 - 1 := by
  have ran : (exec (ringbufCreate 4096 smallRegion 2 1) initialised).bind (fun r =>
      ([LengthEvent.push 1 fun _ => 7, .pop 1, .own, .own, .own, .own, .push 1 fun _ => 7, .own, .own].foldlM
        (lengthNext (fun _ => smallRegion) 2784) (lengthOrigin smallRegion 2784 r.2)).map fun st =>
          (r.1, st.result)) = some (2784, some (2 ^ 64 - 1)) := by decide +kernel
  obtain ⟨⟨h, m⟩, run, steps⟩ := Option.bind_eq_some_iff.mp ran
  obtain ⟨st, events, shown⟩ := Option.map_eq_some_iff.mp steps
  simp only [Prod.mk.injEq] at shown
  obtain ⟨rfl, result⟩ := shown
  refine ⟨m, st, run, lengthRun_events (fun _ _ => trivial) events .start, ?_, by decide⟩
  unfold LengthState.result at result
  split at result
  · rename_i v left
    rw [left, Option.some.inj result]
  · exact absurd result (by simp)

end OffsetStore
