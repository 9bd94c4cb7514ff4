import OffsetStore.FreeChecks
import OffsetStore.ShardLocks

/- The thread-local record of the shard whose mutex a thread holds, over sequences of
   allocator_alloc and allocator_free by one thread whose lock operations succeed. The
   region may have any content when a call begins. -/
namespace OffsetStore
open ByteMemory Program Prog Words

/-- One thread: the mutexes it holds, its held_shard, and for every warning the shard it tried to lock and the
    mutexes it held at that moment. -/
structure Watched where
  held : List Nat
  heldShard : Int
  warnings : List (Nat × List Nat)

def Watched.lock (t : Watched) (mutex : Nat) : Watched := { t with held := mutex :: t.held }
def Watched.unlock (t : Watched) (mutex : Nat) : Watched := { t with held := t.held.filter fun other => other ≠ mutex }
def Watched.track (t : Watched) (shard : Int) : Watched := { t with heldShard := shard }

/-- Locks are granted, the tracker is a variable of the thread, and a warning is recorded. -/
def watchedHandle (reply : Sys → Int) : Sys → Watched → Int × Watched
  | .mutexLock mutex, t => (0, t.lock mutex)
  | .mutexUnlock mutex, t => (0, t.unlock mutex)
  | .heldShard, t => (t.heldShard, t)
  | .setHeldShard shard, t => (0, t.track shard)
  | .logDeadlockWarning trying _, t => (0, { t with warnings := (trying, t.held) :: t.warnings })
  | c, t => (reply c, t)

/-- The thread holds none of the four shard mutexes. -/
def Watched.Clear (t : Watched) : Prop := ∀ s, s < 4 → shardMutex s ∉ t.held

/-- Where no shard mutex is held the tracker says so, and every warning was given while the mutex of another shard was
    held. -/
structure Watched.Truthful (t : Watched) : Prop where
  tracker : t.Clear → t.heldShard = -1
  warnings : ∀ w ∈ t.warnings, ∃ s, s < 4 ∧ s ≠ w.1 ∧ shardMutex s ∈ w.2

structure Watched.Rested (t : Watched) : Prop where
  clear : t.Clear
  tracker : t.heldShard = -1

/-- One call, with the region it is made on and the content it finds there. -/
structure ThreadCall where
  region : ShmRegion
  contents : Mem
  request : AllocatorCall

/-- The states of the thread after each of its calls, when all of them return. -/
def callStates (reply : Sys → Int) : List ThreadCall → Watched → Option (List Watched)
  | [], _ => some []
  | c :: rest, t => do
    let r ← run (watchedHandle reply) (c.request.code c.region) c.contents t
    let later ← callStates reply rest r.2.2
    return r.2.2 :: later

/-- allocator_free comes as far as its lock. -/
structure FreeEnters (region : ShmRegion) (m : Mem) (ptr : Nat) : Prop where
  named : ptr ≠ 0
  room : 2728 ≤ region.size
  header : ∃ base, HeaderRepr region.size base m
  checked : Checked region.size m (prefixWord region m ptr)

/-- A release that comes as far as its lock finds a block whose payload offset leads back to the pointer. -/
def ThreadCall.Clears (c : ThreadCall) : Prop :=
  match c.request with
  | .alloc .. => True
  | .free ptr => FreeEnters c.region c.contents ptr →
      add64 (add64 c.region.base (prefixWord c.region c.contents ptr))
        (payloadOffsetOf c.contents (prefixWord c.region c.contents ptr)) = ptr

section Calls
variable {reply : Sys → Int} {t : Watched} {region : ShmRegion} {m : Mem} {s : Nat}

theorem Watched.Clear.released (clear : t.Clear) : ((t.lock (shardMutex s)).unlock (shardMutex s)).Clear := by
  intro r small held
  simp only [Watched.unlock, Watched.lock, List.mem_filter, List.mem_cons] at held
  rcases held with ⟨same | before, other⟩
  · simp [same] at other
  · exact clear r small before

/-- A tracker that names no shard gives no warning and names the new shard afterwards. -/
theorem leads_track (idle : t.heldShard = -1) :
    Leads (watchedHandle reply) (fun _ t' => t' = t.track s) (noteShardLock s 0) t := by
  unfold noteShardLock
  simp only [request_bind, perform_bind]
  refine leads_call ?_
  rw [if_neg (fun both => both.1 idle)]
  refine leads_call (leads_ite (fun dead => absurd dead (by decide)) fun _ => leads_ret rfl)

theorem leads_released {β : Type} (clear : t.Clear) (result : β) :
    Leads (watchedHandle reply) (fun _ t' => t'.Rested ∧ t'.warnings = t.warnings) (allocExit s result)
      ((t.lock (shardMutex s)).track s) := by
  unfold allocExit
  simp only [perform_bind]
  exact leads_call (leads_call (leads_ret ⟨⟨clear.released, rfl⟩, rfl⟩))

theorem leads_shards_tracked (rested : t.Rested) (fuel header shard size alignment left : Nat) :
    Leads (watchedHandle reply) (fun _ t' => t'.Rested ∧ t'.warnings = t.warnings)
      (allocShards fuel region header shard size alignment left) t := by
  induction left generalizing t with
  | zero => exact leads_fetchAdd fun _ => leads_ret ⟨rested, rfl⟩
  | succ left ih =>
    unfold allocShards ShmRegion.load64
    generalize (shard + (shardCount - (left + 1))) % shardCount = s
    simp only [request_bind, loadWord_bind]
    have locked : (t.lock (shardMutex s)).heldShard = -1 := rested.tracker
    refine leads_call (leads_bind (leads_track locked) ?_)
    rintro _ _ rfl
    refine leads_ite (fun failed => absurd rfl failed) fun _ => ?_
    refine leads_bind (leads_header _) ?_
    rintro valid _ rfl
    refine leads_ite (fun _ => leads_released rested.clear _) fun _ => leads_read fun x => ?_
    refine leads_bind (leads_walk (fun found => leads_released rested.clear found) _ _ _ _ _ _) ?_
    rintro found t' ⟨rested', same⟩
    split
    · exact leads_ret ⟨rested', same⟩
    · rw [← same]
      exact ih rested'

theorem leads_alloc_tracked (rested : t.Rested) (fuel size alignment : Nat) :
    Leads (watchedHandle reply) (fun _ t' => t'.Rested ∧ t'.warnings = t.warnings)
      (allocatorAlloc fuel region size alignment) t := by
  unfold allocatorAlloc
  refine leads_ite (fun _ => leads_ret ⟨rested, rfl⟩) fun _ => ?_
  simp only
  split
  · exact leads_ret ⟨rested, rfl⟩
  · split
    · exact leads_ret ⟨rested, rfl⟩
    · refine leads_bind (leads_header _) ?_
      rintro valid _ rfl
      exact leads_ite (fun _ => leads_ret ⟨rested, rfl⟩) fun _ => leads_shards_tracked rested _ _ _ _ _ _

/-- A release comes as far as its lock, or it returns at once. -/
theorem burst_free_arrives (map : region.Mapped) (ptr : Nat) :
    (FreeEnters region m ptr ∧ burst m (allocatorFree region ptr) =
      ([], freeLocked region (headerAddress region) ptr (prefixWord region m ptr)
        (load m (prefixWord region m ptr + BlockHeader.shard) 4))) ∨
    (¬FreeEnters region m ptr ∧ ∃ status, burst m (allocatorFree region ptr) = ([], ret status)) := by
  by_cases null : ptr = 0
  · refine Or.inr ⟨fun enters => enters.named null, .invalidArgument, ?_⟩
    unfold allocatorFree
    rw [if_pos null]
    rfl
  by_cases room : 2728 ≤ region.size
  swap
  · refine Or.inr ⟨fun enters => room enters.room, .invalidState, ?_⟩
    have outside : region.size < allocatorMetadataOffset + AllocatorHeader.sizeof := by
      simp only [allocatorMetadataOffset, RegionHeader.sizeof, AllocatorHeader.sizeof]
      omega
    unfold allocatorFree allocatorHeaderMut allocatorHeader
    rw [if_neg null, if_pos (Or.inr outside)]
    rfl
  by_cases header : ∃ base, HeaderRepr region.size base m
  swap
  · refine Or.inr ⟨fun enters => header enters.header, .invalidState, ?_⟩
    obtain ⟨ok, value, valid⟩ := burst_header_check (m := m) map rfl
    have bad : ok = false := Bool.eq_false_iff.mpr fun good => header (valid.mp good)
    unfold allocatorFree
    rw [if_neg null]
    simp only [allocatorHeaderMut, allocatorHeader_eq map room]
    rw [burst_bind_of_ret value, bad]
    rfl
  obtain ⟨base, repr⟩ := header
  obtain ⟨checked, enter⟩ | ⟨refused, enter⟩ := burst_free_enter map rfl room repr null
  · exact Or.inl ⟨⟨null, room, ⟨base, repr⟩, checked⟩, enter⟩
  · exact Or.inr ⟨fun enters => refused enters.checked, .invalidState, enter⟩

structure AfterCall (c : ThreadCall) (t t' : Watched) : Prop where
  clear : t'.Clear
  tracker : t'.heldShard = -1 ↔ c.Clears
  warnings : t'.warnings = t.warnings

theorem free_after (map : region.Mapped) (rested : t.Rested) {ptr : Nat} {status : OffsetStoreStatus} {m' : Mem}
    {t' : Watched} (returns : run (watchedHandle reply) (allocatorFree region ptr) m t = some (status, m', t')) :
    AfterCall ⟨region, m, .free ptr⟩ t t' := by
  obtain ⟨enters, arrives⟩ | ⟨refused, result, leaves⟩ := burst_free_arrives (m := m) map ptr
  swap
  · rw [run_of_ret leaves] at returns
    obtain ⟨_, _, rfl⟩ : result = status ∧ m = m' ∧ t = t' := by simpa using returns
    exact ⟨rested.clear, iff_of_true rested.tracker fun enters => absurd enters refused, rfl⟩
  have checked := enters.checked
  obtain ⟨base, header⟩ := enters.header
  have section' := burst_section_enter map rfl header checked.shard checked.positive checked.inside ptr
  generalize load m (prefixWord region m ptr + BlockHeader.shard) 4 = s at arrives section'
  have noted : run (watchedHandle reply) (noteShardLock s 0) m (t.lock (shardMutex s)) =
      some ((), m, (t.lock (shardMutex s)).track s) := by
    unfold noteShardLock
    simp only [request_bind, perform_bind]
    show run (watchedHandle reply) (if t.heldShard ≠ -1 ∧ t.heldShard ≠ s then _ else _) m (t.lock (shardMutex s)) = _
    rw [if_neg (fun both => both.1 rested.tracker)]
    rfl
  rw [run_burst, arrives, freeLocked_eq] at returns
  simp only [request_bind, applyStores_nil] at returns
  change run (watchedHandle reply) (noteShardLock s 0 >>= fun _ =>
    if (0 : Int) ≠ 0 then pure .systemError
    else freeSection region (headerAddress region) ptr (prefixWord region m ptr) s) m (t.lock (shardMutex s)) = _ at returns
  rw [run_bind, noted] at returns
  simp only [Option.bind_some, ne_eq, not_true_eq_false, if_false] at returns
  rw [run_burst, section'] at returns
  by_cases named : add64 (add64 region.base (prefixWord region m ptr)) (payloadOffsetOf m (prefixWord region m ptr)) = ptr
  · rw [if_pos named] at returns
    obtain ⟨_, pair⟩ := Prod.mk.inj (Option.some.inj returns)
    obtain ⟨_, rfl⟩ := Prod.mk.inj pair
    exact ⟨rested.clear.released, iff_of_true rfl fun _ => named, rfl⟩
  · rw [if_neg named] at returns
    obtain ⟨_, pair⟩ := Prod.mk.inj (Option.some.inj returns)
    obtain ⟨_, rfl⟩ := Prod.mk.inj pair
    refine ⟨rested.clear.released, iff_of_false ?_ fun clears => named (clears enters), rfl⟩
    intro cleared
    have shard : (s : Int) = -1 := cleared
    omega

theorem call_after {c : ThreadCall} (map : c.region.Mapped) (rested : t.Rested) {status : OffsetStoreStatus} {m' : Mem}
    {t' : Watched} (returns : run (watchedHandle reply) (c.request.code c.region) c.contents t = some (status, m', t')) :
    AfterCall c t t' := by
  obtain ⟨region, m, request⟩ := c
  cases request with
  | alloc fuel size alignment =>
    have leads : Leads (watchedHandle reply) (fun _ t' => t'.Rested ∧ t'.warnings = t.warnings)
        ((AllocatorCall.alloc fuel size alignment).code region) t := by
      refine leads_bind (leads_alloc_tracked rested fuel size alignment) ?_
      intro result t' after
      cases result with
      | ok ptr => exact leads_ret after
      | error status => exact leads_ret after
    have after := leads_run leads returns
    exact ⟨after.1.clear, iff_of_true after.1.tracker trivial, after.2⟩
  | free ptr => exact free_after map rested returns

end Calls

section Truthfulness
variable {reply : Sys → Int} {calls : List ThreadCall} {t : Watched} {states : List Watched}

/-- The tracker and the warnings are truthful after every call exactly when every release that comes as far as its lock
    finds a block that leads back to its pointer. -/
theorem tracker_truthful_iff (mapped : ∀ c ∈ calls, c.region.Mapped) (rested : t.Rested) (quiet : t.warnings = [])
    (returns : callStates reply calls t = some states) :
    (∀ t' ∈ states, t'.Truthful) ↔ ∀ c ∈ calls, c.Clears := by
  induction calls generalizing t states with
  | nil =>
    have none : [] = states := Option.some.inj returns
    simp [← none]
  | cons c rest ih =>
    unfold callStates at returns
    obtain ⟨⟨status, m', t'⟩, first, returns⟩ := Option.bind_eq_some_iff.mp returns
    obtain ⟨later, others, same⟩ := Option.bind_eq_some_iff.mp returns
    obtain rfl := Option.some.inj same
    have after := call_after (mapped c List.mem_cons_self) rested first
    have silent : t'.warnings = [] := after.warnings.trans quiet
    have rests : c.Clears → ((∀ t' ∈ later, t'.Truthful) ↔ ∀ c ∈ rest, c.Clears) := fun clears =>
      ih (fun d mem => mapped d (List.mem_cons_of_mem c mem)) ⟨after.clear, after.tracker.mpr clears⟩ silent others
    rw [List.forall_mem_cons, List.forall_mem_cons]
    constructor
    · rintro ⟨truthful, all⟩
      have clears := after.tracker.mp (truthful.tracker after.clear)
      exact ⟨clears, (rests clears).mp all⟩
    · rintro ⟨clears, all⟩
      refine ⟨⟨fun _ => after.tracker.mpr clears, ?_⟩, (rests clears).mpr all⟩
      rw [silent]
      simp

end Truthfulness

/-- The fresh heap with a live payload at offset 3120, in the block of shard 1. -/
def secondShard : Mem := store (store (store initialised 3092 4 0) 3100 4 44) 3112 8 3076

/-- The fresh heap with a live payload at offset 2776, in the block of shard 0, and the offset of this block in the
    payload's second word. -/
def innerPrefix : Mem := store (store (store initialised 2752 4 0) 2760 4 40) 2784 8 2736

def quietThread : Watched := ⟨[], -1, []⟩

theorem quietThread_rested : quietThread.Rested := ⟨fun s _ held => by simp [quietThread] at held, rfl⟩

def stateWords (t : Watched) : List Nat × Int × List (Nat × List Nat) := (t.held, t.heldShard, t.warnings)

theorem tracker_truthful_small : ∃ states, callStates (fun _ => 0)
      [⟨smallRegion, secondShard, .free (65536 + 3120)⟩, ⟨smallRegion, initialised, .alloc 8 100 16⟩] quietThread =
        some states ∧ states.length = 2 ∧ ∀ t ∈ states, t.Truthful := by
  have words : (callStates (fun _ => 0) [⟨smallRegion, secondShard, .free (65536 + 3120)⟩,
      ⟨smallRegion, initialised, .alloc 8 100 16⟩] quietThread).map (·.map stateWords) =
        some [([], -1, []), ([], -1, [])] := by decide +kernel
  obtain ⟨states, returns, same⟩ := Option.map_eq_some_iff.mp words
  have two : states.length = 2 := by simpa using congrArg List.length same
  have back : add64 (add64 smallRegion.base (prefixWord smallRegion secondShard (65536 + 3120)))
      (payloadOffsetOf secondShard (prefixWord smallRegion secondShard (65536 + 3120))) = 65536 + 3120 := by decide +kernel
  refine ⟨states, returns, two, (tracker_truthful_iff ?_ quietThread_rested rfl returns).mpr ?_⟩
  · intro c mem
    simp only [List.mem_cons, List.not_mem_nil, or_false] at mem
    rcases mem with rfl | rfl
    · exact smallRegion_mapped
    · exact smallRegion_mapped
  · intro c mem
    simp only [List.mem_cons, List.not_mem_nil, or_false] at mem
    rcases mem with rfl | rfl
    · exact fun _ => back
    · trivial

/-- A refused release of an inner pointer leaves the tracker at shard 0, and the next release, in shard 1, warns of a
    deadlock while the thread holds no other mutex. -/
theorem false_warning : ∃ states, callStates (fun _ => 0) [⟨smallRegion, innerPrefix, .free (65536 + 2792)⟩,
      ⟨smallRegion, secondShard, .free (65536 + 3120)⟩] quietThread = some states ∧
    states.map stateWords = [([], 0, []), ([], -1, [(1, [shardMutex 1])])] ∧ ¬∀ t ∈ states, t.Truthful := by
  have words : (callStates (fun _ => 0) [⟨smallRegion, innerPrefix, .free (65536 + 2792)⟩,
      ⟨smallRegion, secondShard, .free (65536 + 3120)⟩] quietThread).map (·.map stateWords) =
        some [([], 0, []), ([], -1, [(1, [shardMutex 1])])] := by decide +kernel
  obtain ⟨states, returns, same⟩ := Option.map_eq_some_iff.mp words
  refine ⟨states, returns, same, fun truthful => ?_⟩
  obtain ⟨t, rest, rfl, first, _⟩ := List.map_eq_cons_iff.mp same
  have free : t.held = [] := congrArg Prod.fst first
  have names : t.heldShard = 0 := congrArg (fun w => w.2.1) first
  have idle := (truthful t List.mem_cons_self).tracker fun s _ held => by simp [free] at held
  rw [names] at idle
  exact absurd idle (by decide)

end OffsetStore
