import OffsetStore.ContainerLocks

/- Any number of processes that use the library, in any order of their steps: nobody is left
   with a lock, and no circle of processes that wait for each other can close. Locks are
   granted to whoever asks while they are free; an owner that dies is not considered here.
   Initialising a lock, destroying one and marking one consistent leave its holders as they
   are, also where a client does so while others use the lock. -/
namespace OffsetStore
open ByteMemory Program Prog Words LockOrder

/-- The calls on a container that take its mutex. -/
inductive ContainerCall (region : ShmRegion) (handle : Nat) : {α : Type} → Code α → Prop where
  | dynarrayDestroy (fuel : Nat) : ContainerCall region handle (dynarrayDestroy fuel region handle)
  | dynarrayReserve (fuel newCap : Nat) : ContainerCall region handle (dynarrayReserve fuel region handle newCap)
  | dynarrayPush (fuel : Nat) (elem : Mem) : ContainerCall region handle (dynarrayPush fuel region handle elem)
  | dynarrayGet (index : Nat) : ContainerCall region handle (dynarrayGet region handle index)
  | dynarrayLength : ContainerCall region handle (dynarrayLength region handle)
  | dynlistDestroy (fuel : Nat) : ContainerCall region handle (dynlistDestroy fuel region handle)
  | dynlistPushBack (fuel : Nat) (elem : Mem) : ContainerCall region handle (dynlistPushBack fuel region handle elem)
  | dynlistPushFront (fuel : Nat) (elem : Mem) : ContainerCall region handle (dynlistPushFront fuel region handle elem)
  | dynlistGet (index : Nat) : ContainerCall region handle (dynlistGet region handle index)
  | dynlistLength : ContainerCall region handle (dynlistLength region handle)
  | hashtableDestroy (fuel : Nat) : ContainerCall region handle (hashtableDestroy fuel region handle)
  | hashtablePut (fuel : Nat) (key : CString) (value : Mem) :
      ContainerCall region handle (hashtablePut fuel region handle key value)
  | hashtableGet (fuel : Nat) (key : CString) : ContainerCall region handle (hashtableGet fuel region handle key)
  | hashtableDelete (fuel : Nat) (key : CString) : ContainerCall region handle (hashtableDelete fuel region handle key)
  | hashtableLength (fuel : Nat) : ContainerCall region handle (hashtableLength fuel region handle)
  | ringbufDestroy (fuel : Nat) : ContainerCall region handle (ringbufDestroy fuel region handle)
  | ringbufPush (element : Mem) : ContainerCall region handle (ringbufPush region handle element)
  | ringbufPop : ContainerCall region handle (ringbufPop region handle)
  | ringbufLength : ContainerCall region handle (ringbufLength region handle)
  | ringbufIsEmpty : ContainerCall region handle (ringbufIsEmpty region handle)
  | ringbufIsFull : ContainerCall region handle (ringbufIsFull region handle)

/-- The calls of the library with the lowest rank they wait for; a call that waits for no lock
    has every rank. Handles lie behind the metadata of the region. -/
inductive Library : Nat → {α : Type} → Code α → Prop where
  | bootstrap (size : Nat) : Library allocatorRank (offsetStoreBootstrap size)
  | create {k : Nat} (size : Nat) : Library k (shmRegionCreate size)
  | openRegion {k : Nat} : Library k shmRegionOpen
  | init (region : ShmRegion) : Library allocatorRank (allocatorInit region)
  | openExisting {k : Nat} (fuel : Nat) : Library k (offsetStoreOpenExisting fuel)
  | close {k : Nat} (region : ShmRegion) : Library k (shmRegionClose region)
  | unlink {k : Nat} : Library k shmRegionUnlink
  | validate {k : Nat} (region : ShmRegion) : Library k (shmRegionValidate region)
  | allocatorValidate {k : Nat} (region : ShmRegion) (fuel : Nat) : Library k (allocatorValidate fuel region)
  | stats {k : Nat} (region : ShmRegion) (fuel : Nat) : Library k (allocatorGetStats fuel region)
  | span {k : Nat} (region : ShmRegion) (fuel ptr : Nat) : Library k (allocatorGetAllocationSpan fuel region ptr)
  | alloc (region : ShmRegion) (fuel size alignment : Nat) : Library shardRank (allocatorAlloc fuel region size alignment)
  | free (region : ShmRegion) (ptr : Nat) : Library shardRank (allocatorFree region ptr)
  | setRoot (region : ShmRegion) (name : CString) (object : Nat) : Library rootsRank (shmRegionSetRoot region name object)
  | getRoot (region : ShmRegion) (name : CString) : Library rootsRank (shmRegionGetRoot region name)
  | removeRoot (region : ShmRegion) (name : CString) : Library rootsRank (shmRegionRemoveRoot region name)
  | indexPut (region : ShmRegion) (key : CString) (object : Nat) : Library indexRank (shmRegionIndexPut region key object)
  | indexGet (region : ShmRegion) (key : CString) : Library indexRank (shmRegionIndexGet region key)
  | indexContains (region : ShmRegion) (key : CString) : Library indexRank (shmRegionIndexContains region key)
  | indexRemove (region : ShmRegion) (key : CString) : Library indexRank (shmRegionIndexRemove region key)
  | objectAlloc (region : ShmRegion) (fuel type size : Nat) : Library shardRank (objectStoreAlloc fuel region type size)
  | objectFree (region : ShmRegion) (fuel object : Nat) : Library shardRank (objectStoreFree fuel region object)
  | objectHeader {k : Nat} (region : ShmRegion) (fuel object : Nat) : Library k (objectStoreGetHeader fuel region object)
  | objectPayload {k : Nat} (region : ShmRegion) (fuel object : Nat) : Library k (objectStoreGetPayload fuel region object)
  | objectValidate {k : Nat} (region : ShmRegion) (fuel object : Nat) : Library k (objectStoreValidate fuel region object)
  | dynarrayCreate (region : ShmRegion) (fuel elemSize : Nat) : Library shardRank (dynarrayCreate fuel region elemSize)
  | dynlistCreate (region : ShmRegion) (fuel elemSize : Nat) : Library shardRank (dynlistCreate fuel region elemSize)
  | hashtableCreate (region : ShmRegion) (fuel numBuckets keySize valSize : Nat) :
      Library shardRank (hashtableCreate fuel region numBuckets keySize valSize)
  | ringbufCreate (region : ShmRegion) (fuel capacity elemSize : Nat) :
      Library shardRank (ringbufCreate fuel region capacity elemSize)
  | ringbufCapacity {k : Nat} (region : ShmRegion) (handle : Nat) : Library k (ringbufCapacity region handle)
  | container {α : Type} {region : ShmRegion} {handle : Nat} {p : Code α} (map : region.Mapped)
      (placed : allocatorMetadataOffset + AllocatorHeader.sizeof ≤ handle) (call : ContainerCall region handle p) :
      Library containerRank p

/-- The locks of the region header that the library hands to its callers. -/
inductive CallerLock (region : ShmRegion) : Nat → Code OffsetStoreStatus → Code OffsetStoreStatus → Prop where
  | allocator :
      CallerLock region RegionHeader.allocatorMutex (shmRegionAllocatorLock region) (shmRegionAllocatorUnlock region)
  | roots : CallerLock region RegionHeader.rootsRwlock (shmRegionRootsLock region) (shmRegionRootsUnlock region)
  | rootsRead : CallerLock region RegionHeader.rootsRwlock (shmRegionRootsReadLock region) (shmRegionRootsUnlock region)
  | index : CallerLock region RegionHeader.indexRwlock (shmRegionIndexLock region) (shmRegionIndexUnlock region)
  | indexRead : CallerLock region RegionHeader.indexRwlock (shmRegionIndexReadLock region) (shmRegionIndexUnlock region)

/-- Programs over the library: they load and store as they like, call the library, and may hold a lock of
    the region header around a part of their work that uses later locks only. -/
inductive Client : Nat → {α : Type} → Code α → Prop where
  | done {k : Nat} {α : Type} (a : α) : Client k (ret a : Code α)
  | load {k o n : Nat} {α : Type} {next : Nat → Code α} (all : ∀ v, Client k (next v)) : Client k (.read o n next)
  | store {k o n v : Nat} {α : Type} {next : Code α} (rest : Client k next) : Client k (.write o n v next)
  | call {k r : Nat} {α β : Type} {p : Code α} {f : α → Code β} (library : Library r p) (above : k ≤ r)
      (next : ∀ a, Client k (f a)) : Client k (p >>= f)
  | holding {k lock : Nat} {α β : Type} {region : ShmRegion} {acquire release : Code OffsetStoreStatus}
      {body : Code α} {after : α → Code β} {refused : Code β} (pair : CallerLock region lock acquire release)
      (above : k ≤ lockRank lock) (inside : Client (lockRank lock + 1) body)
      (next : ∀ a, Client k (after a)) (otherwise : Client k refused) :
      Client k (do
        let status ← acquire
        if status ≠ .ok then refused
        else do
          let a ← body
          let _ ← release
          after a)

theorem ContainerCall.ranked {region : ShmRegion} {handle : Nat} {α : Type} {p : Code α}
    (call : ContainerCall region handle p) (map : region.Mapped)
    (placed : allocatorMetadataOffset + AllocatorHeader.sizeof ≤ handle) : Ranked containerRank p := by
  cases call with
  | dynarrayDestroy fuel => exact ranked_dynarrayDestroy map placed fuel
  | dynarrayReserve fuel newCap => exact ranked_dynarrayReserve map placed fuel newCap
  | dynarrayPush fuel elem => exact ranked_dynarrayPush map placed fuel elem
  | dynarrayGet index => exact ranked_dynarrayGet index
  | dynarrayLength => exact ranked_dynarrayLength
  | dynlistDestroy fuel => exact ranked_dynlistDestroy map placed fuel
  | dynlistPushBack fuel elem => exact ranked_dynlistPushBack map placed fuel elem
  | dynlistPushFront fuel elem => exact ranked_dynlistPushFront map placed fuel elem
  | dynlistGet index => exact ranked_dynlistGet index
  | dynlistLength => exact ranked_dynlistLength
  | hashtableDestroy fuel => exact ranked_hashtableDestroy map placed fuel
  | hashtablePut fuel key value => exact ranked_hashtablePut map placed fuel key value
  | hashtableGet fuel key => exact ranked_hashtableGet fuel key
  | hashtableDelete fuel key => exact ranked_hashtableDelete map placed fuel key
  | hashtableLength fuel => exact ranked_hashtableLength fuel
  | ringbufDestroy fuel => exact ranked_ringbufDestroy map placed fuel
  | ringbufPush element => exact ranked_ringbufPush element
  | ringbufPop => exact ranked_ringbufPop
  | ringbufLength => exact ranked_ringbufLength
  | ringbufIsEmpty => exact ranked_ringbufIsEmpty
  | ringbufIsFull => exact ranked_ringbufIsFull

theorem Library.ranked {k : Nat} {α : Type} {p : Code α} (call : Library k p) : Ranked k p := by
  cases call with
  | bootstrap size => exact ranked_bootstrap size
  | create size => exact ranked_create size
  | openRegion => exact ranked_open
  | init region => exact ranked_init
  | openExisting fuel => exact ranked_openExisting fuel
  | close region => exact ranked_close region
  | unlink => exact ranked_unlink
  | validate region => exact ranked_validate
  | allocatorValidate region fuel => exact balanced_loads (loads_validate fuel)
  | stats region fuel => exact balanced_loads (loads_stats fuel)
  | span region fuel ptr => exact balanced_loads (loads_span fuel ptr)
  | alloc region fuel size alignment => exact ranked_alloc fuel size alignment
  | free region ptr => exact ranked_free ptr
  | setRoot region name object =>
    exact balanced_ite (fun _ => balanced_ret) fun _ => ranked_publish (by decide) fun header => ranked_put _ _ _ _
  | getRoot region name => exact balanced_ite (fun _ => balanced_ret) fun _ => ranked_get (by decide) name
  | removeRoot region name =>
    exact balanced_ite (fun _ => balanced_ret) fun _ => ranked_publish (by decide) fun header => ranked_remove _ _ _
  | indexPut region key object =>
    exact balanced_ite (fun _ => balanced_ret) fun _ => ranked_publish (by decide) fun header => ranked_put _ _ _ _
  | indexGet region key => exact balanced_ite (fun _ => balanced_ret) fun _ => ranked_get (by decide) key
  | indexContains region key => exact balanced_ite (fun _ => balanced_ret) fun _ => ranked_contains key
  | indexRemove region key =>
    exact balanced_ite (fun _ => balanced_ret) fun _ => ranked_publish (by decide) fun header => ranked_remove _ _ _
  | objectAlloc region fuel type size => exact ranked_objectAlloc fuel type size
  | objectFree region fuel object => exact ranked_objectFree fuel object
  | objectHeader region fuel object => exact balanced_loads (loads_resolve object 0)
  | objectPayload region fuel object => exact balanced_loads (loads_payload fuel object)
  | objectValidate region fuel object => exact balanced_loads (loads_objectValidate object)
  | dynarrayCreate region fuel elemSize => exact ranked_dynarrayCreate fuel elemSize
  | dynlistCreate region fuel elemSize => exact ranked_dynlistCreate fuel elemSize
  | hashtableCreate region fuel numBuckets keySize valSize =>
    exact ranked_hashtableCreate fuel numBuckets keySize valSize
  | ringbufCreate region fuel capacity elemSize => exact ranked_ringbufCreate fuel capacity elemSize
  | ringbufCapacity region handle => exact ranked_ringbufCapacity handle
  | container map placed call => exact call.ranked map placed

/-- The work of a holder, between the acquisition and the release of its lock. -/
theorem CallerLock.ranked {region : ShmRegion} {k lock : Nat} {α β : Type} {acquire release : Code OffsetStoreStatus}
    {body : Code α} {after : α → Code β} {refused : Code β} (pair : CallerLock region lock acquire release)
    (above : k ≤ lockRank lock) (inside : Ranked (lockRank lock + 1) body) (next : ∀ a, Ranked k (after a))
    (otherwise : Ranked k refused) :
    Ranked k (do
      let status ← acquire
      if status ≠ .ok then refused
      else do
        let a ← body
        let _ ← release
        after a) := by
  have without : ∀ {status : OffsetStoreStatus} {work : Code β}, status ≠ .ok →
      Ranked k (if status ≠ .ok then refused else work) := fun bad => by rwa [if_pos bad]
  have table : ∀ (call unlock : Sys) (shared : Bool), lockAct call = .acquire lock shared →
      lockAct unlock = .release lock → Ranked k (do
        let status ← withLock region (lockRequest call)
        if status ≠ .ok then refused
        else do
          let a ← body
          let _ ← withLock region (lockRequest unlock)
          after a) := by
    intro call unlock shared kind back
    refine ranked_lock kind above (fun status bad => without bad) fun mapped => ?_
    rw [if_neg (by decide)]
    exact closes_bind inside fun a => section_unlock mapped back (next a)
  cases pair with
  | allocator =>
    refine ranked_allocatorLock above (fun status bad => without bad) fun mapped => ?_
    rw [if_neg (by decide)]
    refine closes_bind inside fun a => ?_
    exact section_unlock (c := .mutexUnlock RegionHeader.allocatorMutex) mapped rfl (next a)
  | roots => exact table (.rwlockWrlock RegionHeader.rootsRwlock) (.rwlockUnlock RegionHeader.rootsRwlock) false rfl rfl
  | rootsRead => exact table (.rwlockRdlock RegionHeader.rootsRwlock) (.rwlockUnlock RegionHeader.rootsRwlock) true rfl rfl
  | index => exact table (.rwlockWrlock RegionHeader.indexRwlock) (.rwlockUnlock RegionHeader.indexRwlock) false rfl rfl
  | indexRead => exact table (.rwlockRdlock RegionHeader.indexRwlock) (.rwlockUnlock RegionHeader.indexRwlock) true rfl rfl

theorem Client.ranked {k : Nat} {α : Type} {p : Code α} (client : Client k p) : Ranked k p := by
  induction client with
  | done a => exact balanced_ret
  | load all ih => exact balanced_read ih
  | store rest ih => exact balanced_write ih
  | call library above next ih => exact balanced_bind (balanced_raise library.ranked above) ih
  | holding pair above inside next otherwise work later never => exact pair.ranked above work later never

theorem Client.orderly {p : Code Unit} (client : Client containerRank p) :
    Orderly lockAct lockRank (fun _ held => held = []) p [] := client.ranked [] (by simp)

abbrev Processes (ι : Type) := System Sys Nat ι

/-- The processes start with nothing to do and without locks. -/
structure AtRest {ι : Type} (s : Processes ι) : Prop where
  idle : ∀ i, ¬s.Busy i
  free : ∀ i, s.held i = []

section Deadlock
variable {ι : Type} [DecidableEq ι] {s s' : Processes ι}

/-- Whatever clients of the library run, in any number and in any order of their steps: a process between two
    tasks holds no lock, only readers share one, a lock is released by its owner, nobody waits for a lock that
    does not rank above all it holds, and as long as some process has work to do, one of these can go on. -/
theorem never_deadlocked (rest : AtRest s) (runs : Runs lockAct (Client containerRank) s s') :
    (∀ i, ¬s'.Busy i → s'.held i = []) ∧ Exclusive s' ∧
      (∀ i c next lock, s'.code i = .call c next → lockAct c = .release lock → ∃ x ∈ s'.held i, x.1 = lock) ∧
      (∀ i lock, Waits lockAct s' i lock → ∀ x ∈ s'.held i, lockRank x.1 < lockRank lock) ∧
      ∀ i, s'.Busy i → ∃ j, s'.Busy j ∧
        (s'.code j = spin ∨ ∃ s'', Step lockAct (Client containerRank) j s' s'') := by
  have kept : AllOrderly lockAct lockRank s' :=
    orderly_runs (fun p client => client.orderly) (orderly_idle rest.idle rest.free) runs
  have answered : ∀ c lock refused, lockAct c = .attempt lock refused → ∃ r, refused r := by
    intro c lock refused kind
    cases c <;> cases kind
    · exact ⟨ebusy, rfl⟩
    · exact ⟨ebusy, Or.inl rfl⟩
  have apart : Exclusive s := by
    intro i j _ x mem
    rw [rest.free i] at mem
    cases mem
  refine ⟨fun i idle => kept.idle idle, exclusive_runs apart runs, fun i c next lock here kind => kept.releases here kind,
    fun i lock waits x mem => kept.climbs waits mem, fun i busy => ?_⟩
  obtain ⟨j, working, free⟩ := kept.not_all_wait lockRank_le busy
  exact ⟨j, working, step_of_not_waits answered working free⟩

end Deadlock

def holdAllocator : Code Unit := do
  let status ← shmRegionAllocatorLock smallRegion
  if status ≠ .ok then ret ()
  else do
    let a ← ret ()
    let _ ← shmRegionAllocatorUnlock smallRegion
    ret a

theorem client_holdAllocator : Client containerRank holdAllocator :=
  .holding .allocator (Nat.zero_le _) (.done ()) (fun a => .done a) (.done ())

theorem never_deadlocked_two : ∃ s' : Processes Bool, Waits lockAct s' false RegionHeader.allocatorMutex ∧
    ∃ j, s'.Busy j ∧ (s'.code j = spin ∨ ∃ s'', Step lockAct (Client containerRank) j s' s'') := by
  let s : Processes Bool := ⟨fun _ => ret (), fun _ => [], fun _ => 0⟩
  have rest : AtRest s := ⟨fun _ busy => busy rfl, fun _ => rfl⟩
  have calls : ∃ next, holdAllocator = .call (.mutexLock RegionHeader.allocatorMutex) next := ⟨_, rfl⟩
  obtain ⟨next, calls⟩ := calls
  let s₁ := s.go true holdAllocator [] s.mem
  let s₂ := s₁.go true (next 0) [(RegionHeader.allocatorMutex, false)] s.mem
  let s₃ := s₂.go false holdAllocator [] s.mem
  have first : Step lockAct (Client containerRank) true s s₁ := .start (rest.idle true) client_holdAllocator
  have second : Step lockAct (Client containerRank) true s₁ s₂ := by
    refine .acquire (s := s₁) calls rfl fun i x mem => ?_
    cases i <;> cases mem
  have third : Step lockAct (Client containerRank) false s₂ s₃ := .start (fun busy => busy rfl) client_holdAllocator
  have waits : Waits lockAct s₃ false RegionHeader.allocatorMutex := by
    refine ⟨_, next, false, calls, rfl, fun free => ?_⟩
    have shared := free true (RegionHeader.allocatorMutex, false) List.mem_cons_self rfl
    cases shared.1
  have runs : Runs lockAct (Client containerRank) s s₃ :=
    .tail (.tail (.tail .refl ⟨true, first⟩) ⟨true, second⟩) ⟨false, third⟩
  have busy : s₃.Busy false := fun idle => by
    rw [show s₃.code false = holdAllocator from rfl, calls] at idle
    cases idle
  exact ⟨s₃, waits, (never_deadlocked rest runs).2.2.2.2 false busy⟩

end OffsetStore
