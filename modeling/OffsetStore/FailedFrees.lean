import OffsetStore.AllocReturns
import OffsetStore.FreeChecks
import OffsetStore.HeapReleases

/- Failed calls of object_store_free. The object is marked as freed before its allocation is
   released, and no exit of the release takes the mark back. -/
namespace OffsetStore
open ByteMemory Program Prog Words Tiling CellChain

/-- The object at x is as it was: its header has not changed, and it passes object_store_validate. -/
def ObjectKept {S : Type} (fuel : Nat) (region : ShmRegion) (handle : Sys → S → Int × S) (m m' : Mem) (x : Nat) : Prop :=
  SameOn m m' x (x + ObjectHeader.sizeof) ∧
    ∀ t, run handle (objectStoreValidate fuel region x) m' t = some (.ok, m', t)

section Retire
variable {n : Nat} {m : Mem} {V : HeapView} {a : Alloc}

/-- Block b holds allocation a, in a view that leaves the bytes behind its header to nobody. -/
structure Holds (n : Nat) (m : Mem) (V : HeapView) (a : Alloc) (s : Nat) (b : Block) : Prop where
  inv : HeapInv n m V
  shard : s < 4
  mem : b ∈ (V s).blocks
  leaked : b.use = .leaked
  hit : SpanMatch m a.ptr b.start
  low : b.start + 40 ≤ a.ptr
  high : a.ptr + a.size ≤ b.start + b.size

theorem Holds.stores {s : Nat} {b : Block} (holds : Holds n m V a s b) {o k v : Nat} (left : b.start + 32 ≤ o)
    (right : o + k ≤ b.start + b.size) : Holds n (store m o k v) V a s b := by
  have shardInv := holds.inv.shards s holds.shard
  have inside := shardInv.bounds holds.mem
  obtain ⟨bs, cs, here⟩ := List.append_of_mem holds.mem
  have harmless : ∀ w ∈ [(o, k, v)], Harmless b.start b.size s w := by
    intro w mem
    rw [List.mem_singleton.mp mem]
    exact Or.inr (Or.inr (Or.inr (Or.inr ⟨left, right⟩)))
  have rebuilt := shardInv.leaked_stores here holds.leaked holds.shard harmless
  have frame : ShardFrame n s m (store m o k v) := fun x range _ => store_outside (by omega)
  have whole := holds.inv.change holds.shard rebuilt frame
  rw [Function.update_eq_self] at whole
  refine ⟨whole, holds.shard, holds.mem, holds.leaked, ?_, holds.low, holds.high⟩
  unfold SpanMatch
  simp (disch := omega) only [load_store_apart]
  exact holds.hit

theorem HeapInv.retired (inv : HeapInv n m V) (live : V.Live a) (near : a.ptr - a.block < 2 ^ 32) :
    ∃ V' s b, Holds n m V' a s b := by
  obtain ⟨s, shard, b, mem, kind, fits, _⟩ := inv.live_block live
  obtain ⟨bs, cs, here⟩ := List.append_of_mem mem
  have rebuilt := (inv.shards s shard).retire here kind
  have frame : ShardFrame n s m m := fun _ _ _ => rfl
  refine ⟨_, s, { b with use := .leaked }, inv.change shard rebuilt frame, shard, by simp, rfl, ?_, fits.ptr_ge, fits.ptr_le⟩
  exact fits.block ▸ inv.match_live live near

end Retire

section Release
variable {region : ShmRegion} {n : Nat} {m : Mem} {o p : Nat}

/-- Behind its lock attempt a release is carried out exactly when the lock was granted and the payload offset fits. -/
theorem returns_free_locked (map : region.Mapped) (total : region.size = n) (header : HeaderRepr n heapBase m) {s : Nat}
    (shard : s < 4) (positive : 0 < o) (inside : o + 32 ≤ n) (room : p < n) (r : Int) :
    Returns (fun _ _ => True) (fun status m' => (status = .ok ↔ r = 0 ∧ o + payloadOffsetOf m o = p) ∧
      (status ≠ .ok → m' = m))
      (do
        noteShardLock s r
        if r ≠ 0 then return .systemError
        freeSection region (headerAddress region) (add64 region.base p) o s) m := by
  refine returns_bind (returns_noteShardLock r) ?_
  rintro _ m' rfl
  split
  · rename_i failed
    exact returns_ret ⟨iff_of_false (by simp) fun both => failed both.1, fun _ => rfl⟩
  · rename_i granted
    refine returns_burst.mpr ?_
    rw [burst_free_section map total header shard positive inside room]
    by_cases hit : o + payloadOffsetOf m' o = p
    · rw [if_pos hit]
      exact returns_call fun _ _ => returns_call fun _ _ => returns_ret
        ⟨iff_of_true rfl ⟨not_not.mp granted, hit⟩, fun failed => absurd rfl failed⟩
    · rw [if_neg hit]
      exact returns_call fun _ _ => returns_ret ⟨iff_of_false (by simp) fun both => hit both.2, fun _ => rfl⟩

theorem run_free_iff {S : Type} (handle : Sys → S → Int × S) (map : region.Mapped) (total : region.size = n)
    (header : HeaderRepr n heapBase m) (low : 8 ≤ p) (high : p < n) (s : S) :
    ∃ status m' s', run handle (allocatorFree region (add64 region.base p)) m s = some (status, m', s') ∧
      (status ≠ .ok → m' = m) ∧ (status = .ok ↔ Accepted n m (load m (p - 8) 8) p ∧
        (handle (.mutexLock (shardMutex (load m (load m (p - 8) 8 + BlockHeader.shard) 4))) s).1 = 0) := by
  rw [run_burst]
  obtain ⟨checked, same⟩ | ⟨refused, same⟩ := burst_free_checks map total header low high
  · rw [same, freeLocked_eq]
    simp only [request_bind, applyStores_nil, run]
    obtain ⟨status, m', s', result, holds, kept⟩ := returns_run (s := (handle (.mutexLock (shardMutex (load m
      (load m (p - 8) 8 + BlockHeader.shard) 4))) s).2) (returns_free_locked map total header checked.shard
      checked.positive checked.inside high _) (fun _ _ => trivial)
    refine ⟨status, m', s', result, kept, holds.trans ?_⟩
    refine ⟨fun both => ⟨⟨checked.positive, checked.inside, checked.used, checked.shard, both.2⟩, both.1⟩, fun both => ?_⟩
    exact ⟨both.2, both.1.place⟩
  · rw [same]
    refine ⟨.invalidState, m, s, rfl, fun _ => rfl, iff_of_false (by simp) fun both => refused ?_⟩
    exact ⟨both.1.positive, both.1.inside, both.1.used, both.1.shard⟩

end Release

section Outcomes
variable {S : Type} {handle : Sys → S → Int × S} {region : ShmRegion} {n fuel : Nat} {m : Mem} {V : HeapView} {a : Alloc}

theorem run_objectFree {s : Nat} {b : Block} (holds : Holds n m V a s b) (map : region.Mapped) (total : region.size = n)
    (whole : 16 ≤ a.size) (enough : n ≤ fuel) (sound : SoundObject m a.ptr (b.start + b.size - a.ptr)) (t : S) :
    run handle (objectStoreFree fuel region a.ptr) m t =
      run handle (allocatorFree region (add64 region.base a.ptr)) (markedFreed m a) t := by
  have user := map.user
  have high := holds.high
  have finish := heap_end_le holds.inv.room holds.shard
  have inside := (holds.inv.shards s holds.shard).bounds holds.mem
  rw [run_burst, burst_objectFree_match holds.inv map total holds.shard holds.mem holds.hit (by omega) enough,
    if_pos sound, ← run_burst]
  unfold objectRelease
  simp (disch := omega) only [ObjectHeader.size, ObjectHeader.type, ObjectHeader.flags, ObjectHeader.reserved, store32_field]
  rfl

theorem markedFreed_differs (even : load m (a.ptr + 8) 4 &&& objectFlagFreed = 0) :
    ¬SameOn m (markedFreed m a) a.ptr (a.ptr + ObjectHeader.sizeof) := by
  intro same
  have bound : load m (a.ptr + 8) 4 ||| 1 < 2 ^ 32 := Nat.or_lt_two_pow (load_four_lt m _) (by omega)
  have flags : load (markedFreed m a) (a.ptr + 8) 4 = load m (a.ptr + 8) 4 :=
    load_congr (same.narrow (by omega) (by simp only [ObjectHeader.sizeof]; omega))
  unfold markedFreed at flags
  simp (disch := omega) only [load_store_apart, load_store_four bound] at flags
  rw [← flags, objectFlagFreed, Nat.and_one_is_mod] at even
  have odd : (load m (a.ptr + 8) 4 ||| 1) % 2 = 1 := Nat.or_mod_two_eq_one.mpr (Or.inr rfl)
  omega

theorem Holds.marked {s : Nat} {b : Block} (holds : Holds n m V a s b) (whole : 16 ≤ a.size) :
    Holds n (markedFreed m a) V a s b := by
  have low := holds.low
  have high := holds.high
  have first := holds.stores (o := a.ptr + 8) (k := 4) (v := load m (a.ptr + 8) 4 ||| 1) (by omega) (by omega)
  have second := first.stores (o := a.ptr + 4) (k := 4) (v := 0) (by omega) (by omega)
  have third := second.stores (o := a.ptr + 12) (k := 4) (v := objectFreedMark) (by omega) (by omega)
  exact third.stores (o := a.ptr) (k := 4) (v := load m a.ptr 4) (by omega) (by omega)

theorem markedFreed_below (low : 8 ≤ a.ptr) : load (markedFreed m a) (a.ptr - 8) 8 = load m (a.ptr - 8) 8 := by
  unfold markedFreed
  simp (disch := omega) only [load_store_apart]

/-- A failed release of a valid object keeps the object exactly when there is no failure: the word before the object
    names a block in use with the payload offset of the object, and the lock of its shard is granted. The word is
    that of the block of the object unless somebody has overwritten it. -/
theorem failed_free_kept_iff (map : region.Mapped) (total : region.size = n) (enough : n ≤ fuel) {L : Set Alloc}
    (heap : HeapLive n m L) (mem : a ∈ L) (plain : a.align = 16) (whole : 16 ≤ a.size) {w : Nat} (word : w < 2 ^ 64)
    (valid : exec (objectStoreValidate fuel region a.ptr) (store m (a.ptr - 8) 8 w) =
      some (.ok, store m (a.ptr - 8) 8 w)) (s : S) :
    ∃ status m' s', run handle (objectStoreFree fuel region a.ptr) (store m (a.ptr - 8) 8 w) s = some (status, m', s') ∧
      ((status ≠ .ok → ObjectKept fuel region handle (store m (a.ptr - 8) 8 w) m' a.ptr) ↔
        Accepted n (markedFreed (store m (a.ptr - 8) 8 w) a) w a.ptr ∧ (handle (.mutexLock (shardMutex
          (load (markedFreed (store m (a.ptr - 8) 8 w) a) (w + BlockHeader.shard) 4))) s).1 = 0) := by
  have near := heap.footprint.near a mem
  obtain ⟨V, inv, _, live⟩ := heap
  obtain ⟨V', t, b, before⟩ := inv.retired ((live a).mpr mem) (by omega)
  have low := before.low
  have high := before.high
  have inside := (before.inv.shards t before.shard).bounds before.mem
  have finish := heap_end_le before.inv.room before.shard
  have holds := before.stores (o := a.ptr - 8) (k := 8) (v := w) (by omega) (by omega)
  have named : load (store m (a.ptr - 8) 8 w) (a.ptr - 8) 8 = w := load_store_eight word
  generalize store m (a.ptr - 8) 8 w = m₁ at holds named valid ⊢
  obtain ⟨status, checks, accepts⟩ := burst_validate_match holds.inv map total holds.shard holds.mem holds.hit
    (by omega) enough
  have same := ((loads_exec (loads_objectValidate a.ptr)).mp valid).2
  rw [checks] at same
  have sound := accepts.mp (by simpa using same)
  have marked := holds.marked whole
  obtain ⟨status, m', s', result, kept, granted⟩ := run_free_iff handle (p := a.ptr) map total
    marked.inv.header (by omega) (by omega) s
  rw [markedFreed_below (by omega), named] at granted
  refine ⟨status, m', s', (run_objectFree holds map total whole enough sound s).trans result, ?_⟩
  rw [← granted]
  refine ⟨fun promise => ?_, fun ok failed => absurd ok failed⟩
  by_contra failed
  have same := (promise failed).1
  rw [kept failed] at same
  exact markedFreed_differs sound.1 same

/-- The word before a valid object has been overwritten: its release is refused and breaks it. -/
theorem failed_free_kept_small : ∃ (a : Alloc) (m m' : Mem),
    exec (objectStoreAlloc 4096 smallRegion 7 100) initialised = some (.ok a.ptr, m) ∧
    exec (objectStoreValidate 4096 smallRegion a.ptr) (store m (a.ptr - 8) 8 0) = some (.ok, store m (a.ptr - 8) 8 0) ∧
    run (fun (_ : Sys) (s : Unit) => (0, s)) (objectStoreFree 4096 smallRegion a.ptr) (store m (a.ptr - 8) 8 0) () =
      some (.invalidState, m', ()) ∧
    ¬ObjectKept 4096 smallRegion (fun (_ : Sys) (s : Unit) => (0, s)) (store m (a.ptr - 8) 8 0) m' a.ptr := by
  have made : (exec (objectStoreAlloc 4096 smallRegion 7 100) initialised).bind (fun r =>
      (exec (objectStoreValidate 4096 smallRegion 2784) (store r.2 (2784 - 8) 8 0)).bind fun v =>
        (run (fun (_ : Sys) (s : Unit) => (0, s)) (objectStoreFree 4096 smallRegion 2784) (store r.2 (2784 - 8) 8 0) ()).map
          fun f => (r.1, v.1, f.1)) = some (.ok 2784, .ok, .invalidState) := by decide +kernel
  obtain ⟨⟨result, m⟩, alloc, shown⟩ := Option.bind_eq_some_iff.mp made
  obtain ⟨⟨valid, m₁⟩, validate, shown⟩ := Option.bind_eq_some_iff.mp shown
  obtain ⟨⟨status, m', ⟨⟩⟩, free, same⟩ := Option.map_eq_some_iff.mp shown
  simp only [Prod.mk.injEq] at same
  obtain ⟨rfl, rfl, rfl⟩ := same
  obtain ⟨a, m₂, served, run⟩ | ⟨_, e, m₂, run, _⟩ := exec_objectAlloc_first smallRegion_mapped rfl (Nat.le_refl 4096)
    initialised_inv (fresh_intact 4096) (S := ∅) (fun a => by simp [fresh_not_live]) 7 (show 100 < 2 ^ 32 by decide)
  · rw [run] at alloc
    obtain ⟨place, rfl⟩ := Prod.mk.inj (Option.some.inj alloc)
    have ptr : a.ptr = 2784 := Except.ok.inj place
    have kept := ((loads_exec (loads_objectValidate 2784)).mp validate).1
    rw [kept] at validate
    rw [← ptr] at validate free
    obtain ⟨status, m₃, _, freed, kept⟩ := failed_free_kept_iff smallRegion_mapped rfl (Nat.le_refl 4096) served.step.heap
      (Set.mem_insert a ∅) served.aligned (by rw [served.sized]; decide) (show 0 < 2 ^ 64 by decide) validate ()
    obtain ⟨rfl, rfl, _⟩ : OffsetStoreStatus.invalidState = status ∧ m' = m₃ ∧ True := by
      simpa using free.symm.trans freed
    exact ⟨a, m₂, m', run, validate, free, fun held => Nat.lt_irrefl 0 (kept.mp fun _ => held).1.positive⟩
  · rw [run] at alloc
    simp at alloc

/-- The death of another process under the lock of the shard makes the release of a valid object fail, and the object
    does not pass the check any more. -/
theorem dead_owner_breaks_object : ∃ m m' s', exec (objectStoreAlloc 4096 smallRegion 7 100) initialised = some (.ok 2784, m) ∧
    exec (objectStoreValidate 4096 smallRegion 2784) m = some (.ok, m) ∧
    run (fun c (s : Unit) => match c with | .mutexLock _ => (eownerdead, s) | _ => (0, s))
      (objectStoreFree 4096 smallRegion 2784) m () = some (.systemError, m', s') ∧
    exec (objectStoreValidate 4096 smallRegion 2784) m' = some (.notFound, m') := by
  have made : (exec (objectStoreAlloc 4096 smallRegion 7 100) initialised).bind (fun r =>
      (exec (objectStoreValidate 4096 smallRegion 2784) r.2).bind fun v =>
        (run (fun c (s : Unit) => match c with | .mutexLock _ => (eownerdead, s) | _ => (0, s))
          (objectStoreFree 4096 smallRegion 2784) r.2 ()).bind fun f =>
            (exec (objectStoreValidate 4096 smallRegion 2784) f.2.1).map fun w => (r.1, [v.1, f.1, w.1])) =
              some (.ok 2784, [.ok, .systemError, .notFound]) := by decide +kernel
  obtain ⟨⟨result, m⟩, alloc, shown⟩ := Option.bind_eq_some_iff.mp made
  obtain ⟨⟨before, m₁⟩, first, shown⟩ := Option.bind_eq_some_iff.mp shown
  obtain ⟨⟨status, m', s'⟩, free, shown⟩ := Option.bind_eq_some_iff.mp shown
  obtain ⟨⟨after, m₂⟩, second, same⟩ := Option.map_eq_some_iff.mp shown
  simp only [Prod.mk.injEq, List.cons.injEq, and_true] at same
  obtain ⟨rfl, rfl, rfl, rfl⟩ := same
  have stays := ((loads_exec (loads_objectValidate 2784)).mp first).1
  have last := ((loads_exec (loads_objectValidate 2784)).mp second).1
  rw [stays] at first
  rw [last] at second
  exact ⟨m, m', s', alloc, first, free, second⟩

end Outcomes

end OffsetStore
