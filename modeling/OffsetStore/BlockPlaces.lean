import OffsetStore.AllocatorLedger

/- Where the headers of blocks lie and how small free blocks become. Every shard begins
   at a quarter of the heap, which need not be aligned, while splits cut off whole
   multiples of 16 bytes. -/
namespace OffsetStore
open ByteMemory Program Prog Words Tiling CellChain Pool

/-- The block headers of a shard, from its first byte on by the sizes they store. -/
inductive BlockAt (m : Mem) (s : Nat) : Nat → Prop where
  | first : BlockAt m s (heapOffsetOf m + s * (heapSizeOf m / 4))
  | next {x : Nat} (before : BlockAt m s x)
      (inside : x + blockSizeOf m x < heapOffsetOf m + (s + 1) * (heapSizeOf m / 4)) :
      BlockAt m s (x + blockSizeOf m x)

/-- The nodes of the free list of a shard, from its head on by the links. -/
inductive OnFreeList (m : Mem) (s : Nat) : Nat → Prop where
  | head (listed : load m (headCell s) 8 ≠ 0) : OnFreeList m s (load m (headCell s) 8)
  | next {x : Nat} (before : OnFreeList m s x) (linked : load m (x + BlockHeader.nextFree) 8 ≠ 0) :
      OnFreeList m s (load m (x + BlockHeader.nextFree) 8)

section Read
variable {n s x : Nat} {m : Mem} {V : HeapView}

theorem HeapInv.shard_range (inv : HeapInv n m V) (s : Nat) :
    heapOffsetOf m + s * (heapSizeOf m / 4) = shardStart heapBase n s ∧
      heapOffsetOf m + (s + 1) * (heapSizeOf m / 4) = shardStart heapBase n s + shardSize heapBase n := by
  have offset : heapOffsetOf m = heapBase := inv.header.heapOffset
  have size : heapSizeOf m = n - heapBase := inv.header.heapSize
  rw [offset, size, Nat.add_mul, Nat.one_mul, ← Nat.add_assoc]
  exact ⟨rfl, rfl⟩

theorem HeapInv.block_at (inv : HeapInv n m V) (shard : s < 4) (found : BlockAt m s x) :
    ∃ b ∈ (V s).blocks, b.start = x := by
  have shardInv := inv.shards s shard
  have range := inv.shard_range s
  have room := inv.room
  induction found with
  | first =>
    rw [range.1]
    exact tiles_first shardInv.tiles (by unfold shardSize; omega)
  | next before inside ih =>
    obtain ⟨b, mb, rfl⟩ := ih
    have size : blockSizeOf m b.start = b.size := (shardInv.repr b mb).size
    rw [range.2, size] at inside
    rw [size]
    exact tiles_next shardInv.tiles mb inside

theorem HeapInv.on_free_list (inv : HeapInv n m V) (shard : s < 4) (listed : OnFreeList m s x) :
    ∃ b ∈ (V s).blocks, b.start = x ∧ b.use = .free := by
  have shardInv := inv.shards s shard
  refine shardInv.block_of_free ?_
  induction listed with
  | head listed =>
    have mem := chain_head_mem shardInv.chain listed
    exact mem
  | next before linked ih =>
    have mem := chain_next_mem shardInv.chain ih linked
    exact mem

end Read

/- What a request needs of a block. -/
section Room
variable {x size align : Nat}

/-- One byte takes a header, a prefix and an aligned payload: 64 bytes, or 80 where the block starts
    more than 8 above a multiple of 16. -/
theorem required_one (x : Nat) : required x 1 16 = if x % 16 ≤ 8 then 64 else 80 := by
  unfold required payloadPtr
  simp only [roundUp_sixteen]
  split <;> omega

theorem sixteen_dvd_required (x size align : Nat) : 16 ∣ required x size align := dvd_roundUp _ _

theorem payloadPtr_least (least : 16 ≤ align) (power : ∃ k, align = 2 ^ k) : payloadPtr x 16 ≤ payloadPtr x align := by
  obtain ⟨k, rfl⟩ := power
  have low : x + 40 ≤ payloadPtr x (2 ^ k) := payloadPtr_ge least
  have whole : 16 ∣ payloadPtr x (2 ^ k) := (sixteen_dvd_two_pow least).trans (dvd_roundUp _ _)
  unfold payloadPtr at low whole ⊢
  rw [roundUp_sixteen (x + 40)]
  omega

theorem required_least (positive : 0 < size) (least : 16 ≤ align) (power : ∃ k, align = 2 ^ k) :
    required x 1 16 ≤ required x size align := by
  have ptr := payloadPtr_least (x := x) least power
  unfold required
  simp only [roundUp_sixteen]
  omega

end Room

section Places
variable {n : Nat} {regions : Nat → ShmRegion} {before m : Mem} {S : Type} {handle : Sys → S → Int × S} {env env' : S}
  {st : State Sys HeapResult LedgerClient HeapRequest}

theorem view_starts {V : HeapView} (reach : ViewReach n V) :
    ∀ s, s < 4 → ∀ b ∈ (V s).blocks, b.start % 16 = shardStart heapBase n s % 16 := by
  refine view_blocks (G := fun s x _ => x % 16 = shardStart heapBase n s % 16) (fun s _ => rfl) ?_ reach
  intro s x w size align shard place positive least power room
  have whole := sixteen_dvd_required x size align
  exact ⟨place, by omega⟩

/-- Headers are aligned in every state exactly when the shards are. -/
theorem headers_aligned_iff (creator : Nat) (mapped : ∀ p, (regions p).Mapped) (sizes : ∀ p, (regions p).size = n)
    (init : run handle (allocatorInit (regions creator)) before env = some (.ok, m, env')) :
    (∀ st, Reachable (ledgerRules regions) (ledgerOrigin m) st → ∀ s, s < 4 → ∀ x, BlockAt st.mem s x → 8 ∣ x) ↔
      8 ∣ shardSize heapBase n := by
  constructor
  · intro aligned
    have fresh := (run_allocatorInit (mapped creator) (sizes creator) init).inv
    have second := aligned _ .refl 1 (by omega) _ .first
    have range := fresh.shard_range 1
    unfold ledgerOrigin at second
    rw [range.1] at second
    unfold shardStart heapBase at *
    omega
  · intro whole st runs s shard x found
    obtain ⟨V, _, inv, reach, _⟩ := ledger_runs creator mapped sizes init runs
    obtain ⟨b, mb, rfl⟩ := inv.block_at shard found
    have place := view_starts reach s shard b mb
    have quarter : 8 ∣ s * shardSize heapBase n := whole.mul_left s
    unfold shardStart heapBase at *
    omega

theorem headers_aligned_iff_small :
    (∀ st, Reachable (ledgerRules fun _ => smallRegion) (ledgerOrigin initialised) st →
      ∀ s, s < 4 → ∀ x, BlockAt st.mem s x → 8 ∣ x) ↔ 8 ∣ shardSize heapBase 4096 :=
  headers_aligned_iff 0 (fun _ => smallRegion_mapped) (fun _ => rfl) initialised_run

/-- There the second shard starts with a header at 3076. -/
theorem header_misaligned :
    ¬∀ st, Reachable (ledgerRules fun _ => smallRegion) (ledgerOrigin initialised) st →
      ∀ s, s < 4 → ∀ x, BlockAt st.mem s x → 8 ∣ x := by
  intro aligned
  have second := aligned _ .refl 1 (by omega) _ .first
  have range := initialised_inv.shard_range 1
  unfold ledgerOrigin at second
  rw [range.1] at second
  revert second
  decide

/-- No split leaves less than one byte needs: with q the room that one byte needs at the start of a
    shard, the shard has q bytes, and is too small to leave any remainder below q. -/
def NoSplinter (n : Nat) : Prop :=
  ∀ s, s < 4 → required (shardStart heapBase n s) 1 16 ≤ shardSize heapBase n ∧
    ∀ w, 56 ≤ w → w < required (shardStart heapBase n s) 1 16 → w % 16 = shardSize heapBase n % 16 →
      shardSize heapBase n < w + required (shardStart heapBase n s) 1 16

/-- Blocks are as large as one byte needs; all but the last of a shard are whole multiples of 16,
    and were cut off with a rest. -/
theorem view_sizes {V : HeapView} (none : NoSplinter n) (reach : ViewReach n V) :
    ∀ s, s < 4 → ∀ b ∈ (V s).blocks, b.start % 16 = shardStart heapBase n s % 16 ∧
      required b.start 1 16 ≤ b.size ∧ b.size ≤ shardSize heapBase n ∧
      (b.size % 16 = shardSize heapBase n % 16 ∨ (16 ∣ b.size ∧ b.size + 56 ≤ shardSize heapBase n)) := by
  refine view_blocks (G := fun s x w => x % 16 = shardStart heapBase n s % 16 ∧ required x 1 16 ≤ w ∧
    w ≤ shardSize heapBase n ∧ (w % 16 = shardSize heapBase n % 16 ∨ (16 ∣ w ∧ w + 56 ≤ shardSize heapBase n))) ?_ ?_ reach
  · intro s shard
    exact ⟨rfl, (none s shard).1, Nat.le_refl _, Or.inl rfl⟩
  · rintro s x w size align shard ⟨place, enough, within, shape⟩ positive least power room
    have whole := sixteen_dvd_required x size align
    have ample : required x 1 16 ≤ required x size align := required_least positive least power
    have start : required (shardStart heapBase n s) 1 16 = required x 1 16 := by
      rw [required_one, required_one, place]
    have moved : required (x + required x size align) 1 16 = required x 1 16 := by
      rw [required_one, required_one, show (x + required x size align) % 16 = x % 16 by omega]
    have gap := (none s shard).2
    rw [start] at gap
    refine ⟨⟨place, ample, by omega, Or.inr ⟨whole, by omega⟩⟩, by omega, ?_, by omega, ?_⟩
    · rw [moved]
      by_contra small
      rcases shape with last | ⟨multiple, cut⟩
      · have tight := gap (w - required x size align) (by omega) (by omega) (by omega)
        omega
      · -- a remainder of 64 where 80 are needed: the shard then leaves splinters of another size too
        rw [required_one] at small ample gap
        split at small
        · omega
        · rename_i high
          rw [if_neg high] at gap ample
          have tight := gap (64 + (shardSize heapBase n % 16 + 8) % 16 - 8) (by omega) (by omega) (by omega)
          omega
    · omega

/-- In regions without splinters every block on a free list serves a request of one byte. -/
theorem free_blocks_serve (creator : Nat) (mapped : ∀ p, (regions p).Mapped) (sizes : ∀ p, (regions p).size = n)
    (init : run handle (allocatorInit (regions creator)) before env = some (.ok, m, env')) (none : NoSplinter n)
    (runs : Reachable (ledgerRules regions) (ledgerOrigin m) st) :
    ∀ s, s < 4 → ∀ x, OnFreeList st.mem s x → required x 1 16 ≤ blockSizeOf st.mem x := by
  intro s shard x listed
  obtain ⟨V, _, inv, reach, _⟩ := ledger_runs creator mapped sizes init runs
  obtain ⟨b, mb, rfl, _⟩ := inv.on_free_list shard listed
  have size : blockSizeOf st.mem b.start = b.size := ((inv.shards s shard).repr b mb).size
  rw [size]
  exact (view_sizes none reach s shard b mb).2.1

/-- A region of 4016 bytes: shards of 320 bytes leave no splinters. One process has cut an
    allocation off its block, another one is about to. -/
theorem free_blocks_serve_even :
    ∃ region m st, region.size = 4016 ∧
      run (fun (_ : Sys) (s : Unit) => (0, s)) (allocatorInit region) (fun _ => 0) () = some (.ok, m, ()) ∧
      Reachable (ledgerRules fun _ => region) (ledgerOrigin m) st ∧ st.client = ({(2816, 100)}, 0) ∧ st.active 1 ≠ none ∧
      ∀ s, s < 4 → ∀ x, OnFreeList st.mem s x → required x 1 16 ≤ blockSizeOf st.mem x := by
  let region : ShmRegion := { smallRegion with size := 4016 }
  have map : region.Mapped := ⟨by decide, by decide⟩
  have served : (run (fun (_ : Sys) (s : Unit) => (0, s)) (allocatorInit region) (fun _ => 0) ()).bind (fun made =>
      (exec (allocatorAlloc 8 region 100 64) made.2.1).map fun one => (made.1, one.1)) =
      some (.ok, .ok (add64 region.base 2816)) := by decide +kernel
  obtain ⟨⟨status, m, ⟨⟩⟩, init, served⟩ := Option.bind_eq_some_iff.mp served
  obtain ⟨⟨one, m₁⟩, run₁, same⟩ := Option.map_eq_some_iff.mp served
  obtain ⟨rfl, rfl⟩ := Prod.mk.inj same
  have clear : NoSplinter 4016 := by
    have quarter : shardSize heapBase 4016 = 320 := rfl
    intro s shard
    have start : shardStart heapBase 4016 s % 16 = 0 := by
      unfold shardStart heapBase shardSize
      omega
    rw [required_one, start, quarter]
    exact ⟨by decide, fun w low high mod => by simp only [Nat.zero_le, if_true] at high; omega⟩
  have may : ∀ live, LedgerStart live (.alloc 8 100 64) live := fun _ => .alloc 8 (by decide) (by decide)
  have origin : Reachable (ledgerRules fun _ => region) (ledgerOrigin m) ⟨m, (∅, 0), fun _ => none⟩ := .refl
  have first := ledger_call origin (p := 0) rfl (may ∅) (exec_bind_of_some run₁ _) (.allocated 8 100 64 _)
  rw [show region.offsetOf (add64 region.base 2816) = 2816 by decide] at first
  have runs := reachable_call first (p := 1) rfl ⟨may _, rfl⟩ 0
  exact ⟨region, m, _, rfl, init, runs, by simp [HeapResult.failures], by simp,
    free_blocks_serve 0 (fun _ => map) (fun _ => rfl) init clear runs⟩

/-- In a region of 3216 bytes one byte is taken from a shard of 120: the rest of 56 bytes is on the
    free list and too small for another byte. -/
theorem splinter_left :
    ∃ region m st, region.size = 3216 ∧
      run (fun (_ : Sys) (s : Unit) => (0, s)) (allocatorInit region) (fun _ => 0) () = some (.ok, m, ()) ∧
      Reachable (ledgerRules fun _ => region) (ledgerOrigin m) st ∧ (∀ p, st.active p = none) ∧
      OnFreeList st.mem 0 2800 ∧ blockSizeOf st.mem 2800 = 56 ∧ required 2800 1 16 = 64 := by
  let region : ShmRegion := { smallRegion with size := 3216 }
  have status : ((run (fun (_ : Sys) (s : Unit) => (0, s)) (allocatorInit region) (fun _ => 0) ()).map fun r =>
      (r.1, (exec (allocatorAlloc 8 region 1 16) r.2.1).map fun q =>
        (q.1.toOption, load q.2 2688 8, load q.2 2800 8))) = some (.ok, some (some 68320, 2800, 56)) := by decide +kernel
  obtain ⟨⟨result, m, env⟩, init, same⟩ := Option.map_eq_some_iff.mp status
  obtain ⟨ok, taken⟩ := Prod.mk.inj same
  dsimp only at ok taken
  subst ok
  obtain ⟨⟨result, m'⟩, value, words⟩ := Option.map_eq_some_iff.mp taken
  obtain ⟨given, words⟩ := Prod.mk.inj words
  obtain ⟨head, size⟩ := Prod.mk.inj words
  dsimp only at given head size
  cases result with
  | error status => exact absurd given (by simp [Except.toOption])
  | ok ptr =>
    have origin : Reachable (ledgerRules fun _ => region) (ledgerOrigin m) ⟨m, (∅, 0), fun _ => none⟩ := .refl
    have runs := ledger_call origin (p := 0) rfl (.alloc 8 (by decide) (by decide)) (exec_bind_of_some value _)
      (.allocated 8 1 16 ptr)
    refine ⟨region, m, _, rfl, init, runs, fun _ => rfl, ?_, size, by decide⟩
    have listed : load m' (headCell 0) 8 = 2800 := head
    have node := OnFreeList.head (m := m') (s := 0) (by rw [listed]; decide)
    rwa [listed] at node

end Places

end OffsetStore
