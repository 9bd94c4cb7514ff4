import OffsetStore.Objects
import OffsetStore.ValidatedHeap

/- allocator_get_allocation_span on any content of the region behind a valid header. It
   follows the size fields of the blocks as they are; allocator_get_stats walks the same
   blocks and checks each of them first. -/
namespace OffsetStore
open ByteMemory Program Prog Words

/-- How far from the start of the heap the size fields of k blocks lead. -/
def walkPosition (m : Mem) (base : Nat) : Nat → Nat
  | 0 => 0
  | k + 1 => add64 (walkPosition m base k) (blockSizeOf m (base + walkPosition m base k))

/-- The region has room for a block header at position t of the heap. -/
def HeaderFits (n base t : Nat) : Prop := 0 < base + t ∧ base + t + 32 ≤ n

instance (n base t : Nat) : Decidable (HeaderFits n base t) := instDecidableAnd

/-- The lookup of ptr goes on behind position t. -/
def SpanPasses (region : ShmRegion) (n base : Nat) (m : Mem) (ptr t : Nat) : Prop :=
  t < n - base ∧ HeaderFits n base t ∧ ¬AddressMatch region m ptr (base + t)

instance (region : ShmRegion) (n base : Nat) (m : Mem) (ptr t : Nat) : Decidable (SpanPasses region n base m ptr t) :=
  instDecidableAnd

/-- The lookup of ptr ends at position t because the block there is in use and its payload starts at ptr. -/
def SpanNames (region : ShmRegion) (n base : Nat) (m : Mem) (ptr t : Nat) : Prop :=
  t < n - base ∧ HeaderFits n base t ∧ AddressMatch region m ptr (base + t)

/-- What the lookup answers at the position where it ends. -/
def spanAnswer (n base : Nat) (m : Mem) (t : Nat) : Except OffsetStoreStatus Nat :=
  if t < n - base then
    if HeaderFits n base t then .ok (sub64 (blockSizeOf m (base + t)) (load m (base + t + 24) 4))
    else .error .invalidState
  else .error .notFound

section Walk
variable {region : ShmRegion} {n base : Nat} {m : Mem} {ptr k : Nat}

theorem burst_span_turn (map : region.Mapped) (total : region.size = n) (header : HeaderRepr n base m)
    (ptr fuel t : Nat) :
    burst m (spanWalk region (headerAddress region) ptr (fuel + 1) t) =
      if SpanPasses region n base m ptr t then
        burst m (spanWalk region (headerAddress region) ptr fuel (add64 t (blockSizeOf m (base + t))))
      else ([], ret (spanAnswer n base m t)) := by
  rw [burst_span_at map total header]
  unfold spanAnswer
  by_cases inside : t < n - base
  swap
  · have stops : ¬SpanPasses region n base m ptr t := fun passes => inside passes.1
    rw [if_neg inside, if_neg stops, if_neg inside]
  rw [if_pos inside, if_pos inside]
  by_cases fits : HeaderFits n base t
  swap
  · have stops : ¬SpanPasses region n base m ptr t := fun passes => fits passes.2.1
    rw [if_neg (show ¬(0 < base + t ∧ base + t + 32 ≤ n) from fits), if_neg stops, if_neg fits]
  rw [if_pos (show 0 < base + t ∧ base + t + 32 ≤ n from fits), if_pos fits]
  by_cases named : AddressMatch region m ptr (base + t)
  · have stops : ¬SpanPasses region n base m ptr t := fun passes => passes.2.2 named
    rw [if_pos named, if_neg stops]
  · rw [if_neg named, if_pos ⟨inside, fits, named⟩]

/-- The lookup goes on to the first position that it does not pass, as far as its fuel lasts. -/
theorem burst_span_along (map : region.Mapped) (total : region.size = n) (header : HeaderRepr n base m)
    (passes : ∀ i, i < k → SpanPasses region n base m ptr (walkPosition m base i)) (fuel : Nat) :
    burst m (spanWalk region (headerAddress region) ptr (k + fuel) 0) =
      burst m (spanWalk region (headerAddress region) ptr fuel (walkPosition m base k)) := by
  induction k generalizing fuel with
  | zero => rw [Nat.zero_add]; rfl
  | succ k ih =>
    have before := ih (fun i less => passes i (by omega)) (fuel + 1)
    rw [Nat.add_right_comm, Nat.add_assoc, before, burst_span_turn map total header, if_pos (passes k (by omega))]
    rfl

/-- A lookup that answers has come to a position that it does not pass, and answers what this position says. -/
theorem span_stops (map : region.Mapped) (total : region.size = n) (header : HeaderRepr n base m) {j fuel : Nat}
    {answer : Except OffsetStoreStatus Nat}
    (value : burst m (spanWalk region (headerAddress region) ptr fuel (walkPosition m base j)) = ([], ret answer)) :
    ∃ k, j ≤ k ∧ (∀ i, j ≤ i → i < k → SpanPasses region n base m ptr (walkPosition m base i)) ∧
      ¬SpanPasses region n base m ptr (walkPosition m base k) ∧ answer = spanAnswer n base m (walkPosition m base k) := by
  induction fuel generalizing j with
  | zero => simp [spanWalk] at value
  | succ fuel ih =>
    rw [burst_span_turn map total header] at value
    by_cases passes : SpanPasses region n base m ptr (walkPosition m base j)
    · rw [if_pos passes] at value
      obtain ⟨k, later, before, stop, same⟩ := ih (j := j + 1) value
      refine ⟨k, by omega, fun i low less => ?_, stop, same⟩
      by_cases first : i = j
      · rw [first]
        exact passes
      · exact before i (by omega) less
    · rw [if_neg passes] at value
      have same : answer = spanAnswer n base m (walkPosition m base j) := by simpa using value.symm
      exact ⟨j, Nat.le_refl j, fun i low less => by omega, passes, same⟩

theorem burst_span_call (map : region.Mapped) (total : region.size = n) (large : 2728 ≤ n)
    (header : HeaderRepr n base m) (named : ptr ≠ 0) (fuel : Nat) :
    burst m (allocatorGetAllocationSpan fuel region ptr) =
      burst m (spanWalk region (headerAddress region) ptr fuel (walkPosition m base 0)) := by
  unfold allocatorGetAllocationSpan
  rw [if_neg named]
  simp only [allocatorHeader_eq map (total ▸ large)]
  rw [burst_bind_of_ret (burst_header_valid map total header)]
  rfl

theorem burst_span_stop (map : region.Mapped) (total : region.size = n) (large : 2728 ≤ n)
    (header : HeaderRepr n base m) (named : ptr ≠ 0)
    (passes : ∀ i, i < k → SpanPasses region n base m ptr (walkPosition m base i))
    (stop : ¬SpanPasses region n base m ptr (walkPosition m base k)) {fuel : Nat} (enough : k + 1 ≤ fuel) :
    burst m (allocatorGetAllocationSpan fuel region ptr) =
      ([], ret (spanAnswer n base m (walkPosition m base k))) := by
  obtain ⟨rest, rfl⟩ := Nat.exists_eq_add_of_le enough
  rw [burst_span_call map total large header named, Nat.add_assoc, Nat.add_comm 1 rest]
  have along := burst_span_along map total header passes (rest + 1)
  rw [burst_span_turn map total header, if_neg stop] at along
  exact along

/-- A lookup that passes every position never answers. -/
theorem span_never (map : region.Mapped) (total : region.size = n) (large : 2728 ≤ n) (header : HeaderRepr n base m)
    (named : ptr ≠ 0) (passes : ∀ i, SpanPasses region n base m ptr (walkPosition m base i)) (fuel : Nat)
    (answer : Except OffsetStoreStatus Nat) :
    burst m (allocatorGetAllocationSpan fuel region ptr) ≠ ([], ret answer) := by
  intro value
  rw [burst_span_call map total large header named] at value
  obtain ⟨k, _, _, stop, _⟩ := span_stops map total header value
  exact stop (passes k)

/-- allocator_get_stats comes to every position before which it has nothing to complain about. -/
theorem burst_stats_along (map : region.Mapped) (total : region.size = n) (header : HeaderRepr n base m)
    (accepts : ∀ i, i < k → walkPosition m base i < n - base ∧ ¬StatsRejects n base m (walkPosition m base i))
    (stats : AllocatorStats) (fuel : Nat) : ∃ stats',
    burst m (statsWalk region (headerAddress region) (k + fuel) 0 stats) =
      burst m (statsWalk region (headerAddress region) fuel (walkPosition m base k) stats') := by
  have user := map.user
  have bounded := header.inside
  induction k generalizing fuel with
  | zero => exact ⟨stats, by rw [Nat.zero_add]; rfl⟩
  | succ k ih =>
    obtain ⟨stats', same⟩ := ih (fun i less => accepts i (by omega)) (fuel + 1)
    obtain ⟨inside, accepted⟩ := accepts k (by omega)
    have next : walkPosition m base (k + 1) = walkPosition m base k + blockSizeOf m (base + walkPosition m base k) := by
      have small := accepted
      unfold StatsRejects at small
      exact add64_eq (by omega)
    have step := burst_stats_at map total header fuel (walkPosition m base k) stats'
    rw [if_pos inside, if_neg accepted, ← next] at step
    rw [Nat.add_right_comm, Nat.add_assoc]
    exact ⟨_, same.trans step⟩

theorem burst_stats_call (map : region.Mapped) (total : region.size = n) (large : 2728 ≤ n)
    (header : HeaderRepr n base m) (fuel : Nat) : ∃ stats,
    burst m (allocatorGetStats fuel region) = burst m (statsWalk region (headerAddress region) fuel 0 stats) := by
  unfold allocatorGetStats
  simp only [allocatorHeader_eq map (total ▸ large)]
  rw [burst_bind_of_ret (burst_header_valid map total header)]
  simp only [Bool.not_true, Bool.false_eq_true, if_false]
  simp (disch := omega) only [headerAddress, allocatorMetadataOffset, RegionHeader.sizeof,
    AllocatorHeader.heapSize, AllocatorHeader.allocationFailures, load64_field]
  simp only [loadWord_bind, burst_read]
  exact ⟨_, rfl⟩

theorem burst_stats_stop (map : region.Mapped) (total : region.size = n) (large : 2728 ≤ n)
    (header : HeaderRepr n base m)
    (accepts : ∀ i, i < k → walkPosition m base i < n - base ∧ ¬StatsRejects n base m (walkPosition m base i))
    {fuel : Nat} (enough : k + 1 ≤ fuel) :
    (n - base ≤ walkPosition m base k → ∃ stats, burst m (allocatorGetStats fuel region) = ([], ret (.ok stats))) ∧
    (walkPosition m base k < n - base → StatsRejects n base m (walkPosition m base k) →
      burst m (allocatorGetStats fuel region) = ([], ret (.error .invalidState))) := by
  obtain ⟨rest, rfl⟩ := Nat.exists_eq_add_of_le enough
  obtain ⟨stats, whole⟩ := burst_stats_call map total large header (k + 1 + rest)
  obtain ⟨stats', along⟩ := burst_stats_along map total header accepts stats (rest + 1)
  rw [Nat.add_assoc, Nat.add_comm 1 rest] at whole ⊢
  rw [burst_stats_at map total header] at along
  constructor
  · intro finish
    rw [if_neg (by omega)] at along
    exact ⟨stats', whole.trans along⟩
  · intro inside rejected
    rw [if_pos inside, if_pos rejected] at along
    exact whole.trans along

end Walk

section Accessors
variable {region : ShmRegion} {m : Mem} {object fuel : Nat}

theorem burst_payload_ends (map : region.Mapped)
    (span : ∃ r, burst m (allocatorGetAllocationSpan fuel region (add64 region.base object)) = ([], ret r)) :
    ∃ r, burst m (objectStoreGetPayloadConst fuel region object) = ([], ret r) := by
  unfold objectStoreGetPayloadConst objectStoreGetHeader ShmRegion.load32
  obtain ⟨r, first, rfl | rfl⟩ := burst_resolve_ends map span 0
  · rw [burst_bind_of_ret first]
    exact ⟨none, rfl⟩
  rw [burst_bind_of_ret first]
  simp only [loadWord_bind, burst_read]
  obtain ⟨r, second, rfl | rfl⟩ := burst_resolve_ends map span
    (load m (region.offsetOf (add64 (add64 region.base object) ObjectHeader.size)) 4)
  · rw [burst_bind_of_ret second]
    exact ⟨none, rfl⟩
  · rw [burst_bind_of_ret second]
    exact ⟨_, rfl⟩

theorem burst_validate_ends_object (map : region.Mapped)
    (span : ∃ r, burst m (allocatorGetAllocationSpan fuel region (add64 region.base object)) = ([], ret r)) :
    ∃ status, burst m (objectStoreValidate fuel region object) = ([], ret status) := by
  unfold objectStoreValidate objectStoreGetHeader ShmRegion.load32
  split
  · exact ⟨_, rfl⟩
  obtain ⟨r, first, rfl | rfl⟩ := burst_resolve_ends map span 0
  · rw [burst_bind_of_ret first]
    exact ⟨_, rfl⟩
  rw [burst_bind_of_ret first]
  simp only [loadWord_bind, burst_read]
  obtain ⟨r, second, rfl | rfl⟩ := burst_resolve_ends map span
    (load m (region.offsetOf (add64 (add64 region.base object) ObjectHeader.size)) 4)
  · rw [burst_bind_of_ret second]
    exact ⟨_, rfl⟩
  · rw [burst_bind_of_ret second]
    exact ⟨_, rfl⟩

end Accessors

section Verdict
variable {S : Type} (handle : Sys → S → Int × S) (region : ShmRegion) (n base : Nat) (m : Mem) (s : S)

/-- allocator_get_stats answers that the heap is malformed. -/
def StatsMalformed : Prop :=
  Completes handle (fun fuel => allocatorGetStats fuel region) m s fun result => result = .error .invalidState

/-- An answer is sound. A span is that of a block that the lookup comes to, at most as long as the heap from there on,
    and allocator_get_stats takes this block and all before it for blocks. Another answer for a pointer says that the
    heap is malformed exactly when allocator_get_stats does. -/
structure SoundSpan (ptr : Nat) (answer : Except OffsetStoreStatus Nat) : Prop where
  bounded : ∀ span, answer = .ok span → ∃ k,
    (∀ i, i < k → SpanPasses region n base m ptr (walkPosition m base i)) ∧
    SpanNames region n base m ptr (walkPosition m base k) ∧ span ≤ n - base - walkPosition m base k ∧
    ∀ i, i ≤ k → ¬StatsRejects n base m (walkPosition m base i)
  agrees : ptr ≠ 0 → (∀ span, answer ≠ .ok span) → (answer = .error .invalidState ↔ StatsMalformed handle region m s)

structure AccessorsEnd (object : Nat) : Prop where
  header : Completes handle (fun fuel => objectStoreGetHeader fuel region object) m s fun _ => True
  headerMut : Completes handle (fun fuel => objectStoreGetHeaderMut fuel region object) m s fun _ => True
  payloadConst : Completes handle (fun fuel => objectStoreGetPayloadConst fuel region object) m s fun _ => True
  payload : Completes handle (fun fuel => objectStoreGetPayload fuel region object) m s fun _ => True
  validate : Completes handle (fun fuel => objectStoreValidate fuel region object) m s fun _ => True

/-- The lookup of ptr ends with a sound answer, and so do the accessors of an object at this address. -/
structure SpanLookup (ptr : Nat) : Prop where
  answers : Completes handle (fun fuel => allocatorGetAllocationSpan fuel region ptr) m s
    (SoundSpan handle region n base m s ptr)
  accessors : ∀ object, add64 region.base object = ptr → AccessorsEnd handle region m s object

/-- Along the size fields from the start of the heap, either a position comes where no header fits before any block
    in use names ptr, or every block has a size between one and the rest of the heap, up to the block that names ptr or
    else to the end of the heap, and the named payload starts inside its block. -/
def ClearPath (ptr : Nat) : Prop :=
  ∃ k, (∀ i, i < k → SpanPasses region n base m ptr (walkPosition m base i)) ∧
    ((walkPosition m base k < n - base ∧ ¬HeaderFits n base (walkPosition m base k)) ∨
      ((∀ i, i < k → ¬StatsRejects n base m (walkPosition m base i)) ∧
        (n - base ≤ walkPosition m base k ∨
          (SpanNames region n base m ptr (walkPosition m base k) ∧ ¬StatsRejects n base m (walkPosition m base k) ∧
            load m (base + walkPosition m base k + 24) 4 ≤ blockSizeOf m (base + walkPosition m base k)))))

end Verdict

section Lookups
variable {S : Type} {handle : Sys → S → Int × S} {region : ShmRegion} {n base : Nat} {m : Mem} {s : S} {ptr k : Nat}

theorem stats_malformed (map : region.Mapped) (total : region.size = n) (large : 2728 ≤ n)
    (header : HeaderRepr n base m) (inside : ∀ i, i ≤ k → walkPosition m base i < n - base)
    (rejected : StatsRejects n base m (walkPosition m base k)) : StatsMalformed handle region m s := by
  have some : ∃ i, StatsRejects n base m (walkPosition m base i) := ⟨k, rejected⟩
  have first : Nat.find some ≤ k := Nat.find_le rejected
  have accepts : ∀ i, i < Nat.find some → walkPosition m base i < n - base ∧ ¬StatsRejects n base m (walkPosition m base i) :=
    fun i less => ⟨inside i (by omega), Nat.find_min some less⟩
  exact completes_of_burst fun fuel (enough : Nat.find some + 1 ≤ fuel) =>
    ⟨_, (burst_stats_stop map total large header accepts enough).2 (inside _ first) (Nat.find_spec some), rfl⟩

theorem stats_content (map : region.Mapped) (total : region.size = n) (large : 2728 ≤ n)
    (header : HeaderRepr n base m)
    (accepts : ∀ i, i < k → walkPosition m base i < n - base ∧ ¬StatsRejects n base m (walkPosition m base i))
    (finish : n - base ≤ walkPosition m base k) : ¬StatsMalformed handle region m s := by
  rintro ⟨enough, completes⟩
  obtain ⟨result, m', s', ran, malformed⟩ := completes (enough + (k + 1)) (Nat.le_add_right _ _)
  have value := (loads_stats _).ret_of_run ran
  obtain ⟨stats, accepted⟩ := (burst_stats_stop map total large header accepts (Nat.le_add_left _ _)).1 finish
  rw [malformed, accepted] at value
  simp at value

theorem passes_unnamed {j : Nat} (passes : ∀ i, i < k → SpanPasses region n base m ptr (walkPosition m base i))
    (named : SpanNames region n base m ptr (walkPosition m base j)) : k ≤ j := by
  by_contra less
  exact (passes j (by omega)).2.2 named.2.2

theorem SpanLookup.clear (lookup : SpanLookup handle region n base m s ptr) (map : region.Mapped) (total : region.size = n)
    (large : 2728 ≤ n) (header : HeaderRepr n base m) (named : ptr ≠ 0) : ClearPath region n base m ptr := by
  have user := map.user
  obtain ⟨enough, completes⟩ := lookup.answers
  obtain ⟨answer, m', s', ran, sound⟩ := completes enough (Nat.le_refl _)
  have value := (loads_span enough ptr).ret_of_run ran
  rw [burst_span_call map total large header named] at value
  obtain ⟨k, _, passes, stop, same⟩ := span_stops map total header value
  have before : ∀ i, i < k → SpanPasses region n base m ptr (walkPosition m base i) := fun i => passes i (Nat.zero_le i)
  unfold spanAnswer at same
  refine ⟨k, before, ?_⟩
  by_cases inside : walkPosition m base k < n - base
  · by_cases fits : HeaderFits n base (walkPosition m base k)
    · have here : SpanNames region n base m ptr (walkPosition m base k) :=
        ⟨inside, fits, not_not.mp fun other => stop ⟨inside, fits, other⟩⟩
      rw [if_pos inside, if_pos fits] at same
      obtain ⟨j, earlier, there, bound, accepted⟩ := sound.bounded _ same
      have eq : j = k := Nat.le_antisymm (passes_unnamed earlier here) (passes_unnamed before there)
      subst eq
      refine Or.inr ⟨fun i less => accepted i (Nat.le_of_lt less), Or.inr ⟨here, accepted j (Nat.le_refl j), ?_⟩⟩
      have narrow := load_four_lt m (base + walkPosition m base j + 24)
      unfold sub64 at bound
      omega
    · exact Or.inl ⟨inside, fits⟩
  · rw [if_neg inside] at same
    refine Or.inr ⟨fun i less rejected => ?_, Or.inl (by omega)⟩
    have malformed : StatsMalformed handle region m s := stats_malformed map total large header
      (fun j le => (before j (by omega)).1) rejected
    have told := (sound.agrees named (by simp [same])).mpr malformed
    simp [same] at told

theorem ClearPath.answers (clear : ClearPath region n base m ptr) (map : region.Mapped) (total : region.size = n)
    (large : 2728 ≤ n) (header : HeaderRepr n base m) (named : ptr ≠ 0) : ∃ enough, ∀ fuel, enough ≤ fuel →
      ∃ answer, burst m (allocatorGetAllocationSpan fuel region ptr) = ([], ret answer) ∧
        SoundSpan handle region n base m s ptr answer := by
  obtain ⟨k, passes, clear⟩ := clear
  have stop : ¬SpanPasses region n base m ptr (walkPosition m base k) := by
    rintro ⟨inside, fits, other⟩
    rcases clear with ⟨_, none⟩ | ⟨_, finish | ⟨here, _⟩⟩
    · exact none fits
    · omega
    · exact other here.2.2
  refine ⟨k + 1, fun fuel enough => ⟨_, burst_span_stop map total large header named passes stop enough, ?_⟩⟩
  unfold spanAnswer
  rcases clear with ⟨inside, none⟩ | ⟨accepted, finish | ⟨here, whole, start⟩⟩
  · rw [if_pos inside, if_neg none]
    refine ⟨fun span same => by simp at same, fun _ _ => iff_of_true rfl ?_⟩
    refine stats_malformed (k := k) map total large header (fun i le => ?_) (Or.inl none)
    by_cases last : i = k
    · rw [last]
      exact inside
    · exact (passes i (by omega)).1
  · rw [if_neg (by omega)]
    refine ⟨fun span same => by simp at same, fun _ _ => iff_of_false (by simp) ?_⟩
    exact stats_content map total large header (fun i less => ⟨(passes i less).1, accepted i less⟩) finish
  · rw [if_pos here.1, if_pos here.2.1]
    refine ⟨fun span same => ⟨k, passes, here, ?_, fun i le => ?_⟩, fun _ failed => absurd rfl (failed _)⟩
    · have same := Except.ok.inj same
      have word := load_eight_lt m (base + walkPosition m base k)
      rw [sub64_eq start word] at same
      unfold StatsRejects at whole
      omega
    · by_cases last : i = k
      · rw [last]
        exact whole
      · exact accepted i (by omega)

/-- The lookup of a pointer ends with a sound answer exactly when its path along the size fields is clear. -/
theorem span_lookup_iff (map : region.Mapped) (total : region.size = n) (large : 2728 ≤ n) (header : HeaderRepr n base m) :
    SpanLookup handle region n base m s ptr ↔ ptr = 0 ∨ ClearPath region n base m ptr := by
  constructor
  · intro lookup
    by_cases null : ptr = 0
    · exact Or.inl null
    · exact Or.inr (lookup.clear map total large header null)
  · intro clear
    obtain ⟨enough, answers⟩ : ∃ enough, ∀ fuel, enough ≤ fuel →
        ∃ answer, burst m (allocatorGetAllocationSpan fuel region ptr) = ([], ret answer) ∧
          SoundSpan handle region n base m s ptr answer := by
      by_cases null : ptr = 0
      · refine ⟨0, fun fuel _ => ⟨.error .invalidArgument, ?_, ?_⟩⟩
        · unfold allocatorGetAllocationSpan
          rw [if_pos null]
          rfl
        · exact ⟨fun span same => by simp at same, fun named => absurd null named⟩
      · exact (clear.resolve_left null).answers map total large header null
    refine ⟨completes_of_burst answers, fun object address => ?_⟩
    have spans : ∀ fuel, enough ≤ fuel →
        ∃ r, burst m (allocatorGetAllocationSpan fuel region (add64 region.base object)) = ([], ret r) := by
      intro fuel large
      obtain ⟨answer, value, _⟩ := answers fuel large
      exact ⟨answer, address ▸ value⟩
    have resolves : Completes handle (fun fuel => objectStoreResolveHeader fuel region object 0) m s fun _ => True := by
      apply completes_of_burst
      intro fuel large
      obtain ⟨r, value, _⟩ := burst_resolve_ends map (spans fuel large) 0
      exact ⟨r, value, trivial⟩
    have payload : Completes handle (fun fuel => objectStoreGetPayloadConst fuel region object) m s fun _ => True := by
      apply completes_of_burst
      intro fuel large
      obtain ⟨r, value⟩ := burst_payload_ends map (spans fuel large)
      exact ⟨r, value, trivial⟩
    refine ⟨resolves, resolves, payload, payload, ?_⟩
    apply completes_of_burst
    intro fuel large
    obtain ⟨status, value⟩ := burst_validate_ends_object map (spans fuel large)
    exact ⟨status, value, trivial⟩

/-- The lookup of the first payload address in a fresh heap passes its four free blocks. -/
theorem span_lookup_small : SpanLookup (fun (_ : Sys) (s : Unit) => (0, s)) smallRegion 4096 heapBase initialised ()
    (65536 + 2776) := by
  have room : 2728 ≤ 4096 := by decide
  refine (span_lookup_iff smallRegion_mapped rfl room initialised_inv.header).mpr (Or.inr ⟨4, ?_, Or.inr ⟨?_, Or.inl ?_⟩⟩)
  · decide +kernel
  · decide +kernel
  · decide +kernel

/-- The fresh heap with the size of its first block overwritten by zero. -/
def zeroSized : Mem := store initialised 2736 8 0

theorem zeroSized_header : HeaderRepr 4096 heapBase zeroSized := initialised_inv.header.congr (SameOn.store (by omega))

/-- There no lookup ends, while allocator_get_stats finds the heap malformed. -/
theorem span_endless : (∀ fuel, run (fun (_ : Sys) (s : Unit) => (0, s))
      (allocatorGetAllocationSpan fuel smallRegion (65536 + 2776)) zeroSized () = none) ∧
    StatsMalformed (fun (_ : Sys) (s : Unit) => (0, s)) smallRegion zeroSized () ∧
    ¬SpanLookup (fun (_ : Sys) (s : Unit) => (0, s)) smallRegion 4096 heapBase zeroSized () (65536 + 2776) := by
  have room : 2728 ≤ 4096 := by decide
  have empty : blockSizeOf zeroSized 2736 = 0 := load_store_same (by decide)
  have stays : ∀ i, walkPosition zeroSized heapBase i = 0 := by
    intro i
    induction i with
    | zero => rfl
    | succ i ih =>
      rw [walkPosition, ih]
      unfold heapBase
      rw [Nat.add_zero, empty]
      rfl
  have free : load zeroSized 2752 4 = 1 := by
    have shard := initialised_inv.shards 0 (by decide)
    have use := (shard.repr ⟨shardStart heapBase 4096 0, shardSize heapBase 4096, .free⟩ (List.mem_singleton.mpr rfl)).use
    unfold zeroSized
    rw [load_store_apart (by omega)]
    exact use.1
  have passes : ∀ i, SpanPasses smallRegion 4096 heapBase zeroSized (65536 + 2776) (walkPosition zeroSized heapBase i) := by
    intro i
    rw [stays i]
    refine ⟨by decide, by decide, fun named => ?_⟩
    have used : load zeroSized 2752 4 &&& blockFree = 0 := named.1
    rw [free] at used
    exact absurd used (by decide)
  have never : ∀ fuel, run (fun (_ : Sys) (s : Unit) => (0, s))
      (allocatorGetAllocationSpan fuel smallRegion (65536 + 2776)) zeroSized () = none := by
    intro fuel
    rw [Option.eq_none_iff_forall_ne_some]
    rintro ⟨answer, m', s'⟩ ran
    exact span_never smallRegion_mapped rfl room zeroSized_header (by decide) passes fuel answer
      ((loads_span _ _).ret_of_run ran)
  refine ⟨never, ?_, ?_⟩
  · refine stats_malformed (k := 0) smallRegion_mapped rfl room zeroSized_header (fun i _ => (passes i).1) ?_
    rw [stays 0]
    exact Or.inr (Or.inl empty)
  · intro lookup
    obtain ⟨enough, completes⟩ := lookup.answers
    obtain ⟨answer, m', s', ran, _⟩ := completes enough (Nat.le_refl _)
    rw [never enough] at ran
    simp at ran

end Lookups

end OffsetStore
