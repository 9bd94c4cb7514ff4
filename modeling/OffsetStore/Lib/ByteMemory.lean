import Mathlib

/- Byte-addressed memory with little-endian words of any width. Addresses are
   unbounded Nat; a bounded region is a range of addresses chosen by the user. -/
namespace ByteMemory

abbrev Mem := Nat → UInt8

def load (m : Mem) : Nat → Nat → Nat
  | _, 0 => 0
  | o, n + 1 => (m o).toNat + 256 * load m (o + 1) n

def store (m : Mem) (o n v : Nat) : Mem := fun a =>
  if o ≤ a ∧ a < o + n then UInt8.ofNat (v / 256 ^ (a - o)) else m a

def loadBytes (m : Mem) : Nat → Nat → List UInt8
  | _, 0 => []
  | o, n + 1 => m o :: loadBytes m (o + 1) n

def storeBytes (m : Mem) : Nat → List UInt8 → Mem
  | _, [] => m
  | o, b :: bs => storeBytes (store m o 1 b.toNat) (o + 1) bs

/-- Two memories agree on the bytes of [lo, hi). -/
def SameOn (m m' : Mem) (lo hi : Nat) : Prop := ∀ a, lo ≤ a → a < hi → m' a = m a

theorem load_lt (m : Mem) (o n : Nat) : load m o n < 256 ^ n := by
  induction n generalizing o with
  | zero => simp [load]
  | succ n ih =>
    have low := (m o).toNat_lt
    have high := ih (o + 1)
    rw [load, Nat.pow_succ]
    omega

/-- The low bytes of a word. -/
theorem load_low (m : Mem) (o k j : Nat) : load m o k = load m o (k + j) % 256 ^ k := by
  induction k generalizing o with
  | zero => simp [load, Nat.mod_one]
  | succ k ih =>
    have first := (m o).toNat_lt
    have high : ((m o).toNat + 256 * load m (o + 1) (k + j)) / 256 = load m (o + 1) (k + j) := by omega
    have low : ((m o).toNat + 256 * load m (o + 1) (k + j)) % 256 = (m o).toNat := by omega
    rw [Nat.add_right_comm, load, load, Nat.pow_succ', Nat.mod_mul, high, low, ih (o + 1)]

theorem load_congr {m m' : Mem} {o n : Nat} (same : SameOn m m' o (o + n)) :
    load m' o n = load m o n := by
  induction n generalizing o with
  | zero => rfl
  | succ n ih =>
    rw [load, load, same o (by omega) (by omega)]
    rw [ih (fun a lo hi => same a (by omega) (by omega))]

theorem load_zero {m : Mem} {o n : Nat} (zero : ∀ a, o ≤ a → a < o + n → m a = 0) : load m o n = 0 := by
  induction n generalizing o with
  | zero => rfl
  | succ n ih =>
    rw [load, zero o (by omega) (by omega), ih fun a low high => zero a (by omega) (by omega)]
    rfl

/-- A word determines its bytes. -/
theorem sameOn_of_load {m m' : Mem} {o n : Nat} (same : load m' o n = load m o n) : SameOn m m' o (o + n) := by
  induction n generalizing o with
  | zero => exact fun a low high => by omega
  | succ n ih =>
    rw [load, load] at same
    have left := (m o).toNat_lt
    have right := (m' o).toNat_lt
    have first : m' o = m o := UInt8.toNat_inj.mp (by omega)
    intro a low high
    by_cases here : a = o
    · rw [here, first]
    · exact ih (o := o + 1) (by omega) a (by omega) (by omega)

theorem store_outside {m : Mem} {o n v a : Nat} (out : a < o ∨ o + n ≤ a) :
    store m o n v a = m a := by
  simp only [store]
  rw [if_neg (by omega)]

theorem load_of_bytes {m : Mem} {o n v : Nat}
    (bytes : ∀ i, i < n → m (o + i) = UInt8.ofNat (v / 256 ^ i)) :
    load m o n = v % 256 ^ n := by
  induction n generalizing o v with
  | zero => simp [load, Nat.mod_one]
  | succ n ih =>
    have first := bytes 0 (by omega)
    have rest : load m (o + 1) n = v / 256 % 256 ^ n := by
      apply ih
      intro i hi
      have next := bytes (i + 1) (by omega)
      rw [show o + 1 + i = o + (i + 1) by omega, next, Nat.div_div_eq_div_mul, Nat.pow_succ,
        Nat.mul_comm 256]
    simp only [Nat.add_zero, Nat.pow_zero, Nat.div_one] at first
    have low : (m o).toNat = v % 256 := by simp [first]
    rw [load, rest, low, Nat.pow_succ', Nat.mod_mul]

theorem load_store_mod (m : Mem) (o n v : Nat) :
    load (store m o n v) o n = v % 256 ^ n := by
  apply load_of_bytes
  intro i hi
  simp only [store]
  rw [if_pos (by omega), Nat.add_sub_cancel_left]

theorem load_store_same {m : Mem} {o n v : Nat} (fits : v < 256 ^ n) :
    load (store m o n v) o n = v := by
  rw [load_store_mod, Nat.mod_eq_of_lt fits]

theorem load_store_apart {m : Mem} {o n v o' n' : Nat} (apart : o' + n' ≤ o ∨ o + n ≤ o') :
    load (store m o n v) o' n' = load m o' n' := by
  apply load_congr
  intro a lo hi
  exact store_outside (by omega)

theorem load_store_eight {m : Mem} {o v : Nat} (fits : v < 2 ^ 64) :
    load (store m o 8 v) o 8 = v :=
  load_store_same (by omega)

theorem load_store_four {m : Mem} {o v : Nat} (fits : v < 2 ^ 32) :
    load (store m o 4 v) o 4 = v :=
  load_store_same (by omega)

/-- The low bytes of a stored word. -/
theorem load_store_low {m : Mem} {o v : Nat} : load (store m o 8 v) o 4 = v % 2 ^ 32 := by
  apply load_of_bytes
  intro i hi
  unfold store
  rw [if_pos (by omega), Nat.add_sub_cancel_left]

theorem load_eight_lt (m : Mem) (o : Nat) : load m o 8 < 2 ^ 64 := load_lt m o 8
theorem load_four_lt (m : Mem) (o : Nat) : load m o 4 < 2 ^ 32 := load_lt m o 4

theorem storeBytes_outside {m : Mem} {o a : Nat} {bs : List UInt8}
    (out : a < o ∨ o + bs.length ≤ a) : storeBytes m o bs a = m a := by
  induction bs generalizing m o with
  | nil => rfl
  | cons b bs ih =>
    simp only [List.length_cons] at out
    rw [storeBytes, ih (by omega), store_outside (by omega)]

theorem storeBytes_inside {m : Mem} {o i : Nat} {bs : List UInt8} (inside : i < bs.length) :
    storeBytes m o bs (o + i) = bs[i] := by
  induction bs generalizing m o i with
  | nil => simp at inside
  | cons b bs ih =>
    cases i with
    | zero =>
      rw [storeBytes, storeBytes_outside (by omega)]
      simp [store]
    | succ i =>
      simp only [List.length_cons] at inside
      rw [storeBytes, show o + (i + 1) = o + 1 + i by omega, ih (by omega)]
      rfl

theorem load_replicate_zero {m : Mem} {o k i n : Nat} (inside : i + n ≤ k) :
    load (storeBytes m o (List.replicate k 0)) (o + i) n = 0 := by
  refine load_zero fun a low high => ?_
  obtain ⟨j, rfl⟩ := Nat.exists_eq_add_of_le (show o ≤ a by omega)
  rw [storeBytes_inside (by rw [List.length_replicate]; omega), List.getElem_replicate]

theorem loadBytes_length (m : Mem) (o n : Nat) : (loadBytes m o n).length = n := by
  induction n generalizing o with
  | zero => rfl
  | succ n ih => simp [loadBytes, ih]

theorem loadBytes_congr {m m' : Mem} {o n : Nat} (same : SameOn m m' o (o + n)) :
    loadBytes m' o n = loadBytes m o n := by
  induction n generalizing o with
  | zero => rfl
  | succ n ih =>
    rw [loadBytes, loadBytes, same o (by omega) (by omega)]
    rw [ih (fun a lo hi => same a (by omega) (by omega))]

theorem loadBytes_getElem {m : Mem} {o n i : Nat} (inside : i < (loadBytes m o n).length) :
    (loadBytes m o n)[i] = m (o + i) := by
  induction n generalizing o i with
  | zero => simp [loadBytes] at inside
  | succ n ih =>
    cases i with
    | zero => rfl
    | succ i =>
      have step := @ih (o + 1) i (by simpa [loadBytes] using inside)
      simp only [loadBytes, List.getElem_cons_succ, step]
      congr 1
      omega

theorem loadBytes_ext {m m' : Mem} {o o' n : Nat} (same : ∀ i, i < n → m (o + i) = m' (o' + i)) :
    loadBytes m o n = loadBytes m' o' n := by
  refine List.ext_getElem (by rw [loadBytes_length, loadBytes_length]) fun i left right => ?_
  rw [loadBytes_getElem, loadBytes_getElem]
  exact same i (by rwa [loadBytes_length] at left)

theorem loadBytes_take {m : Mem} {o n k : Nat} (le : k ≤ n) : (loadBytes m o n).take k = loadBytes m o k := by
  refine List.ext_getElem ?_ fun i left right => ?_
  · rw [List.length_take, loadBytes_length, loadBytes_length, Nat.min_eq_left le]
  · rw [List.getElem_take, loadBytes_getElem, loadBytes_getElem]

/-- A part of a copy is a copy of the part. -/
theorem loadBytes_copy {m m' : Mem} {o o' n i k : Nat} (inside : i + k ≤ n) :
    loadBytes (storeBytes m o (loadBytes m' o' n)) (o + i) k = loadBytes m' (o' + i) k := by
  refine loadBytes_ext fun j small => ?_
  have within : i + j < (loadBytes m' o' n).length := by
    rw [loadBytes_length]
    omega
  rw [Nat.add_assoc, storeBytes_inside within, loadBytes_getElem, Nat.add_assoc]

theorem loadBytes_storeBytes (m : Mem) (o : Nat) (bs : List UInt8) :
    loadBytes (storeBytes m o bs) o bs.length = bs := by
  induction bs generalizing m o with
  | nil => rfl
  | cons b bs ih =>
    have first : storeBytes m o (b :: bs) o = b :=
      storeBytes_inside (i := 0) (by simp)
    rw [List.length_cons, loadBytes, first, storeBytes, ih]

theorem SameOn.refl (m : Mem) (lo hi : Nat) : SameOn m m lo hi := fun _ _ _ => rfl

theorem SameOn.trans {m m' m'' : Mem} {lo hi : Nat} (first : SameOn m m' lo hi)
    (second : SameOn m' m'' lo hi) : SameOn m m'' lo hi :=
  fun a l h => (second a l h).trans (first a l h)

theorem SameOn.narrow {m m' : Mem} {lo hi lo' hi' : Nat} (same : SameOn m m' lo hi)
    (left : lo ≤ lo') (right : hi' ≤ hi) : SameOn m m' lo' hi' :=
  fun a l h => same a (by omega) (by omega)

theorem SameOn.store {m : Mem} {o n v lo hi : Nat} (apart : hi ≤ o ∨ o + n ≤ lo) :
    SameOn m (store m o n v) lo hi := fun _ _ _ => store_outside (by omega)

theorem SameOn.storeBytes {m : Mem} {o lo hi : Nat} {bs : List UInt8}
    (apart : hi ≤ o ∨ o + bs.length ≤ lo) : SameOn m (storeBytes m o bs) lo hi :=
  fun _ _ _ => storeBytes_outside (by omega)

/-- Memory changed inside [lo, hi) only. -/
def SameOff (m m' : Mem) (lo hi : Nat) : Prop := ∀ a, a < lo ∨ hi ≤ a → m' a = m a

theorem SameOff.on {m m' : Mem} {lo hi l h : Nat} (same : SameOff m m' lo hi)
    (apart : h ≤ lo ∨ hi ≤ l) : SameOn m m' l h := fun a _ _ => same a (by omega)

theorem SameOff.load {m m' : Mem} {lo hi o k : Nat} (same : SameOff m m' lo hi)
    (apart : o + k ≤ lo ∨ hi ≤ o) : load m' o k = load m o k :=
  load_congr (same.on apart)

theorem SameOff.trans {m m' m'' : Mem} {lo hi : Nat} (first : SameOff m m' lo hi)
    (second : SameOff m' m'' lo hi) : SameOff m m'' lo hi :=
  fun a out => (second a out).trans (first a out)

theorem SameOff.store {m : Mem} {o k v lo hi : Nat} (left : lo ≤ o) (right : o + k ≤ hi) :
    SameOff m (ByteMemory.store m o k v) lo hi := fun _ _ => store_outside (by omega)

end ByteMemory
