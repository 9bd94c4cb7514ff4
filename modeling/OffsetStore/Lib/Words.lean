import Mathlib

/- Unsigned 64-bit arithmetic on Nat: every operation reduces modulo 2^64, and
   agrees with unbounded arithmetic where the exact result fits. -/
namespace Words

def add64 (a b : Nat) : Nat := (a + b) % 2 ^ 64
def sub64 (a b : Nat) : Nat := (a + (2 ^ 64 - b % 2 ^ 64)) % 2 ^ 64
def mul64 (a b : Nat) : Nat := a * b % 2 ^ 64
def not64 (a : Nat) : Nat := 2 ^ 64 - 1 - a
def sizeMax : Nat := 2 ^ 64 - 1

def roundUp (v a : Nat) : Nat := (v + (a - 1)) / a * a

theorem add64_eq {a b : Nat} (fits : a + b < 2 ^ 64) : add64 a b = a + b :=
  Nat.mod_eq_of_lt fits

theorem sub64_eq {a b : Nat} (le : b ≤ a) (fits : a < 2 ^ 64) : sub64 a b = a - b := by
  unfold sub64
  omega

theorem mul64_eq {a b : Nat} (fits : a * b < 2 ^ 64) : mul64 a b = a * b :=
  Nat.mod_eq_of_lt fits

theorem add64_lt (a b : Nat) : add64 a b < 2 ^ 64 := Nat.mod_lt _ (by omega)
theorem sub64_lt (a b : Nat) : sub64 a b < 2 ^ 64 := Nat.mod_lt _ (by omega)

theorem sub64_add64 {a b : Nat} (fits : b < 2 ^ 64) : sub64 (add64 a b) a = b := by
  unfold sub64 add64
  omega

theorem sub64_add64_add64 {a b c : Nat} (fits : b + c < 2 ^ 64) :
    sub64 (add64 (add64 a b) c) a = b + c := by
  unfold sub64 add64
  omega

theorem add64_add64 (a b c : Nat) : add64 (add64 a b) c = add64 a (b + c) := by
  unfold add64
  omega

theorem add64_left_cancel {a b c : Nat} (hb : b < 2 ^ 64) (hc : c < 2 ^ 64) :
    add64 a b = add64 a c ↔ b = c := by
  unfold add64
  omega

theorem roundUp_le {v a : Nat} (positive : 0 < a) : v ≤ roundUp v a := by
  have split := Nat.div_add_mod (v + (a - 1)) a
  have low := Nat.mod_lt (v + (a - 1)) positive
  rw [Nat.mul_comm] at split
  unfold roundUp
  omega

theorem roundUp_lt {v a : Nat} (positive : 0 < a) : roundUp v a < v + a := by
  have le := Nat.div_mul_le_self (v + (a - 1)) a
  unfold roundUp
  omega

theorem dvd_roundUp (v a : Nat) : a ∣ roundUp v a := ⟨_, Nat.mul_comm _ _⟩

theorem roundUp_sixteen (v : Nat) : roundUp v 16 = (v + 15) / 16 * 16 := rfl

/-- Clearing the low k bits of a word is rounding it down to a multiple of 2^k. -/
theorem and_not64_low {x k : Nat} (word : x < 2 ^ 64) (small : k < 64) :
    x &&& not64 (2 ^ k - 1) = x / 2 ^ k * 2 ^ k := by
  have pow : 2 ^ k - 1 < 2 ^ 64 := by
    have := Nat.pow_lt_pow_right (a := 2) (by omega) small
    omega
  have complement : not64 (2 ^ k - 1) = 2 ^ 64 - ((2 ^ k - 1) + 1) := by
    unfold not64
    omega
  apply Nat.eq_of_testBit_eq
  intro i
  rw [Nat.testBit_and, complement, Nat.testBit_two_pow_sub_succ pow, Nat.testBit_two_pow_sub_one,
    Nat.testBit_mul_two_pow, Nat.testBit_div_two_pow]
  by_cases low : i < k
  · simp [low, Nat.not_le.mpr low]
  · by_cases high : i < 64
    · simp [low, high, Nat.not_lt.mp low]
    · have zero : x.testBit i = false :=
        Nat.testBit_lt_two_pow (Nat.lt_of_lt_of_le word (Nat.pow_le_pow_right (by omega) (by omega)))
      simp [low, high, Nat.not_lt.mp low, zero]

theorem two_pow_of_and_pred {a : Nat} (nonzero : a ≠ 0) (bits : a &&& (a - 1) = 0) :
    ∃ k, a = 2 ^ k := Nat.ne_zero_and_sub_one_eq_zero_iff_isPowerOfTwo.mp ⟨nonzero, bits⟩

theorem sixteen_dvd_two_pow {k : Nat} (large : 16 ≤ 2 ^ k) : 16 ∣ 2 ^ k := by
  have four : 4 ≤ k := by
    by_contra less
    have := Nat.pow_le_pow_right (n := 2) (by omega) (show k ≤ 3 by omega)
    omega
  exact Nat.pow_dvd_pow 2 four

/-- Element i of c elements of e bytes ends inside them. -/
theorem slot_le {e c i : Nat} (inside : i < c) : i * e + e ≤ c * e := by
  have step : (i + 1) * e ≤ c * e := Nat.mul_le_mul_right e inside
  rwa [Nat.add_mul, Nat.one_mul] at step

end Words
