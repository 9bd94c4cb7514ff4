import OffsetStore.Platform

/- offset_ptr.c: conversion between addresses and offsets. All comparisons are
   made in 64-bit arithmetic, as in the source. -/
namespace OffsetStore
open Words

def offsetPtrNull : Nat := 0
def offsetPtrIsNull (ptr : Nat) : Bool := decide (ptr = 0)

def offsetPtrIsInBounds (regionSize : Nat) (ptr : Nat) (span : Nat) : Bool :=
  if offsetPtrIsNull ptr then false
  else if span > sizeMax then false
  else if ptr ≥ regionSize then false
  else if span > sub64 regionSize ptr then false
  else true

def offsetPtrTryFromRaw (base regionSize ptr : Nat) : Option Nat :=
  if base = 0 ∨ ptr = 0 then none
  else
    let endAddr := add64 base regionSize
    if endAddr < base ∨ ptr < base ∨ ptr ≥ endAddr then none
    else
      let offset := sub64 ptr base
      if offset = 0 then none else some offset

def offsetPtrTryResolve (base regionSize : Nat) (ptr : Nat) (span : Nat) : Option Nat :=
  if base = 0 then none
  else if !offsetPtrIsInBounds regionSize ptr span then none
  else some (add64 base ptr)

@[simp] theorem offsetPtrIsNull_iff (ptr : Nat) : offsetPtrIsNull ptr = true ↔ ptr = 0 := by
  simp [offsetPtrIsNull]

theorem in_bounds_iff {regionSize ptr span : Nat} (word : regionSize < 2 ^ 64) :
    offsetPtrIsInBounds regionSize ptr span = true ↔
      0 < ptr ∧ ptr < regionSize ∧ ptr + span ≤ regionSize := by
  by_cases before : 0 < ptr ∧ ptr < regionSize
  · have difference := sub64_eq (Nat.le_of_lt before.2) word
    have nonzero : ptr ≠ 0 := by omega
    simp [offsetPtrIsInBounds, offsetPtrIsNull, difference, nonzero, sizeMax]
    omega
  · constructor
    · intro accepted
      by_cases null : ptr = 0
      · simp [offsetPtrIsInBounds, offsetPtrIsNull, null] at accepted
      · have beyond : regionSize ≤ ptr := by omega
        simp [offsetPtrIsInBounds, offsetPtrIsNull, null, beyond] at accepted
    · rintro ⟨positive, start, _⟩
      exact absurd ⟨positive, start⟩ before

/-- An address converts exactly when it lies in the region and not at its start. -/
theorem from_raw_iff {base size ptr off : Nat} (nonzero : 0 < base) (word : base + size < 2 ^ 64) :
    offsetPtrTryFromRaw base size ptr = some off ↔ base < ptr ∧ ptr < base + size ∧ off = ptr - base := by
  have finish : add64 base size = base + size := add64_eq word
  unfold offsetPtrTryFromRaw
  simp only [finish]
  by_cases inside : base ≤ ptr ∧ ptr < base + size
  · have difference : sub64 ptr base = ptr - base := sub64_eq inside.1 (by omega)
    rw [if_neg (by omega), if_neg (by omega), difference]
    by_cases start : ptr - base = 0
    · rw [if_pos start]
      simp only [reduceCtorEq, false_iff]
      omega
    · rw [if_neg start, Option.some.injEq]
      omega
  · have refused : base + size < base ∨ ptr < base ∨ ptr ≥ base + size := by omega
    rw [if_pos refused, ite_self]
    simp only [reduceCtorEq, false_iff]
    omega

/-- A range resolves exactly when it lies in the region and does not start at offset 0. -/
theorem resolve_iff {base size off span address : Nat} (nonzero : 0 < base) (word : base + size < 2 ^ 64) :
    offsetPtrTryResolve base size off span = some address ↔
      0 < off ∧ off < size ∧ off + span ≤ size ∧ address = base + off := by
  have bounds : offsetPtrIsInBounds size off span = true ↔ 0 < off ∧ off < size ∧ off + span ≤ size :=
    in_bounds_iff (by omega)
  unfold offsetPtrTryResolve
  rw [if_neg (by omega)]
  by_cases inside : offsetPtrIsInBounds size off span = true
  · have range := bounds.mp inside
    have address : add64 base off = base + off := add64_eq (by omega)
    simp only [inside, Bool.not_true, Bool.false_eq_true, if_false, address, Option.some.injEq]
    omega
  · have outside : ¬(0 < off ∧ off < size ∧ off + span ≤ size) := fun range => inside (bounds.mpr range)
    simp only [Bool.not_eq_true] at inside
    simp only [inside, Bool.not_false, if_true, reduceCtorEq, false_iff]
    exact fun range => outside ⟨range.1, range.2.1, range.2.2.1⟩

/-- Conversion and resolution agree with unbounded arithmetic, and an offset taken in one mapping
    names the same place in every other. -/
theorem conversion_relocates {base base' size : Nat} (nonzero : 0 < base) (nonzero' : 0 < base')
    (word : base + size < 2 ^ 64) (word' : base' + size < 2 ^ 64) (ptr offset span : Nat) :
    ((offsetPtrTryFromRaw base size ptr).isSome ↔ base < ptr ∧ ptr < base + size) ∧
      ((offsetPtrTryResolve base' size offset span).isSome ↔ 0 < offset ∧ offset < size ∧ offset + span ≤ size) ∧
      ∀ off, offsetPtrTryFromRaw base size ptr = some off →
        (∀ k, off + k ≤ size → offsetPtrTryResolve base' size off k = some (base' + (ptr - base))) ∧
        offsetPtrTryFromRaw base' size (base' + (ptr - base)) = some off := by
  refine ⟨?_, ?_, ?_⟩
  · rw [Option.isSome_iff_exists]
    constructor
    · rintro ⟨off, converted⟩
      have inside := (from_raw_iff nonzero word).mp converted
      exact ⟨inside.1, inside.2.1⟩
    · rintro ⟨low, high⟩
      exact ⟨ptr - base, (from_raw_iff nonzero word).mpr ⟨low, high, rfl⟩⟩
  · rw [Option.isSome_iff_exists]
    constructor
    · rintro ⟨address, resolved⟩
      have inside := (resolve_iff nonzero' word').mp resolved
      exact ⟨inside.1, inside.2.1, inside.2.2.1⟩
    · rintro ⟨positive, start, fits⟩
      exact ⟨base' + offset, (resolve_iff nonzero' word').mpr ⟨positive, start, fits, rfl⟩⟩
  · intro off converted
    obtain ⟨low, high, rfl⟩ := (from_raw_iff nonzero word).mp converted
    constructor
    · intro k fits
      exact (resolve_iff nonzero' word').mpr ⟨by omega, by omega, fits, rfl⟩
    · exact (from_raw_iff nonzero' word').mpr ⟨by omega, by omega, by omega⟩

/-- The last byte of a region that ends just below 2^64, seen from a region that starts at 1. -/
theorem conversion_relocates_edge :
    offsetPtrTryFromRaw (2 ^ 64 - 4097) 4096 (2 ^ 64 - 2) = some 4095 ∧
      offsetPtrTryResolve 1 4096 4095 1 = some 4096 ∧ offsetPtrTryFromRaw 1 4096 4096 = some 4095 := by
  have converted : offsetPtrTryFromRaw (2 ^ 64 - 4097) 4096 (2 ^ 64 - 2) = some 4095 := by decide +kernel
  have room : 2 ^ 64 - 4097 + 4096 < 2 ^ 64 := by decide
  have room' : 1 + 4096 < 2 ^ 64 := by decide
  have moved := (conversion_relocates (by decide) (by decide) room room' (2 ^ 64 - 2) 4095 1).2.2 4095 converted
  exact ⟨converted, moved.1 1 (by decide), moved.2⟩

theorem resolve_eq_some {region : ShmRegion} (map : region.Mapped) {ptr span : Nat}
    (positive : 0 < ptr) (start : ptr < region.size) (fits : ptr + span ≤ region.size) :
    offsetPtrTryResolve region.base region.size ptr span = some (add64 region.base ptr) := by
  have user := map.user
  have address : add64 region.base ptr = region.base + ptr := add64_eq (by omega)
  rw [address]
  exact (resolve_iff map.base_pos (by omega)).mpr ⟨positive, start, fits, rfl⟩

theorem resolve_eq_none {region : ShmRegion} (map : region.Mapped) {ptr span : Nat}
    (outside : ptr = 0 ∨ region.size ≤ ptr ∨ region.size < ptr + span) :
    offsetPtrTryResolve region.base region.size ptr span = none := by
  have user := map.user
  rw [Option.eq_none_iff_forall_ne_some]
  intro address resolved
  have inside := (resolve_iff map.base_pos (by omega)).mp resolved
  omega

theorem from_raw_eq_some {region : ShmRegion} (map : region.Mapped) {off : Nat}
    (positive : 0 < off) (inside : off < region.size) :
    offsetPtrTryFromRaw region.base region.size (add64 region.base off) = some off := by
  have user := map.user
  have address : add64 region.base off = region.base + off := add64_eq (by omega)
  rw [address]
  exact (from_raw_iff map.base_pos (by omega)).mpr ⟨by omega, by omega, by omega⟩

end OffsetStore
