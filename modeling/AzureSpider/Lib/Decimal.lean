import AzureSpider.Lib.Machine
import Mathlib.Data.Rat.Floor

/-!
# Exact decimals

Amounts of money are rational numbers.  `roundCents x` is `x` rounded to two decimals, halves
away from zero; `truncate x` is `x` without its fraction, and `toInt32 x` is `truncate x`
brought into the range of the 32-bit integers.
-/

open Machine

namespace Decimal

/-- The integer part, towards zero. -/
def truncate (x : ℚ) : ℤ := if 0 ≤ x then ⌊x⌋ else ⌈x⌉

/-- The 32-bit integer that a number is cast to: the integer part, or the nearest end of the
range. -/
def toInt32 (x : ℚ) : ℤ := max (-2 ^ 31) (min (2 ^ 31 - 1) (truncate x))

/-- The number rounded to two decimals, halves away from zero. -/
def roundCents (x : ℚ) : ℚ :=
  if 0 ≤ x then ⌊x * 100 + 1 / 2⌋ / 100 else -(⌊-x * 100 + 1 / 2⌋ / 100)

/-- A whole number of cents. -/
def IsCents (x : ℚ) : Prop := ∃ n : ℤ, x = n / 100

/-! ### Whole cents -/

theorem IsCents.zero :
  IsCents 0
  := ⟨0, by norm_num⟩

theorem IsCents.add {x y : ℚ} (hx : IsCents x) (hy : IsCents y) :
  IsCents (x + y)
  := by
  obtain ⟨n, rfl⟩ := hx
  obtain ⟨m, rfl⟩ := hy
  use n + m
  push_cast
  ring

theorem IsCents.sub {x y : ℚ} (hx : IsCents x) (hy : IsCents y) :
  IsCents (x - y)
  := by
  obtain ⟨n, rfl⟩ := hx
  obtain ⟨m, rfl⟩ := hy
  use n - m
  push_cast
  ring

variable {x : ℚ}

theorem IsCents.mul_int (hx : IsCents x) (k : ℤ) :
  IsCents (x * k)
  := by
  obtain ⟨n, rfl⟩ := hx
  use n * k
  push_cast
  ring

theorem isCents_roundCents (x : ℚ) :
  IsCents (roundCents x)
  := by
  unfold roundCents
  split
  · exact ⟨_, rfl⟩
  · use -⌊-x * 100 + 1 / 2⌋
    push_cast
    ring

/-- An integer is its own nearest integer. -/
theorem floor_add_half (n : ℤ) :
  ⌊(n : ℚ) + 1 / 2⌋ = n
  := by
  rw [Int.floor_eq_iff]
  constructor
  · linarith
  · linarith

/-- Whole cents are not changed by rounding. -/
theorem IsCents.roundCents_eq (hx : IsCents x) :
  roundCents x = x
  := by
  obtain ⟨n, rfl⟩ := hx
  have hpos : (n : ℚ) / 100 * 100 = n := by ring
  have hneg : -((n : ℚ) / 100) * 100 = ((-n : ℤ) : ℚ) := by
    push_cast
    ring
  unfold roundCents
  split
  · rw [hpos, floor_add_half]
  · rw [hneg, floor_add_half]
    push_cast
    ring

/-! ### Bounds -/

theorem roundCents_nonneg (hx : 0 ≤ x) :
  0 ≤ roundCents x
  := by
  rw [roundCents, if_pos hx]
  positivity

/-- Rounding does not make a positive number of one that is not. -/
theorem pos_of_roundCents_pos (h : 0 < roundCents x) :
  0 < x
  := by
  by_contra hle
  have hneg : roundCents x ≤ 0 := by
    rcases eq_or_lt_of_le (not_lt.mp hle) with rfl | hlt
    · rw [IsCents.zero.roundCents_eq]
    · rw [roundCents, if_neg (not_le.mpr hlt)]
      have hfloor : 0 ≤ ⌊-x * 100 + 1 / 2⌋ := by
        apply Int.floor_nonneg.mpr
        linarith
      have : (0 : ℚ) ≤ ⌊-x * 100 + 1 / 2⌋ / 100 := by positivity
      linarith
  linarith

theorem toInt32_mem (x : ℚ) :
  -2 ^ 31 ≤ toInt32 x ∧ toInt32 x < 2 ^ 31
  := by
  unfold toInt32
  omega

/-- An integer in the range is cast to itself. -/
theorem toInt32_intCast {n : ℤ} (hl : -2 ^ 31 ≤ n) (hu : n < 2 ^ 31) :
  toInt32 n = n
  := by
  have htrunc : truncate n = n := by
    unfold truncate
    split
    · exact Int.floor_intCast n
    · exact Int.ceil_intCast n
  rw [toInt32, htrunc]
  omega

/-- A number in the range that is not negative is cast to its integer part. -/
theorem toInt32_of_nonneg (hx : 0 ≤ x) (hlt : x < 2 ^ 31) :
  toInt32 x = ⌊x⌋
  := by
  have hfloor : 0 ≤ ⌊x⌋ := Int.floor_nonneg.mpr hx
  have hbound : ⌊x⌋ < 2 ^ 31 := by
    rw [Int.floor_lt]
    exact_mod_cast hlt
  rw [toInt32, truncate, if_pos hx]
  omega

end Decimal
