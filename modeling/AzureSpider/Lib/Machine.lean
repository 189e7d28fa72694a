import Mathlib.Algebra.Group.Int.Defs
import Mathlib.Algebra.Group.Nat.Defs
import Mathlib.Data.Int.Basic

/-!
# Machine words

Unsigned machine words are natural numbers, signed ones are integers, and the results of
the arithmetic of a `w`-bit machine are reduced explicitly: `u32 n` and `u16 n` are the
words a number `n` is stored as, `i32 z` is the signed word congruent to `z`.
-/

namespace Machine

/-- The number a 16-bit unsigned word holds after `n` is stored in it. -/
def u16 (n : ℕ) : ℕ := n % 2 ^ 16

/-- The number a 32-bit unsigned word holds after `n` is stored in it. -/
def u32 (n : ℕ) : ℕ := n % 2 ^ 32

/-- The number a 32-bit signed word holds after `z` is stored in it. -/
def i32 (z : ℤ) : ℤ := (z + 2 ^ 31) % 2 ^ 32 - 2 ^ 31

/-- The number a 32-bit unsigned word holds after the signed `z` is stored in it. -/
def toU32 (z : ℤ) : ℕ := (z % 2 ^ 32).toNat

theorem u32_lt (n : ℕ) :
  u32 n < 2 ^ 32
  := Nat.mod_lt n (by decide)

theorem toU32_lt (z : ℤ) :
  toU32 z < 2 ^ 32
  := by
  unfold toU32
  omega

@[simp]
theorem u32_of_lt {n : ℕ} (h : n < 2 ^ 32) :
  u32 n = n
  := Nat.mod_eq_of_lt h

@[simp]
theorem u16_of_lt {n : ℕ} (h : n < 2 ^ 16) :
  u16 n = n
  := Nat.mod_eq_of_lt h

/-- A number in the range of the signed words is stored as itself. -/
theorem i32_of_mem {z : ℤ} (hl : -2 ^ 31 ≤ z) (hu : z < 2 ^ 31) :
  i32 z = z
  := by
  unfold i32
  omega

/-- An intermediate result may be left as it is. -/
theorem i32_add (z w : ℤ) :
  i32 (i32 z + w) = i32 (z + w)
  := by
  unfold i32
  omega

theorem le_i32 (z : ℤ) :
  -2 ^ 31 ≤ i32 z
  := by
  unfold i32
  omega

theorem i32_lt (z : ℤ) :
  i32 z < 2 ^ 31
  := by
  unfold i32
  omega

/-- A signed word is congruent to the number stored in it. -/
theorem exists_i32_eq (z : ℤ) :
  ∃ m, i32 z = z + 2 ^ 32 * m
  := by
  refine ⟨-((z + 2 ^ 31) / 2 ^ 32), ?_⟩
  unfold i32
  omega

theorem i32_add_mul (z m : ℤ) :
  i32 (z + 2 ^ 32 * m) = i32 z
  := by
  unfold i32
  omega

theorem i32_mul (z w : ℤ) :
  i32 (i32 z * w) = i32 (z * w)
  := by
  obtain ⟨m, hm⟩ := exists_i32_eq z
  rw [hm, Int.add_mul, Int.mul_assoc, i32_add_mul]

end Machine
