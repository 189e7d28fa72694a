import AzureSpider.Lib.Machine

/-!
# The pseudorandom generator

The generator behind the device `random:`, of `pseudorand.c`.  Its seed is an unsigned word;
the next one is computed with signed words, and a signed operation whose result is no signed
word is undefined, `none` here.
-/

open Machine

namespace Pseudorand

/-- `MULTIPLIER`. -/
def multiplier : ℕ := 16807

/-- `MODULUS`. -/
def modulus : ℕ := 0x7fffffff

/-- `K1`, which is `MODULUS / MULTIPLIER`. -/
def k1 : ℕ := 127773

/-- `K2`, which is `MODULUS % MULTIPLIER`. -/
def k2 : ℕ := 2836

/-- The result of an operation on signed words. -/
def signed (z : ℤ) : Option ℤ :=
  if -2 ^ 31 ≤ z ∧ z < 2 ^ 31 then some z else none

/-- `pseudorand_random`: the value returned and the new `ps_seed`. -/
def random (psSeed : ℕ) : Option (ℕ × ℕ) := do
  let hi := i32 (psSeed / k1 : ℕ)
  let lo := i32 (psSeed % k1 : ℕ)
  let high ← signed (multiplier * lo)
  let low ← signed (k2 * hi)
  let mut tmp ← signed (high - low)
  if tmp ≤ 0 then
    tmp ← signed (tmp + modulus)
  return (toU32 (toU32 tmp - 1), toU32 tmp)

/-- `pseudorand_randmax`. -/
def randmax : ℕ := modulus - 2

/-- The seed that `pseudoattach_pseudorand` sets. -/
def initialSeed : ℕ := 305824

/-- A number of calls, one after the other: the values returned and the seed after them. -/
def calls : ℕ → ℕ → Option (List ℕ × ℕ)
  | 0, psSeed => some ([], psSeed)
  | n + 1, psSeed => do
      let (value, psSeed) ← random psSeed
      let (values, psSeed) ← calls n psSeed
      return (value :: values, psSeed)

/-- The seeds of the generator are the numbers from 1 to `MODULUS - 1`. -/
def IsSeed (s : ℕ) : Prop := 1 ≤ s ∧ s < modulus

instance (s : ℕ) : Decidable (IsSeed s) := inferInstanceAs (Decidable (_ ∧ _))

/-- The successor of a seed in the generator of Park and Miller. -/
def parkMiller (s : ℕ) : ℕ := multiplier * s % modulus

theorem signed_of_mem {z : ℤ} (hl : -2 ^ 31 ≤ z) (hu : z < 2 ^ 31) :
  signed z = some z
  := if_pos ⟨hl, hu⟩

/-- The difference that is computed is congruent to the product, and the correction makes it
the remainder, which is no 0: a multiple of the modulus is no product of a seed. -/
theorem parkMiller_eq {s : ℕ} (hs : IsSeed s) {tmp : ℤ}
    (htmp : tmp = multiplier * (s % k1 : ℕ) - k2 * (s / k1 : ℕ)) :
  IsSeed (parkMiller s)
    ∧ (tmp ≤ 0 ∧ tmp + modulus = parkMiller s ∨ ¬ tmp ≤ 0 ∧ tmp = parkMiller s)
  := by
  unfold IsSeed parkMiller multiplier modulus k1 k2 at *
  -- `16807 * s` is `2147483647 * (s / 127773) + tmp`, and `|tmp| < 2147483647`.
  have htmp0 : tmp ≠ 0 := by
    intro h
    omega
  omega

/-- Every operation is defined, and the new seed is the next one. -/
theorem random_eq {s : ℕ} (hs : IsSeed s) :
  random s = some (parkMiller s - 1, parkMiller s)
  := by
  have hsplit : s / k1 ≤ 16807 ∧ s % k1 < 127773 := by
    unfold IsSeed modulus k1 at *
    omega
  obtain ⟨hnext, heq⟩ := parkMiller_eq hs rfl
  unfold IsSeed modulus at hnext
  have hstored : toU32 (toU32 (parkMiller s) - 1) = parkMiller s - 1
      ∧ toU32 (parkMiller s) = parkMiller s := by
    unfold toU32
    omega
  unfold random
  simp only [multiplier, k2, modulus] at heq ⊢
  rw [i32_of_mem (by omega) (by omega), i32_of_mem (by omega) (by omega),
    signed_of_mem (by omega) (by omega), signed_of_mem (by omega) (by omega)]
  simp only [Option.bind_eq_bind, Option.bind_some]
  rw [signed_of_mem (by omega) (by omega), Option.bind_some]
  rcases heq with ⟨hle, heq⟩ | ⟨hpos, heq⟩
  · rw [if_pos hle, signed_of_mem (by omega) (by omega), Option.bind_some, heq, hstored.1,
      hstored.2, Option.pure_def]
  · rw [if_neg hpos, heq, hstored.1, hstored.2, Option.pure_def]

/-- Any number of calls: every one is defined, returns a value that is no more than
`pseudorand_randmax` and leaves a seed. -/
theorem calls_inRange (n : ℕ) :
    ∀ {s : ℕ}, IsSeed s → ∃ values s', calls n s = some (values, s') ∧ IsSeed s'
      ∧ ∀ v ∈ values, v ≤ randmax
  := by
  induction n with
  | zero => exact fun {s} hs => ⟨[], s, rfl, hs, by simp⟩
  | succ n ih =>
    intro s hs
    obtain ⟨hnext, -⟩ := parkMiller_eq hs rfl
    obtain ⟨values, s', hcalls, hs', hvalues⟩ := ih hnext
    refine ⟨(parkMiller s - 1) :: values, s', ?_, hs', ?_⟩
    · simp [calls, random_eq hs, hcalls]
    · have hle : parkMiller s - 1 ≤ randmax :=
        Nat.sub_le_sub_right (Nat.le_of_lt_succ hnext.2) 1
      exact List.forall_mem_cons.mpr ⟨hle, hvalues⟩

/-- The generator is that of Park and Miller.  From a seed a call computes the product by
16807 modulo `2 ^ 31 - 1` with no signed operation that overflows, leaves a seed and returns a
value up to `pseudorand_randmax`; hence so does every call after the seed was set. -/
theorem random_parkMiller :
  (∀ s, 1 ≤ s → s ≤ 2 ^ 31 - 2 → ∃ value, random s = some (value, 16807 * s % (2 ^ 31 - 1))
      ∧ 1 ≤ 16807 * s % (2 ^ 31 - 1) ∧ 16807 * s % (2 ^ 31 - 1) ≤ 2 ^ 31 - 2
      ∧ value ≤ randmax)
    ∧ ∀ n, ∃ values s, calls n initialSeed = some (values, s) ∧ 1 ≤ s ∧ s ≤ 2 ^ 31 - 2
      ∧ ∀ v ∈ values, v ≤ randmax
  := by
  constructor
  · intro s hpos hle
    have hs : IsSeed s := ⟨hpos, Nat.lt_of_le_of_lt hle (by decide)⟩
    obtain ⟨⟨hpos', hlt⟩, -⟩ := parkMiller_eq hs rfl
    have hle' := Nat.le_of_lt_succ hlt
    exact ⟨_, random_eq hs, hpos', hle', Nat.sub_le_sub_right hle' 1⟩
  · intro n
    have hs : IsSeed initialSeed := by decide
    obtain ⟨values, s, hcalls, ⟨hpos, hlt⟩, hvalues⟩ := calls_inRange n hs
    exact ⟨values, s, hcalls, hpos, Nat.le_of_lt_succ hlt, hvalues⟩

theorem random_parkMiller_initial :
  ∃ value, random 305824 = some (value, 16807 * 305824 % (2 ^ 31 - 1))
    ∧ 1 ≤ 16807 * 305824 % (2 ^ 31 - 1) ∧ 16807 * 305824 % (2 ^ 31 - 1) ≤ 2 ^ 31 - 2
    ∧ value ≤ randmax
  := random_parkMiller.1 305824 (by decide) (by decide)

end Pseudorand
