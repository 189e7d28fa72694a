import Mathlib.Algebra.Group.Nat.Defs
import Mathlib.Data.List.TakeWhile
import Mathlib.Tactic.Common

/-!
# Words in memory

The bytes of 16-bit and 32-bit words in big-endian order, and the words that bytes make.  A
string lies in memory up to its first null.
-/

namespace Codec

/-- Byte `k` of a 32-bit word, the most significant one first. -/
def byte32 (x : UInt32) (k : ℕ) : UInt8 := UInt8.ofNat (x.toNat / 256 ^ (3 - k))

/-- Byte `k` of a 16-bit word, the most significant one first. -/
def byte16 (x : UInt16) (k : ℕ) : UInt8 := UInt8.ofNat (x.toNat / 256 ^ (1 - k))

/-- The 32-bit word that four bytes make. -/
def word32 (f : ℕ → UInt8) : UInt32 :=
  UInt32.ofNat
    ((f 0).toNat * 256 ^ 3 + (f 1).toNat * 256 ^ 2 + (f 2).toNat * 256 + (f 3).toNat)

/-- The 16-bit word that two bytes make. -/
def word16 (f : ℕ → UInt8) : UInt16 := UInt16.ofNat ((f 0).toNat * 256 + (f 1).toNat)

theorem word32_byte32 (x : UInt32) :
  word32 (byte32 x) = x
  := by
  apply UInt32.toNat.inj
  have hx := x.toNat_lt
  simp only [word32, byte32, UInt32.toNat_ofNat', UInt8.toNat_ofNat']
  omega

theorem word16_byte16 (x : UInt16) :
  word16 (byte16 x) = x
  := by
  apply UInt16.toNat.inj
  have hx := x.toNat_lt
  simp only [word16, byte16, UInt16.toNat_ofNat', UInt8.toNat_ofNat']
  omega

/-- Words depend on their own bytes only. -/
theorem word32_congr {f g : ℕ → UInt8} (h : ∀ k < 4, f k = g k) :
  word32 f = word32 g
  := by
  simp only [word32, h 0 (by decide), h 1 (by decide), h 2 (by decide), h 3 (by decide)]

theorem word16_congr {f g : ℕ → UInt8} (h : ∀ k < 2, f k = g k) :
  word16 f = word16 g
  := by
  simp only [word16, h 0 (by decide), h 1 (by decide)]

variable {f : ℕ → UInt8}

theorem word32_eq {x : UInt32} (h : ∀ k < 4, f k = byte32 x k) :
  word32 f = x
  := (word32_congr h).trans (word32_byte32 x)

theorem word16_eq {x : UInt16} (h : ∀ k < 2, f k = byte16 x k) :
  word16 f = x
  := (word16_congr h).trans (word16_byte16 x)

/-! ### Strings -/

/-- The string at the start of `n` bytes: all bytes before the first null. -/
def cstr (n : ℕ) (f : ℕ → UInt8) : List UInt8 := ((List.range n).map f).takeWhile (· ≠ 0)

/-- A string that is padded with nulls is read as it was written. -/
theorem cstr_of_pad {n : ℕ} {l : List UInt8} (hl : 0 ∉ l) (hlen : l.length < n)
    (hf : ∀ j < n, f j = l.getD j 0) :
  cstr n f = l
  := by
  have hlist : (List.range n).map f = l ++ List.replicate (n - l.length) 0 := by
    apply List.ext_getElem
    · rw [List.length_map, List.length_range, List.length_append, List.length_replicate]
      omega
    · intro j hj hj'
      rw [List.length_map, List.length_range] at hj
      rw [List.getElem_map, List.getElem_range, hf j hj, List.getElem_append]
      split
      · next hlt =>
          rw [List.getD_eq_getElem?_getD, List.getElem?_eq_getElem hlt, Option.getD_some]
      · next hge =>
          rw [List.getD_eq_getElem?_getD, List.getElem?_eq_none (Nat.not_lt.mp hge),
            Option.getD_none, List.getElem_replicate]
  rw [cstr, hlist, List.takeWhile_append_of_pos]
  · obtain ⟨k, hk⟩ : ∃ k, n - l.length = k + 1 := ⟨n - l.length - 1, by omega⟩
    simp [hk, List.replicate_succ]
  · intro x hx
    rw [decide_eq_true_iff]
    rintro rfl
    apply hl hx

end Codec
