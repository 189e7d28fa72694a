import Mathlib.Data.Fin.Basic

/-!
# Buffers of a fixed size

`Buf n α` is the type of the buffers of `n` cells.  A buffer is read at any number: outside
of the buffer the default value is read, so that the cells and the size need not be spoken
about together.
-/

/-- A buffer of `n` cells. -/
def Buf (n : ℕ) (α : Type) : Type := Fin n → α

namespace Buf

variable {n : ℕ} {α : Type}

/-- The buffer with the given cells. -/
def ofFn (f : ℕ → α) : Buf n α := fun i => f i

/-- Write a cell. -/
def set (b : Buf n α) (i : ℕ) (a : α) : Buf n α := fun j => if j = i then a else b j

variable [Inhabited α]

/-- Read a cell. -/
def get (b : Buf n α) (i : ℕ) : α := if h : i < n then b ⟨i, h⟩ else default

/-- Two buffers with the same cells are the same. -/
theorem ext' {b c : Buf n α} (h : ∀ i < n, b.get i = c.get i) :
  b = c
  := by
  funext i
  have hi := h i i.isLt
  simpa [get] using hi

theorem get_ofFn (f : ℕ → α) {i : ℕ} (h : i < n) :
  (ofFn f : Buf n α).get i = f i
  := by
  simp [get, ofFn, h]

theorem get_of_le (b : Buf n α) {i : ℕ} (h : n ≤ i) :
  b.get i = default
  := dif_neg (Nat.not_lt.mpr h)

theorem get_set (b : Buf n α) {i : ℕ} (a : α) (h : i < n) (j : ℕ) :
  (b.set i a).get j = if j = i then a else b.get j
  := by
  by_cases hj : j < n
  · simp [get, set, hj]
  · have hne : j ≠ i := by omega
    simp [get, hj, hne]

theorem ofFn_get (b : Buf n α) :
  ofFn b.get = b
  := by
  apply ext'
  intro i hi
  apply get_ofFn b.get hi

end Buf
