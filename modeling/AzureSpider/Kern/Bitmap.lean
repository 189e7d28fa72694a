import AzureSpider.Errno
import AzureSpider.Kern.Panic
import AzureSpider.Lib.BitWords
import AzureSpider.Lib.Machine
import AzureSpider.Lib.Routine

/-!
# Bitmaps

The arrays of bits of `bitmap.c`, kept in bytes.
-/

open Machine Routine

/-- `struct bitmap`. -/
structure Bitmap where
  nbits : ℕ
  v : List (BitVec 8)

namespace Bitmap

/-- A routine on a bitmap. -/
abbrev Run (α : Type) : Type := Routine Errno FsPanic Bitmap α

/-- `bitmap_create`, once its memory is there: the bits of the last byte that belong to no index
are set. -/
def create {σ : Type} (nbits : ℕ) : Routine Errno FsPanic σ Bitmap := do
  let words := u32 (nbits + 7) / 8
  let v := List.replicate words (0 : BitVec 8)
  if nbits / 8 < words then do
    let ix := words - 1
    let overbits := nbits - ix * 8
    assert (nbits / 8 = words - 1) .bitmapCreateWords
    assert (0 < overbits ∧ overbits < 8) .bitmapCreateOverbits
    pure ⟨nbits, (List.range' overbits (8 - overbits)).foldl
      (fun v j => BitWords.setBit v (ix * 8 + j)) v⟩
  else
    pure ⟨nbits, v⟩

/-- `bitmap_alloc`: the index of the first clear bit, which is set. -/
def alloc : Run ℕ := do
  let b ← get
  let maxix := u32 (b.nbits + 7) / 8
  match BitWords.findClear (b.v.take maxix) 0 with
  | .found index => do
      modify fun b => { b with v := BitWords.setBit b.v index }
      assert (index < b.nbits) .bitmapAllocIndex
      pure index
  | .full => fail .enospc
  | .stuck => Routine.panic .bitmapAllocStuck

/-- `bitmap_isset`. -/
def isset (b : Bitmap) (index : ℕ) : Bool := BitWords.getBit b.v index

/-- `bitmap_unmark`. -/
def unmark (index : ℕ) : Run Unit := do
  let b ← get
  assert (index < b.nbits) .bitmapUnmarkIndex
  assert (b.isset index = true) .bitmapUnmarkClear
  modify fun b => { b with v := BitWords.clearBit b.v index }

/-- The bitmap with the bit at an index set. -/
def mark (b : Bitmap) (index : ℕ) : Bitmap := { b with v := BitWords.setBit b.v index }

/-- The bitmap with the bit at an index clear. -/
def unmarked (b : Bitmap) (index : ℕ) : Bitmap := { b with v := BitWords.clearBit b.v index }

/-- The storage of the bitmap has a bit for each index, and no other. -/
structure Full (b : Bitmap) : Prop where
  length_eq : 8 * b.v.length = b.nbits
  lt : b.nbits < 2 ^ 32 - 8

variable {b : Bitmap}

theorem Full.mark (h : b.Full) (index : ℕ) :
  (b.mark index).Full
  := by
  constructor
  · rw [Bitmap.mark, BitWords.length_setBit]
    apply h.length_eq
  · apply h.lt

theorem Full.unmarked (h : b.Full) (index : ℕ) :
  (b.unmarked index).Full
  := by
  constructor
  · rw [Bitmap.unmarked, BitWords.length_clearBit]
    apply h.length_eq
  · apply h.lt

theorem Full.isset_mark (h : b.Full) {index : ℕ} (hlt : index < b.nbits) (j : ℕ) :
  (b.mark index).isset j = (b.isset j || decide (index = j))
  := by
  apply BitWords.getBit_setBit (by decide)
  rw [h.length_eq]
  apply hlt

theorem isset_unmarked (b : Bitmap) (index j : ℕ) :
  (b.unmarked index).isset j = (b.isset j && decide (index ≠ j))
  := BitWords.getBit_clearBit (by decide) index j

/-- `bitmap_create` of whole bytes makes a bitmap with no bit set. -/
theorem create_spec {σ : Type} {s : σ} {nbits : ℕ} (hdvd : 8 ∣ nbits) (hlt : nbits < 2 ^ 32 - 8)
    {Q : Bitmap → σ → Prop} {E : Errno → σ → Prop}
    (hQ : ∀ b : Bitmap, b.nbits = nbits → b.Full → (∀ j, b.isset j = false) → Q b s) :
  wp (create nbits) s Q E
  := by
  obtain ⟨n, rfl⟩ := hdvd
  have hwords : u32 (8 * n + 7) / 8 = n := by
    rw [u32_of_lt (by omega)]
    omega
  have hdiv : 8 * n / 8 = n := Nat.mul_div_cancel_left n (by decide)
  simp only [create, hwords, hdiv, Nat.lt_irrefl, if_false, wp_pure]
  apply hQ _ rfl
  · exact ⟨by rw [List.length_replicate], hlt⟩
  · intro j
    apply BitWords.getBit_replicate_zero

/-- The storage has whole bytes for all indices, and its other bits are set. -/
structure Padded (nbits : ℕ) (b : Bitmap) : Prop where
  nbits_eq : b.nbits = nbits
  le : nbits ≤ 2 ^ 32 - 8
  length_eq : b.v.length = (nbits + 7) / 8
  padding : ∀ i, nbits ≤ i → i < 8 * b.v.length → b.isset i = true

theorem Padded.lt {nbits i : ℕ} (h : b.Padded nbits) (hi : i < nbits) :
  i < 8 * b.v.length
  := by
  have hlength := h.length_eq
  omega

/-- Whole bytes have no other bits. -/
theorem Full.padded (h : b.Full) :
  b.Padded b.nbits
  := by
  have hlength := h.length_eq
  have hlt := h.lt
  refine ⟨rfl, by omega, by omega, ?_⟩
  intro i hi hin
  omega

/-- `bitmap_alloc` finds the first clear index and sets it, or there is none. -/
theorem alloc_padded {nbits : ℕ} (h : b.Padded nbits) :
  wp alloc b
    (fun i b' => i < nbits ∧ b.isset i = false ∧ (∀ j < i, b.isset j = true) ∧ b' = b.mark i)
    (fun e b' => e = .enospc ∧ (∀ j < nbits, b.isset j = true) ∧ b' = b)
  := by
  have hlength := h.length_eq
  have hle := h.le
  have hnbits := h.nbits_eq
  have htake : b.v.take (u32 (b.nbits + 7) / 8) = b.v := by
    rw [u32_of_lt (by omega), hnbits, ← hlength]
    exact List.take_length
  simp only [alloc, wp_bind, wp_get, htake]
  cases hfind : BitWords.findClear b.v 0 with
  | full =>
    simp only [wp_fail, true_and, and_true]
    intro j hj
    exact BitWords.findClear_full (by decide) hfind j (h.lt hj)
  | stuck => exact absurd hfind (BitWords.findClear_ne_stuck _ _)
  | found i =>
    obtain ⟨k, hk, hin, hclear, hleast⟩ := BitWords.findClear_found (by decide) hfind
    rw [Nat.zero_add] at hk
    subst hk
    -- a clear bit is not one of the padding
    have hi : i < nbits := by
      by_contra hge
      have hset := h.padding i (Nat.le_of_not_lt hge) hin
      rw [isset, hclear] at hset
      cases hset
    simp only [wp_bind, wp_modify, wp_assert, wp_pure]
    exact ⟨by omega, hi, hclear, hleast, rfl⟩

/-- `bitmap_unmark` clears a bit that is set. -/
theorem unmark_spec {index : ℕ} (hlt : index < b.nbits) (hset : b.isset index = true) :
  wp (unmark index) b (fun _ b' => b' = b.unmarked index)
  := by
  simp only [unmark, wp_bind, wp_get, wp_assert, wp_modify]
  exact ⟨hlt, hset, rfl⟩

end Bitmap
