import AzureSpider.Kern.Bitmap
import AzureSpider.Lib.Object
import Mathlib.Data.Set.Insert

/-!
# Bitmaps are sets of indices

`bitmap_create` for any number of bits sets the bits of the last byte that belong to no index, and
no call clears them: `bitmap_alloc`, which looks for a byte that is not full and a clear bit in it,
finds indices only (`alloc_padded`).

In every sequence of calls the bitmap behaves as a set of indices.
-/

open Machine Routine

namespace Bitmap

/-- `bitmap_mark`. -/
def bitmapMark (index : ℕ) : Run Unit := do
  let b ← get
  assert (index < b.nbits) .bitmapMarkIndex
  assert (b.isset index = false) .bitmapMarkSet
  modify fun b => b.mark index

/-- `bitmap_isset`, as the number that it returns. -/
def bitmapIsset (b : Bitmap) (index : ℕ) : ℕ :=
  (b.v.getD (index / 8) 0 &&& BitVec.twoPow 8 (index % 8)).toNat

/-! ### Calls -/

/-- A call on a bitmap. -/
inductive Call where
  | alloc | mark (index : ℕ) | unmark (index : ℕ) | isset (index : ℕ)

/-- What a call returns. -/
inductive Reply where
  | done | failed (e : Errno) | index (i : ℕ) | value (n : ℕ)

/-- The calls. -/
def exec : Call → Run Reply
  | .alloc => do
      match ← attempt alloc with
      | .ok i => pure (.index i)
      | .error e => pure (.failed e)
  | .mark index => do
      bitmapMark index
      pure .done
  | .unmark index => do
      unmark index
      pure .done
  | .isset index => do
      let b ← get
      pure (.value (b.bitmapIsset index))

/-- What the calls do to a set of indices below `nbits`. -/
def spec (nbits : ℕ) : Call → Set ℕ → Reply → Set ℕ → Prop
  | .alloc, S, .index i, S' => (i < nbits ∧ i ∉ S ∧ ∀ j < i, j ∈ S) ∧ S' = insert i S
  | .alloc, S, .failed e, S' => e = .enospc ∧ (∀ j < nbits, j ∈ S) ∧ S' = S
  | .mark index, S, .done, S' => S' = insert index S
  | .unmark index, S, .done, S' => S' = S \ {index}
  | .isset index, S, .value n, S' => (n ≠ 0 ↔ index ∈ S) ∧ S' = S
  | _, _, _, _ => False

/-- A call may be made: its index is below `nbits`, clear for `bitmap_mark` and set for
`bitmap_unmark`. -/
def may (nbits : ℕ) : Call → Set ℕ → Bitmap → Prop
  | .alloc, _, _ => True
  | .mark index, S, _ => index < nbits ∧ index ∉ S
  | .unmark index, S, _ => index < nbits ∧ index ∈ S
  | .isset index, _, _ => index < nbits

/-! ### Padding -/

section Padding

variable {nbits : ℕ} {b : Bitmap}

section

variable {i : ℕ} (h : b.Padded nbits) (hi : i < nbits)
include h hi

theorem Padded.isset_mark (j : ℕ) :
  (b.mark i).isset j = (b.isset j || decide (i = j))
  := BitWords.getBit_setBit (by decide) (h.lt hi) j

theorem Padded.mark :
  (b.mark i).Padded nbits
  := by
  have hlength : (b.mark i).v.length = b.v.length := BitWords.length_setBit _ _
  constructor
  · exact h.nbits_eq
  · exact h.le
  · rw [hlength]
    exact h.length_eq
  · intro j hj hlt
    rw [hlength] at hlt
    rw [h.isset_mark hi, h.padding j hj hlt]
    rfl

theorem Padded.unmarked :
  (b.unmarked i).Padded nbits
  := by
  have hlength : (b.unmarked i).v.length = b.v.length := BitWords.length_clearBit _ _
  constructor
  · exact h.nbits_eq
  · exact h.le
  · rw [hlength]
    exact h.length_eq
  · intro j hj hlt
    rw [hlength] at hlt
    have hne : i ≠ j := by omega
    rw [isset_unmarked, h.padding j hj hlt]
    simp [hne]

end

/-- Bits that are set one after another. -/
theorem getBit_foldl_setBit (v : List (BitVec 8)) (base : ℕ) (js : List ℕ)
    (hjs : ∀ j ∈ js, base + j < 8 * v.length) (i : ℕ) :
  BitWords.getBit (js.foldl (fun v j => BitWords.setBit v (base + j)) v) i = true
    ↔ BitWords.getBit v i = true ∨ ∃ j ∈ js, base + j = i
  := by
  induction js generalizing v with
  | nil => simp
  | cons j js ih =>
    have hj : base + j < 8 * v.length := hjs j List.mem_cons_self
    have hrest : ∀ k ∈ js, base + k < 8 * (BitWords.setBit v (base + j)).length := by
      intro k hk
      rw [BitWords.length_setBit]
      exact hjs k (List.mem_cons_of_mem j hk)
    rw [List.foldl_cons, ih _ hrest, BitWords.getBit_setBit (by decide) hj]
    simp only [Bool.or_eq_true, decide_eq_true_eq, List.mem_cons, exists_eq_or_imp]
    rw [or_assoc]

theorem length_foldl_setBit (v : List (BitVec 8)) (base : ℕ) (js : List ℕ) :
  (js.foldl (fun v j => BitWords.setBit v (base + j)) v).length = v.length
  := by
  induction js generalizing v with
  | nil => rfl
  | cons j js ih => rw [List.foldl_cons, ih, BitWords.length_setBit]

/-- `bitmap_create` sets the bits that belong to no index, and no other. -/
theorem create_padded {σ : Type} {s : σ} (h : nbits ≤ 2 ^ 32 - 8) {E : Errno → σ → Prop} :
  wp (create nbits) s
    (fun b s' => s' = s ∧ b.Padded nbits ∧ ∀ i < nbits, b.isset i = false) E
  := by
  simp only [create]
  generalize hwords : u32 (nbits + 7) / 8 = words
  rw [u32_of_lt (by omega)] at hwords
  rw [wp_ite]
  constructor
  · intro hover
    simp only [wp_bind, wp_assert, wp_pure]
    use by omega, ⟨by omega, by omega⟩
    -- the bits from `nbits` to the end of the last byte
    have hin : ∀ j ∈ List.range' (nbits - (words - 1) * 8) (8 - (nbits - (words - 1) * 8)),
        (words - 1) * 8 + j < 8 * (List.replicate words (0 : BitVec 8)).length := by
      intro j hj
      rw [List.mem_range'_1] at hj
      rw [List.length_replicate]
      omega
    have hbit : ∀ i, BitWords.getBit
        ((List.range' (nbits - (words - 1) * 8) (8 - (nbits - (words - 1) * 8))).foldl
          (fun v j => BitWords.setBit v ((words - 1) * 8 + j))
          (List.replicate words (0 : BitVec 8))) i = true
        ↔ nbits ≤ i ∧ i < 8 * words := by
      intro i
      rw [getBit_foldl_setBit _ _ _ hin, BitWords.getBit_replicate_zero]
      simp only [Bool.false_eq_true, false_or, List.mem_range'_1]
      constructor
      · rintro ⟨j, hj, rfl⟩
        omega
      · intro hi
        exact ⟨i - (words - 1) * 8, by omega, by omega⟩
    refine ⟨trivial, ⟨rfl, h, ?_, ?_⟩, ?_⟩
    · rw [length_foldl_setBit, List.length_replicate]
      exact hwords.symm
    · intro i hi hlt
      rw [length_foldl_setBit, List.length_replicate] at hlt
      exact (hbit i).mpr ⟨hi, hlt⟩
    · intro i hi
      rw [← Bool.not_eq_true]
      intro hset
      have hge := (hbit i).mp hset
      omega
  · intro hwhole
    rw [wp_pure]
    refine ⟨rfl, ⟨rfl, h, ?_, ?_⟩, ?_⟩
    · rw [List.length_replicate]
      exact hwords.symm
    · intro i hi hlt
      rw [List.length_replicate] at hlt
      omega
    · intro i _
      exact BitWords.getBit_replicate_zero words i

end Padding

/-! ### Bitmaps and sets -/

section Sets

variable {nbits : ℕ} {b : Bitmap} {S : Set ℕ}

/-- The bitmap stands for the set. -/
structure Stands (nbits : ℕ) (S : Set ℕ) (b : Bitmap) : Prop where
  padded : b.Padded nbits
  isset_iff : ∀ i < nbits, b.isset i = true ↔ i ∈ S

section

variable {i : ℕ} (h : Stands nbits S b) (hi : i < nbits)
include h hi

theorem Stands.mark :
  Stands nbits (insert i S) (b.mark i)
  := by
  constructor
  · exact h.padded.mark hi
  · intro j hj
    rw [h.padded.isset_mark hi, Bool.or_eq_true, h.isset_iff j hj, decide_eq_true_eq,
      Set.mem_insert_iff, eq_comm, or_comm]

theorem Stands.unmarked :
  Stands nbits (S \ {i}) (b.unmarked i)
  := by
  constructor
  · exact h.padded.unmarked hi
  · intro j hj
    rw [isset_unmarked, Bool.and_eq_true, h.isset_iff j hj, decide_eq_true_eq, Set.mem_sdiff,
      Set.mem_singleton_iff, ne_comm]

theorem Stands.isset_eq_false_iff :
  b.isset i = false ↔ i ∉ S
  := by
  rw [← h.isset_iff i hi, Bool.not_eq_true]

end

/-- What `bitmap_isset` returns tells whether the bit is set. -/
theorem bitmapIsset_ne_zero_iff (b : Bitmap) (index : ℕ) :
  b.bitmapIsset index ≠ 0 ↔ b.isset index = true
  := by
  have hmod : index % 8 < 8 := Nat.mod_lt _ (by decide)
  rw [bitmapIsset, isset, BitWords.getBit]
  generalize b.v.getD (index / 8) 0 = x
  constructor
  · intro hne
    by_contra hclear
    apply hne
    have hzero : x &&& BitVec.twoPow 8 (index % 8) = 0#8 := by
      apply BitVec.eq_of_getLsbD_eq
      intro i hi
      rw [BitVec.getLsbD_and, BitVec.getLsbD_twoPow, BitVec.getLsbD_zero]
      by_cases heq : index % 8 = i
      · rw [← heq, Bool.not_eq_true] at *
        rw [hclear, Bool.false_and]
      · simp [heq]
    rw [hzero]
    rfl
  · intro hset hzero
    have hbits : x &&& BitVec.twoPow 8 (index % 8) = 0#8 := BitVec.eq_of_toNat_eq hzero
    have hbit : (x &&& BitVec.twoPow 8 (index % 8)).getLsbD (index % 8) = false := by
      rw [hbits, BitVec.getLsbD_zero]
    rw [BitVec.getLsbD_and, hset, BitVec.getLsbD_twoPow] at hbit
    simp [hmod] at hbit

/-- Every call on a bitmap is a call on its set. -/
theorem refines (nbits : ℕ) :
  Object.Refines exec (spec nbits) (may nbits) (Stands nbits)
  := by
  intro c S b h hmay
  cases c with
  | alloc =>
    simp only [exec, wp_bind, wp_attempt]
    apply wp_mono (alloc_padded h.padded)
    · rintro i b' ⟨hi, hclear, hleast, rfl⟩
      rw [wp_pure]
      refine ⟨insert i S, ⟨⟨hi, (h.isset_eq_false_iff hi).mp hclear, ?_⟩, rfl⟩, h.mark hi⟩
      intro j hj
      exact (h.isset_iff j (Nat.lt_trans hj hi)).mp (hleast j hj)
    · rintro e b' ⟨rfl, hall, rfl⟩
      rw [wp_pure]
      refine ⟨S, ⟨rfl, ?_, rfl⟩, h⟩
      intro j hj
      exact (h.isset_iff j hj).mp (hall j hj)
  | mark index =>
    obtain ⟨hi, hnot⟩ := hmay
    have hnbits := h.padded.nbits_eq
    simp only [exec, bitmapMark, wp_bind, wp_get, wp_assert, wp_modify, wp_pure]
    exact ⟨by omega, (h.isset_eq_false_iff hi).mpr hnot, _, rfl, h.mark hi⟩
  | unmark index =>
    obtain ⟨hi, hmem⟩ := hmay
    have hnbits := h.padded.nbits_eq
    simp only [exec, wp_bind, wp_pure]
    apply wp_sure (unmark_spec (by omega) ((h.isset_iff index hi).mpr hmem))
    rintro _ b' rfl
    exact ⟨_, rfl, h.unmarked hi⟩
  | isset index =>
    simp only [exec, wp_bind, wp_get, wp_pure]
    refine ⟨S, ⟨?_, rfl⟩, h⟩
    rw [bitmapIsset_ne_zero_iff, h.isset_iff index hmay]

/-- `bitmap_create` makes a bitmap that in every sequence of calls behaves as a set of indices
that is empty at first, and no assertion fails. -/
theorem replies_set (h : nbits ≤ 2 ^ 32 - 8) :
  ∃ b, create nbits () = .ok b () ∧ ∀ cs,
    Object.Admitted exec (spec nbits) (may nbits) cs ∅ b →
      ∃ rs b' S, Object.replies exec cs b = .ok rs b'
        ∧ Object.Follows (spec nbits) ∅ cs rs S ∧ ∀ i < nbits, b'.isset i = true ↔ i ∈ S
  := by
  obtain ⟨b, s', hcreate, rfl, hpadded, hclear⟩ := exists_ok (create_padded (s := ()) h)
  refine ⟨b, hcreate, ?_⟩
  intro cs hadmitted
  have hstands : Stands nbits ∅ b := by
    constructor
    · exact hpadded
    · intro i hi
      rw [hclear i hi]
      simp
  obtain ⟨rs, b', hrun, S, hfollows, hstands'⟩ :=
    exists_ok ((refines nbits).replies hstands hadmitted)
  exact ⟨rs, b', S, hrun, hfollows, hstands'.isset_iff⟩

/-- A bitmap of 533 bits, of whose last byte three bits belong to no index. -/
theorem replies_set_test :
  ∃ b, create 533 () = .ok b () ∧ ∃ rs b' S,
    Object.replies exec [.alloc, .isset 532] b = .ok rs b'
      ∧ Object.Follows (spec 533) ∅ [.alloc, .isset 532] rs S
      ∧ ∀ i < 533, b'.isset i = true ↔ i ∈ S
  := by
  have hsmall : 533 ≤ 2 ^ 32 - 8 := by decide
  obtain ⟨b, hcreate, hreplies⟩ := replies_set hsmall
  use b, hcreate
  apply hreplies
  have hindex : 532 < 533 := by decide
  exact ⟨trivial, fun _ _ _ _ _ => ⟨hindex, fun _ _ _ _ _ => trivial⟩⟩

end Sets

end Bitmap
