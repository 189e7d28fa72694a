import AzureSpider.Lib.Machine

/-!
# `memmove`

`memcpy.c` and `memmove.c`.  Both copy units of `w` bytes, which are single bytes or words of
`sizeof(long)` bytes; a unit is read as a whole before it is written.  `memmove` goes forward
through `memcpy` when the destination is below the source, and backward otherwise.
-/

open Machine

namespace Memmove

/-- The bytes at all addresses. -/
abbrev Memory : Type := ℕ → UInt8

/-- The memory with the `len` bytes that were at `src` also at `dst`. -/
def copied (dst src len : ℕ) (mem : Memory) : Memory :=
  fun a => if dst ≤ a ∧ a < dst + len then mem (src + (a - dst)) else mem a

/-- `d[i] = s[i]`, for pointers to units of `w` bytes. -/
def assign (w dst src i : ℕ) (mem : Memory) : Memory :=
  copied (u32 (dst + i * w)) (u32 (src + i * w)) w mem

/-- The loops of `memcpy`, with `n` units left. -/
def forward (w dst src : ℕ) : (n i : ℕ) → Memory → Memory
  | 0, _, mem => mem
  | n + 1, i, mem => forward w dst src n (i + 1) (assign w dst src i mem)

/-- The loops of `memmove`, with `i` units left. -/
def backward (w dst src : ℕ) : (i : ℕ) → Memory → Memory
  | 0, mem => mem
  | i + 1, mem => backward w dst src i (assign w dst src i mem)

/-- `sizeof(long)`. -/
def sizeofLong : ℕ := 4

/-- The pointers and the length are multiples of the word size. -/
def Aligned (dst src len : ℕ) : Prop :=
  dst % sizeofLong = 0 ∧ src % sizeofLong = 0 ∧ len % sizeofLong = 0

instance (dst src len : ℕ) : Decidable (Aligned dst src len) :=
  inferInstanceAs (Decidable (_ ∧ _ ∧ _))

/-- `memcpy`: what it returns, and the memory afterwards. -/
def memcpy (dst src len : ℕ) (mem : Memory) : ℕ × Memory :=
  if Aligned dst src len then
    (dst, forward sizeofLong dst src (len / sizeofLong) 0 mem)
  else
    (dst, forward 1 dst src len 0 mem)

/-- `memmove`: what it returns, and the memory afterwards. -/
def memmove (dst src len : ℕ) (mem : Memory) : ℕ × Memory :=
  if dst < src then
    memcpy dst src len mem
  else if Aligned dst src len then
    (dst, backward sizeofLong dst src (len / sizeofLong) mem)
  else
    (dst, backward 1 dst src len mem)

/-! ### What the loops copy -/

variable {w dst src len : ℕ} {mem : Memory}

theorem copied_zero :
  copied dst src 0 mem = mem
  := by
  funext a
  apply if_neg
  omega

/-- The next bytes of a copy to a lower address have not been overwritten. -/
theorem copied_next (h : dst ≤ src) (k : ℕ) :
  copied (dst + k) (src + k) w (copied dst src k mem) = copied dst src (k + w) mem
  := by
  funext a
  simp only [copied]
  by_cases hnew : dst + k ≤ a ∧ a < dst + k + w
  · have heq : src + k + (a - (dst + k)) = src + (a - dst) := by omega
    rw [if_pos hnew, if_neg (by omega), if_pos (by omega), heq]
  · rw [if_neg hnew]
    by_cases hold : dst ≤ a ∧ a < dst + k
    · rw [if_pos hold, if_pos (by omega)]
    · rw [if_neg hold, if_neg (by omega)]

/-- The bytes before a copy to a higher address have not been overwritten. -/
theorem copied_before (h : src ≤ dst) (k : ℕ) :
  copied dst src w (copied (dst + w) (src + w) k mem) = copied dst src (w + k) mem
  := by
  funext a
  simp only [copied]
  by_cases hnew : dst ≤ a ∧ a < dst + w
  · rw [if_pos hnew, if_neg (by omega), if_pos (by omega)]
  · rw [if_neg hnew]
    by_cases hold : dst + w ≤ a ∧ a < dst + w + k
    · have heq : src + w + (a - (dst + w)) = src + (a - dst) := by omega
      rw [if_pos hold, if_pos (by omega), heq]
    · rw [if_neg hold, if_neg (by omega)]

/-- The ranges do not wrap around the address space. -/
structure InSpace (dst src len : ℕ) : Prop where
  dst_le : dst + len ≤ 2 ^ 32
  src_le : src + len ≤ 2 ^ 32

theorem InSpace.assign {i n : ℕ} (h : InSpace dst src (n * w)) (hw : 0 < w) (hi : i < n) :
  assign w dst src i mem = copied (dst + i * w) (src + i * w) w mem
  := by
  obtain ⟨hdst, hsrc⟩ := h
  have hend : (i + 1) * w ≤ n * w := Nat.mul_le_mul_right w hi
  rw [Nat.add_mul, Nat.one_mul] at hend
  have hd : u32 (dst + i * w) = dst + i * w := Nat.mod_eq_of_lt (by omega)
  have hs : u32 (src + i * w) = src + i * w := Nat.mod_eq_of_lt (by omega)
  rw [Memmove.assign, hd, hs]

/-- The forward loop copies to lower addresses. -/
theorem forward_spec (hw : 0 < w) (h : dst ≤ src) {n : ℕ} (hlen : n * w = len)
    (hin : InSpace dst src len) :
  forward w dst src n 0 mem = copied dst src len mem
  := by
  subst hlen
  -- after `i` units
  have hrest : ∀ m i, InSpace dst src ((i + m) * w) →
      forward w dst src m i (copied dst src (i * w) mem) = copied dst src ((i + m) * w) mem := by
    intro m
    induction m with
    | zero =>
      intro i _
      rfl
    | succ m ih =>
      intro i hin
      have hsum : i + (m + 1) = i + 1 + m := by omega
      rw [hsum] at hin ⊢
      rw [forward, hin.assign hw (by omega), copied_next h, ← Nat.succ_mul]
      apply ih (i + 1) hin
  have hloop := hrest n 0 (by rwa [Nat.zero_add])
  rwa [Nat.zero_mul, copied_zero, Nat.zero_add] at hloop

/-- The backward loop copies to higher addresses. -/
theorem backward_spec (hw : 0 < w) (h : src ≤ dst) {n : ℕ} (hlen : n * w = len)
    (hin : InSpace dst src len) :
  backward w dst src n mem = copied dst src len mem
  := by
  subst hlen
  -- with `i` units left
  have hrest : ∀ i k, i ≤ n → backward w dst src i (copied (dst + i * w) (src + i * w) k mem)
      = copied dst src (i * w + k) mem := by
    intro i
    induction i with
    | zero =>
      intro k _
      rw [backward, Nat.zero_mul, Nat.zero_add, Nat.add_zero, Nat.add_zero]
    | succ i ih =>
      intro k hi
      have hbefore : src + i * w ≤ dst + i * w := Nat.add_le_add_right h _
      rw [Nat.succ_mul, ← Nat.add_assoc, ← Nat.add_assoc, backward, hin.assign hw hi,
        copied_before hbefore, ih _ (by omega), Nat.add_assoc]
  have hloop := hrest n 0 (Nat.le_refl n)
  rwa [copied_zero] at hloop

theorem Aligned.words (h : Aligned dst src len) :
  len / sizeofLong * sizeofLong = len
  := Nat.div_mul_cancel (Nat.dvd_of_mod_eq_zero h.2.2)

/-- `memcpy` copies to lower addresses. -/
theorem memcpy_spec (h : dst ≤ src) (hin : InSpace dst src len) :
  memcpy dst src len mem = (dst, copied dst src len mem)
  := by
  rw [memcpy]
  split
  next hal => rw [forward_spec (by decide) h hal.words hin]
  next => rw [forward_spec Nat.one_pos h (Nat.mul_one len) hin]

/-- `memmove` copies the bytes that were at the source, and changes no other byte. -/
theorem memmove_copies (dst src len : ℕ) (mem : Memory) (hin : InSpace dst src len) :
  (memmove dst src len mem).1 = dst
    ∧ (∀ i < len, (memmove dst src len mem).2 (dst + i) = mem (src + i))
    ∧ ∀ a, a < dst ∨ dst + len ≤ a → (memmove dst src len mem).2 a = mem a
  := by
  have hmove : memmove dst src len mem = (dst, copied dst src len mem) := by
    rw [memmove]
    split
    next hlt => apply memcpy_spec (Nat.le_of_lt hlt) hin
    next hge =>
      have hle : src ≤ dst := Nat.le_of_not_lt hge
      split
      next hal => rw [backward_spec (by decide) hle hal.words hin]
      next => rw [backward_spec Nat.one_pos hle (Nat.mul_one len) hin]
  rw [hmove]
  refine ⟨rfl, ?_, ?_⟩
  · intro i hi
    have heq : dst + i - dst = i := Nat.add_sub_cancel_left dst i
    simp only [copied]
    rw [if_pos (by omega), heq]
  · intro a ha
    apply if_neg
    omega

/-- Two words that overlap are moved up by one. -/
theorem memmove_copies_words :
  (memmove 8 4 8 fun a => UInt8.ofNat a).1 = 8 ∧ (memmove 8 4 8 fun a => UInt8.ofNat a).2 11 = 7
  := by
  obtain ⟨hdst, hbytes, -⟩ := memmove_copies 8 4 8 (fun a => UInt8.ofNat a) ⟨by decide, by decide⟩
  exact ⟨hdst, hbytes 3 (by decide)⟩

end Memmove
