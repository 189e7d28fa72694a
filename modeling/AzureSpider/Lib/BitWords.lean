import Mathlib.Data.List.Basic

/-!
# Sets of indices kept in words of bits

A list of `w`-bit words represents the set of the indices `i` for which the bit `i % w` of
the word `i / w` is set.  `findClear` finds the least index that is not in the set, word by
word and bit by bit.
-/

namespace BitWords

variable {w : ℕ}

/-- The bit at the index `i` is set. -/
def getBit (ws : List (BitVec w)) (i : ℕ) : Bool := (ws.getD (i / w) 0).getLsbD (i % w)

/-- Set the bit at the index `i`. -/
def setBit (ws : List (BitVec w)) (i : ℕ) : List (BitVec w) :=
  ws.modify (i / w) fun x => x ||| BitVec.twoPow w (i % w)

/-- Clear the bit at the index `i`. -/
def clearBit (ws : List (BitVec w)) (i : ℕ) : List (BitVec w) :=
  ws.modify (i / w) fun x => x &&& ~~~BitVec.twoPow w (i % w)

/-- The first clear bit of a word among the `n` bits from `j` on. -/
def firstClear (x : BitVec w) : (n j : ℕ) → Option ℕ
  | 0, _ => none
  | n + 1, j => if x.getLsbD j then firstClear x n (j + 1) else some j

/-- How the search for a clear bit ends: with an index, with all words full, or stuck in a
word that is not full and has no clear bit. -/
inductive Search where
  | found (i : ℕ)
  | full
  | stuck

/-- Find the least index that is not in the set, where the bits of the first word have the
indices from `base` on; full words are skipped. -/
def findClear : List (BitVec w) → (base : ℕ) → Search
  | [], _ => .full
  | x :: xs, base =>
    if x = BitVec.allOnes w then
      findClear xs (base + w)
    else
      match firstClear x w 0 with
      | some j => .found (base + j)
      | none => .stuck

/-! ### Single bits -/

@[simp]
theorem length_setBit (ws : List (BitVec w)) (i : ℕ) :
  (setBit ws i).length = ws.length
  := by
  simp [setBit]

@[simp]
theorem length_clearBit (ws : List (BitVec w)) (i : ℕ) :
  (clearBit ws i).length = ws.length
  := by
  simp [clearBit]

variable {ws : List (BitVec w)}

theorem getBit_eq_false_of_le {i : ℕ} (hw : 0 < w) (h : w * ws.length ≤ i) :
  getBit ws i = false
  := by
  have hlen : ws.length ≤ i / w := (Nat.le_div_iff_mul_le hw).mpr (by rwa [Nat.mul_comm])
  simp [getBit, List.getD_eq_getElem?_getD, List.getElem?_eq_none hlen]

theorem getBit_replicate_zero (n i : ℕ) :
  getBit (List.replicate n (0 : BitVec w)) i = false
  := by
  rw [getBit, List.getD_eq_getElem?_getD, List.getElem?_replicate]
  split <;> simp

/-- Two indices are the same when they have the same word and the same bit in it. -/
theorem eq_iff_div_mod (i j : ℕ) :
  i = j ↔ i / w = j / w ∧ i % w = j % w
  := by
  constructor
  · rintro rfl
    exact ⟨rfl, rfl⟩
  · rintro ⟨hdiv, hmod⟩
    rw [← Nat.div_add_mod i w, ← Nat.div_add_mod j w, hdiv, hmod]

theorem getBit_setBit {i : ℕ} (hw : 0 < w) (h : i < w * ws.length) (j : ℕ) :
  getBit (setBit ws i) j = (getBit ws j || decide (i = j))
  := by
  have hlen : i / w < ws.length := by
    apply Nat.div_lt_of_lt_mul h
  simp only [getBit, setBit, List.getD_eq_getElem?_getD, List.getElem?_modify]
  by_cases hdiv : i / w = j / w
  · have hget : ws[j / w]? = some ws[j / w] := List.getElem?_eq_getElem (hdiv ▸ hlen)
    simp only [hdiv, if_true, hget, Option.map_eq_map, Option.map_some, Option.getD_some,
      BitVec.getLsbD_or, BitVec.getLsbD_twoPow, Nat.mod_lt i hw, decide_true, Bool.true_and]
    congr 1
    rw [decide_eq_decide, eq_iff_div_mod (w := w) i j]
    simp [hdiv]
  · have hne : i ≠ j := fun hij => hdiv (congrArg (· / w) hij)
    simp [hdiv, hne]

theorem getBit_clearBit (hw : 0 < w) (i j : ℕ) :
  getBit (clearBit ws i) j = (getBit ws j && decide (i ≠ j))
  := by
  simp only [getBit, clearBit, List.getD_eq_getElem?_getD, List.getElem?_modify]
  by_cases hdiv : i / w = j / w
  · cases hget : ws[j / w]? with
    | none => simp [hdiv]
    | some x =>
      simp only [hdiv, if_true, Option.map_eq_map, Option.map_some,
        Option.getD_some, BitVec.getLsbD_and, BitVec.getLsbD_not, BitVec.getLsbD_twoPow,
        Nat.mod_lt j hw, Nat.mod_lt i hw, decide_true, Bool.true_and]
      congr 1
      rw [← decide_not, decide_eq_decide, not_iff_not, eq_iff_div_mod (w := w) i j]
      simp [hdiv]
  · have hne : i ≠ j := fun hij => hdiv (congrArg (· / w) hij)
    simp [hdiv, hne]

/-! ### Taking the first clear bit -/

variable {x : BitVec w}

theorem firstClear_eq_some :
    ∀ {n j k : ℕ}, firstClear x n j = some k →
      j ≤ k ∧ k < j + n ∧ x.getLsbD k = false ∧ ∀ i, j ≤ i → i < k → x.getLsbD i = true
  | n + 1, j, k, h => by
      unfold firstClear at h
      split at h
      next hj =>
        obtain ⟨hle, hlt, hk, hall⟩ := firstClear_eq_some h
        use by omega, by omega, hk
        intro i hi hik
        rcases Nat.eq_or_lt_of_le hi with rfl | hi
        · apply hj
        · apply hall i hi hik
      next hj =>
        simp only [Option.some.injEq] at h
        subst h
        use Nat.le_refl _, by omega, by simpa using hj
        intro i hi hik
        omega

theorem firstClear_eq_none {x : BitVec w} :
    ∀ {n j : ℕ}, firstClear x n j = none → ∀ i, j ≤ i → i < j + n → x.getLsbD i = true
  | 0, j, _, i, hi, hlt => by omega
  | n + 1, j, h, i, hi, hlt => by
      unfold firstClear at h
      split at h
      next hj =>
        rcases Nat.eq_or_lt_of_le hi with rfl | hi
        · apply hj
        · apply firstClear_eq_none h i hi (by omega)
      next => simp at h

/-- A word that is not full has a clear bit. -/
theorem exists_firstClear (h : x ≠ BitVec.allOnes w) :
  ∃ k, firstClear x w 0 = some k
  := by
  cases hx : firstClear x w 0 with
  | some k => use k
  | none =>
    exfalso
    apply h
    apply BitVec.eq_of_getLsbD_eq
    intro i hi
    rw [firstClear_eq_none hx i (Nat.zero_le i) (by omega)]
    simp [hi]

theorem getBit_cons_of_lt {xs : List (BitVec w)} {i : ℕ} (h : i < w) :
  getBit (x :: xs) i = x.getLsbD i
  := by
  simp [getBit, Nat.div_eq_of_lt h, Nat.mod_eq_of_lt h]

theorem getBit_cons_add {xs : List (BitVec w)} (hw : 0 < w) (i : ℕ) :
  getBit (x :: xs) (i + w) = getBit xs i
  := by
  simp [getBit, Nat.add_div_right i hw]

/-- The index `findClear` finds is the least clear one. -/
theorem findClear_found (hw : 0 < w) :
    ∀ {ws : List (BitVec w)} {base i : ℕ}, findClear ws base = .found i →
      ∃ k, i = base + k ∧ k < w * ws.length ∧ getBit ws k = false
        ∧ ∀ j < k, getBit ws j = true
  | x :: xs, base, i, h => by
      unfold findClear at h
      split at h
      next hfull =>
        obtain ⟨k, rfl, hlt, hclear, hall⟩ := findClear_found hw h
        use k + w
        use by omega
        use by rw [List.length_cons, Nat.mul_succ]; omega
        use by rw [getBit_cons_add hw, hclear]
        intro j hj
        rcases Nat.lt_or_ge j w with hjw | hjw
        · rw [getBit_cons_of_lt hjw, hfull]
          simp [hjw]
        · obtain ⟨j, rfl⟩ := Nat.exists_eq_add_of_le' hjw
          rw [getBit_cons_add hw]
          apply hall j (by omega)
      next =>
        split at h
        next k hk =>
          obtain ⟨-, hlt, hclear, hall⟩ := firstClear_eq_some hk
          rw [Nat.zero_add] at hlt
          simp only [Search.found.injEq] at h
          use k, h.symm
          use by rw [List.length_cons, Nat.mul_succ]; omega
          use by rw [getBit_cons_of_lt hlt, hclear]
          intro j hj
          rw [getBit_cons_of_lt (by omega)]
          apply hall j (Nat.zero_le j) hj
        next => simp at h

/-- When `findClear` finds all words full, every index is in the set. -/
theorem findClear_full (hw : 0 < w) :
    ∀ {ws : List (BitVec w)} {base : ℕ}, findClear ws base = .full →
      ∀ i < w * ws.length, getBit ws i = true
  | [], _, _, i, hi => by simp at hi
  | x :: xs, base, h, i, hi => by
      unfold findClear at h
      split at h
      next hfull =>
        rcases Nat.lt_or_ge i w with hiw | hiw
        · rw [getBit_cons_of_lt hiw, hfull]
          simp [hiw]
        · obtain ⟨i, rfl⟩ := Nat.exists_eq_add_of_le' hiw
          rw [getBit_cons_add hw]
          rw [List.length_cons, Nat.mul_succ] at hi
          apply findClear_full hw h i (by omega)
      next => split at h <;> simp at h

/-- The search does not get stuck. -/
theorem findClear_ne_stuck :
    ∀ (ws : List (BitVec w)) (base : ℕ), findClear ws base ≠ .stuck
  | [], base => by simp [findClear]
  | x :: xs, base => by
      unfold findClear
      split
      next => apply findClear_ne_stuck
      next hfull =>
        obtain ⟨k, hk⟩ := exists_firstClear hfull
        simp [hk]

end BitWords
