import Mathlib.Data.Set.Basic
import Mathlib.Tactic.Common

/-!
# Accounts of an allocator

An allocator hands out numbers and records which ones are in use.  The numbers in use are
held in cells; a cell that holds none is `0`.

`Account used cell` states that the cells hold numbers that are in use, each at most once.
`Account.Foreign used cell b` states that `b` is in use, and not held in one of the cells.
`Ledger fixed used cell` states that the numbers in use are exactly the fixed ones and the
ones held in the cells, each held once.  A change to one account of a ledger that leaves the
foreign numbers as they are keeps the ledger (`Ledger.splice`).
-/

/-- The cells hold numbers in use, each at most once. -/
structure Account {κ : Type} (used : ℕ → Prop) (cell : κ → ℕ) : Prop where
  used : ∀ k, cell k ≠ 0 → used (cell k)
  inj : ∀ k l, cell k ≠ 0 → cell k = cell l → k = l

/-- A number in use that is not held in one of the cells. -/
def Account.Foreign {κ : Type} (used : ℕ → Prop) (cell : κ → ℕ) (b : ℕ) : Prop :=
  used b ∧ ∀ k, cell k = b → b = 0

namespace Account

variable {κ : Type} {used used' : ℕ → Prop} {cell cell' : κ → ℕ} {b : ℕ} {k : κ}

/-- A number in use is foreign or held in a cell. -/
theorem foreign_or (b : ℕ) (hb : used b) :
  Foreign used cell b ∨ ∃ k, cell k = b ∧ b ≠ 0
  := by
  by_cases h : ∃ k, cell k = b ∧ b ≠ 0
  · right
    apply h
  · left
    refine ⟨hb, ?_⟩
    intro k hk
    by_contra hne
    exact h ⟨k, hk, hne⟩

section Assign

variable [DecidableEq κ]

/-- A number that was free is put in a cell. -/
theorem assign (h : Account used cell) (hb : ¬ used b)
    (hused : ∀ c, used' c ↔ used c ∨ c = b) (hcell : cell' = Function.update cell k b) :
  Account used' cell'
  := by
  subst hcell
  have hother : ∀ l, cell l ≠ 0 → cell l ≠ b := fun l hl heq => hb (heq ▸ h.used l hl)
  constructor
  · intro l hl
    rw [Function.update_apply] at hl ⊢
    rw [hused]
    split_ifs at hl ⊢
    · exact .inr rfl
    · exact .inl (h.used l hl)
  · intro l m hl heq
    simp only [Function.update_apply] at hl heq
    split_ifs at hl heq with hlk hmk hmk
    · exact hlk.trans hmk.symm
    · exact absurd heq.symm (hother m (heq ▸ hl))
    · exact absurd heq (hother l hl)
    · exact h.inj l m hl heq

theorem foreign_assign (hk : cell k = 0) (hb : ¬ used b) (hb0 : b ≠ 0)
    (hused : ∀ c, used' c ↔ used c ∨ c = b) (hcell : cell' = Function.update cell k b)
    (c : ℕ) :
  Foreign used' cell' c ↔ Foreign used cell c
  := by
  subst hcell
  constructor
  · rintro ⟨hc, hout⟩
    have hne : c ≠ b := by
      rintro rfl
      apply hb0 (hout k (Function.update_self ..))
    refine ⟨((hused c).mp hc).resolve_right hne, ?_⟩
    intro l hl
    by_cases hlk : l = k
    · rw [← hl, hlk, hk]
    · apply hout l
      rwa [Function.update_of_ne hlk]
  · rintro ⟨hc, hout⟩
    refine ⟨(hused c).mpr (.inl hc), ?_⟩
    intro l hl
    rw [Function.update_apply] at hl
    split_ifs at hl
    · exact absurd (hl ▸ hc) hb
    · apply hout l hl

end Assign

/-- Some cells are emptied, and their numbers freed. -/
theorem release (h : Account used cell) {gone : κ → Prop}
    (hgone : ∀ k, gone k → cell' k = 0) (hkeep : ∀ k, ¬ gone k → cell' k = cell k)
    (hused : ∀ c, used' c ↔ used c ∧ ∀ k, gone k → cell k = c → c = 0) :
  Account used' cell'
  := by
  have hsame : ∀ k, cell' k ≠ 0 → cell' k = cell k ∧ ¬ gone k := by
    intro k hk
    have hng : ¬ gone k := fun hg => hk (hgone k hg)
    exact ⟨hkeep k hng, hng⟩
  constructor
  · intro k hk
    obtain ⟨heq, hng⟩ := hsame k hk
    rw [heq] at hk ⊢
    rw [hused]
    exact ⟨h.used k hk, fun l hl hlk => absurd (h.inj k l hk hlk.symm ▸ hl) hng⟩
  · intro k l hk heq
    have hl : cell' l ≠ 0 := by
      rw [← heq]
      apply hk
    have hk' := (hsame k hk).1
    have hl' := (hsame l hl).1
    rw [hk'] at hk heq
    rw [hl'] at heq
    apply h.inj k l hk heq

theorem foreign_release {gone : κ → Prop}
    (hgone : ∀ k, gone k → cell' k = 0) (hkeep : ∀ k, ¬ gone k → cell' k = cell k)
    (hused : ∀ c, used' c ↔ used c ∧ ∀ k, gone k → cell k = c → c = 0) (c : ℕ) :
  Foreign used' cell' c ↔ Foreign used cell c
  := by
  constructor
  · rintro ⟨hc, hout⟩
    obtain ⟨hc, hfree⟩ := (hused c).mp hc
    refine ⟨hc, ?_⟩
    intro k hk
    by_cases hg : gone k
    · apply hfree k hg hk
    · apply hout k
      rw [hkeep k hg]
      apply hk
  · rintro ⟨hc, hout⟩
    refine ⟨(hused c).mpr ⟨hc, fun k _ hk => hout k hk⟩, ?_⟩
    intro k hk
    by_cases hg : gone k
    · rw [← hk]
      apply hgone k hg
    · rw [hkeep k hg] at hk
      apply hout k hk

section Emptied

variable (h : Account used cell) (h' : Account used' cell')
  (hcell : ∀ k, cell' k = 0 ∨ cell' k = cell k)
  (hforeign : ∀ c, Foreign used' cell' c ↔ Foreign used cell c)

include h h' hcell hforeign

/-- When cells are emptied, what is still in use of the numbers they held is what is still
held. -/
theorem used_emptied (hk : cell k ≠ 0) :
  used' (cell k) ↔ cell' k = cell k
  := by
  constructor
  · intro hb
    rcases (foreign_or (cell k) hb : Foreign used' cell' (cell k) ∨ _) with hf | ⟨l, hl, hne⟩
    · exact absurd (((hforeign _).mp hf).2 k rfl) hk
    · rcases hcell l with hzero | hsame
      · exact absurd (hl.symm.trans hzero) hne
      · have hkl := h.inj k l hk (hl.symm.trans hsame)
        rw [hkl, hsame]
  · intro heq
    rw [← heq] at hk ⊢
    exact h'.used k hk

omit h h' in
/-- When cells are emptied, the numbers that were not held in them are left. -/
theorem used_emptied_of_not_held (hb : ∀ k, cell k = b → b = 0) :
  used' b ↔ used b
  := by
  constructor
  · intro hused
    rcases (foreign_or b hused : Foreign used' cell' b ∨ _) with hf | ⟨l, hl, hne⟩
    · exact ((hforeign b).mp hf).1
    · rcases hcell l with hzero | hsame
      · exact absurd (hl.symm.trans hzero) hne
      · exact absurd (hb l (hsame.symm.trans hl)) hne
  · intro hused
    exact ((hforeign b).mpr ⟨hused, hb⟩).1

end Emptied

end Account

/-- The numbers in use are the fixed ones and the ones held in the cells, each once. -/
structure Ledger {ι κ : Type} (fixed used : ℕ → Prop) (cell : ι → κ → ℕ) : Prop where
  used_iff : ∀ b, used b ↔ fixed b ∨ ∃ i k, cell i k = b ∧ b ≠ 0
  inj : ∀ i k j l, cell i k ≠ 0 → cell i k = cell j l → i = j ∧ k = l
  apart : ∀ i k, cell i k ≠ 0 → ¬ fixed (cell i k)

namespace Ledger

variable {ι κ : Type} {fixed used used' : ℕ → Prop} {cell cell' : ι → κ → ℕ}

variable (h : Ledger fixed used cell)
include h

/-- Each account of a ledger. -/
theorem account (i : ι) :
  Account used (cell i)
  := by
  constructor
  · intro k hk
    rw [h.used_iff]
    right
    exact ⟨i, k, rfl, hk⟩
  · intro k l hk heq
    exact (h.inj i k i l hk heq).2

theorem foreign_fixed (i : ι) {b : ℕ} (hb : fixed b) :
  Account.Foreign used (cell i) b
  := by
  refine ⟨(h.used_iff b).mpr (.inl hb), ?_⟩
  intro k hk
  by_contra hne
  rw [← hk] at hb hne
  apply h.apart i k hne hb

/-- What one account holds is foreign to another. -/
theorem foreign_other {i j : ι} (hij : j ≠ i) {k : κ} (hk : cell j k ≠ 0) :
  Account.Foreign used (cell i) (cell j k)
  := by
  refine ⟨(h.account j).used k hk, ?_⟩
  intro l hl
  exfalso
  apply hij
  exact (h.inj j k i l hk hl.symm).1

/-- A change to one account that leaves what is foreign to it keeps the ledger. -/
theorem splice (i : ι) (hsame : ∀ j, j ≠ i → cell' j = cell j) (hacc : Account used' (cell' i))
    (hforeign : ∀ b, Account.Foreign used' (cell' i) b ↔ Account.Foreign used (cell i) b) :
  Ledger fixed used' cell'
  := by
  have hfixed : ∀ b, fixed b → Account.Foreign used' (cell' i) b := by
    intro b hb
    apply (hforeign b).mpr (h.foreign_fixed i hb)
  have hother : ∀ j k, j ≠ i → cell' j k ≠ 0 → Account.Foreign used' (cell' i) (cell' j k) := by
    intro j k hj hk
    rw [hsame j hj] at hk ⊢
    apply (hforeign _).mpr (h.foreign_other hj hk)
  refine ⟨?_, ?_, ?_⟩
  · intro b
    constructor
    · intro hb
      rcases (Account.foreign_or b hb : Account.Foreign used' (cell' i) b ∨ _)
        with hf | ⟨k, hk, hne⟩
      · have hf' := (hforeign b).mp hf
        rcases (h.used_iff b).mp hf'.1 with hfix | ⟨j, k, hk, hne⟩
        · exact .inl hfix
        · have hj : j ≠ i := by
            rintro rfl
            apply hne (hf'.2 k hk)
          exact .inr ⟨j, k, by rw [hsame j hj, hk], hne⟩
      · exact .inr ⟨i, k, hk, hne⟩
    · rintro (hfix | ⟨j, k, rfl, hne⟩)
      · apply (hfixed b hfix).1
      · by_cases hj : j = i
        · subst hj
          apply hacc.used k hne
        · apply (hother j k hj hne).1
  · intro j k j' l hk heq
    by_cases hj : j = i
    · subst hj
      by_cases hj' : j' = j
      · subst hj'
        exact ⟨rfl, hacc.inj k l hk heq⟩
      · exfalso
        rw [heq] at hk
        apply hk ((hother j' l hj' hk).2 k heq)
    · by_cases hj' : j' = i
      · subst hj'
        exfalso
        apply hk ((hother j k hj hk).2 l heq.symm)
      · rw [hsame j hj] at hk heq
        rw [hsame j' hj'] at heq
        apply h.inj j k j' l hk heq
  · intro j k hk hfix
    by_cases hj : j = i
    · subst hj
      apply hk ((hfixed _ hfix).2 k rfl)
    · rw [hsame j hj] at hk hfix
      apply h.apart j k hk hfix

/-- A number that was fixed is put in a cell of an empty account. -/
theorem adopt [DecidableEq ι] [DecidableEq κ] {fixed' : ℕ → Prop} {i : ι} {k : κ} {b : ℕ}
    (hb : fixed b) (hb0 : b ≠ 0) (hfixed : ∀ c, fixed' c ↔ fixed c ∧ c ≠ b)
    (hcell : ∀ j l, cell' j l = if j = i ∧ l = k then b else cell j l) (hi : cell i k = 0) :
  Ledger fixed' used cell'
  := by
  have hother : ∀ j l, cell j l ≠ 0 → cell j l ≠ b := by
    intro j l hne heq
    apply h.apart j l hne
    rw [heq]
    apply hb
  refine ⟨?_, ?_, ?_⟩
  · intro c
    rw [h.used_iff, hfixed]
    constructor
    · rintro (hc | ⟨j, l, rfl, hne⟩)
      · by_cases hcb : c = b
        · subst hcb
          exact .inr ⟨i, k, by rw [hcell, if_pos ⟨rfl, rfl⟩], hb0⟩
        · exact .inl ⟨hc, hcb⟩
      · right
        refine ⟨j, l, ?_, hne⟩
        rw [hcell, if_neg]
        rintro ⟨rfl, rfl⟩
        exact hne hi
    · rintro (⟨hc, -⟩ | ⟨j, l, hjl, hne⟩)
      · exact .inl hc
      · rw [hcell] at hjl
        split at hjl
        · subst hjl
          exact .inl hb
        · exact .inr ⟨j, l, hjl, hne⟩
  · intro j l j' l' hne heq
    simp only [hcell] at hne heq
    split_ifs at hne heq with hin hin' hin'
    · exact ⟨hin.1.trans hin'.1.symm, hin.2.trans hin'.2.symm⟩
    · exact absurd heq.symm (hother j' l' (heq ▸ hb0))
    · exact absurd heq (hother j l hne)
    · exact h.inj j l j' l' hne heq
  · intro j l hne hfix
    rw [hcell] at hne hfix
    rw [hfixed] at hfix
    split_ifs at hne hfix
    · exact hfix.2 rfl
    · exact h.apart j l hne hfix.1

/-- A number that was free is fixed. -/
theorem fix {fixed' : ℕ → Prop} {b : ℕ} (hb : ¬ used b) (hfixed : ∀ c, fixed' c ↔ fixed c ∨ c = b)
    (hused : ∀ c, used' c ↔ used c ∨ c = b) :
  Ledger fixed' used' cell
  := by
  refine ⟨?_, h.inj, ?_⟩
  · intro c
    rw [hused, h.used_iff, hfixed]
    exact or_right_comm
  · intro i k hne hfix
    rcases (hfixed _).mp hfix with hf | heq
    · exact h.apart i k hne hf
    · apply hb
      rw [← heq]
      exact (h.account i).used k hne

end Ledger
