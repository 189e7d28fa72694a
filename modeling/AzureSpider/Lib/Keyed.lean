import Mathlib.Algebra.BigOperators.Group.List.Basic
import Mathlib.Data.List.Nodup

/-!
# Tables with keys

A finite table of entries that carry their own keys, no two of them the same.  The order of the
entries has no meaning: what a table determines is its look-ups and its totals, the sums of a
function over its entries in a commutative monoid.
-/

/-- A table of entries with distinct keys. -/
structure Keyed {α κ : Type} (key : α → κ) where
  entries : List α
  nodup : (entries.map key).Nodup

namespace Keyed

variable {α κ : Type} {key : α → κ}

/-- The table without entries. -/
def empty (key : α → κ) : Keyed key := ⟨[], List.nodup_nil⟩

/-- The table with each entry changed and its key kept. -/
def map (m : Keyed key) (f : α → α) (hf : ∀ a, key (f a) = key a) : Keyed key where
  entries := m.entries.map f
  nodup := by
    rw [List.map_map, show key ∘ f = key from funext hf]
    exact m.nodup

variable [DecidableEq κ]

/-- The entry of a key. -/
def get (m : Keyed key) (k : κ) : Option α := m.entries.find? fun a => key a = k

/-- The table without the entry of a key. -/
def remove (m : Keyed key) (k : κ) : Keyed key where
  entries := m.entries.filter fun a => key a ≠ k
  nodup := m.nodup.sublist (List.filter_sublist.map key)

/-- The table with an entry that replaces the one of its key, if there is one. -/
def put (m : Keyed key) (a : α) : Keyed key where
  entries := (m.remove (key a)).entries ++ [a]
  nodup := by
    rw [List.map_append, List.map_singleton, ← List.concat_eq_append]
    apply List.Nodup.concat _ (m.remove (key a)).nodup
    simp [remove]

/-- The sum of a function over the entries. -/
def total {M : Type} [AddCommMonoid M] (m : Keyed key) (g : α → M) : M := (m.entries.map g).sum

/-! ### Look-ups -/

variable {m : Keyed key} {k : κ} {a : α}

theorem mem_of_get (h : m.get k = some a) :
  a ∈ m.entries ∧ key a = k
  := by
  refine ⟨List.mem_of_find?_eq_some h, ?_⟩
  have hkey := List.find?_some h
  simpa using hkey

theorem get_eq_none :
  m.get k = none ↔ ∀ a ∈ m.entries, key a ≠ k
  := by
  simp [get]

/-- An entry is found under its key. -/
theorem get_of_mem (h : a ∈ m.entries) :
  m.get (key a) = some a
  := by
  cases hget : m.get (key a) with
  | none => exact absurd rfl (get_eq_none.mp hget a h)
  | some b =>
    obtain ⟨hb, hkey⟩ := mem_of_get hget
    rw [List.inj_on_of_nodup_map m.nodup hb h hkey]

theorem mem_remove :
  a ∈ (m.remove k).entries ↔ a ∈ m.entries ∧ key a ≠ k
  := by
  simp [remove]

theorem mem_put {a b : α} :
  b ∈ (m.put a).entries ↔ (b ∈ m.entries ∧ key b ≠ key a) ∨ b = a
  := by
  simp [put, remove]

omit [DecidableEq κ] in
theorem mem_map {f : α → α} (hf : ∀ a, key (f a) = key a) {b : α} :
  b ∈ (m.map f hf).entries ↔ ∃ a ∈ m.entries, f a = b
  := by
  simp [map]

theorem get_put_self (m : Keyed key) (a : α) :
  (m.put a).get (key a) = some a
  := get_of_mem (mem_put.mpr (.inr rfl))

theorem get_remove_self (m : Keyed key) (k : κ) :
  (m.remove k).get k = none
  := get_eq_none.mpr fun _ ha => (mem_remove.mp ha).2

/-- Look-ups agree if the entries of the key do. -/
theorem get_congr {m m' : Keyed key} (h : ∀ a, key a = k → (a ∈ m'.entries ↔ a ∈ m.entries)) :
  m'.get k = m.get k
  := by
  cases hget : m.get k with
  | none =>
    apply get_eq_none.mpr
    intro a ha hkey
    exact get_eq_none.mp hget a ((h a hkey).mp ha) hkey
  | some a =>
    obtain ⟨ha, rfl⟩ := mem_of_get hget
    exact get_of_mem ((h a rfl).mpr ha)

theorem get_put_of_ne (h : k ≠ key a) :
  (m.put a).get k = m.get k
  := by
  apply get_congr
  rintro b rfl
  rw [mem_put]
  constructor
  · rintro (⟨hb, -⟩ | rfl)
    · exact hb
    · exact absurd rfl h
  · exact fun hb => .inl ⟨hb, h⟩

theorem get_remove_of_ne {k k' : κ} (h : k' ≠ k) :
  (m.remove k).get k' = m.get k'
  := by
  apply get_congr
  rintro b rfl
  rw [mem_remove, and_iff_left h]

theorem get_map {f : α → α} {hf : ∀ a, key (f a) = key a} :
  (m.map f hf).get k = (m.get k).map f
  := by
  cases hget : m.get k with
  | none =>
    apply get_eq_none.mpr
    intro b hb
    obtain ⟨a, ha, rfl⟩ := (mem_map hf).mp hb
    rw [hf]
    exact get_eq_none.mp hget a ha
  | some a =>
    obtain ⟨ha, rfl⟩ := mem_of_get hget
    rw [← hf a]
    exact get_of_mem ((mem_map hf).mpr ⟨a, ha, rfl⟩)

/-! ### Totals -/

section Total

variable {M : Type} [AddCommMonoid M]

omit [DecidableEq κ] in
theorem total_map (m : Keyed key) (f : α → α) (hf : ∀ a, key (f a) = key a) (g : α → M) :
  (m.map f hf).total g = m.total (g ∘ f)
  := by
  simp only [total, map, List.map_map]

omit [DecidableEq κ] in
theorem total_congr {g g' : α → M} (h : ∀ a ∈ m.entries, g a = g' a) :
  m.total g = m.total g'
  := by
  rw [total, total, List.map_congr_left h]

omit [DecidableEq κ] in
theorem total_add (m : Keyed key) (g g' : α → M) :
  m.total (fun a => g a + g' a) = m.total g + m.total g'
  := List.sum_map_add

omit [DecidableEq κ] in
/-- A homomorphism is applied to a total entry by entry. -/
theorem map_total {N : Type} [AddCommMonoid N] (m : Keyed key) (φ : M →+ N) (g : α → M) :
  φ (m.total g) = m.total (φ ∘ g)
  := by
  rw [total, total, map_list_sum, List.map_map]

omit [DecidableEq κ] in
/-- Two tables with the same entries have the same totals. -/
theorem total_eq_of_mem_iff {m m' : Keyed key} (h : ∀ a, a ∈ m'.entries ↔ a ∈ m.entries)
    (g : α → M) :
  m'.total g = m.total g
  := by
  have hperm : m'.entries.Perm m.entries :=
    (List.perm_ext_iff_of_nodup m'.nodup.of_map m.nodup.of_map).mpr h
  exact (hperm.map g).sum_eq

theorem total_put (m : Keyed key) (a : α) (g : α → M) :
  (m.put a).total g = (m.remove (key a)).total g + g a
  := by
  simp [total, put]

/-- A table without an entry is not changed by removing it. -/
theorem total_remove_of_none (h : m.get k = none) (g : α → M) :
  (m.remove k).total g = m.total g
  := by
  apply total_eq_of_mem_iff
  intro a
  rw [mem_remove]
  exact and_iff_left_of_imp (get_eq_none.mp h a)

/-- What an entry contributes to a total. -/
theorem total_of_get (h : m.get k = some a) (g : α → M) :
  m.total g = (m.remove k).total g + g a
  := by
  obtain ⟨ha, rfl⟩ := mem_of_get h
  rw [← total_put]
  apply total_eq_of_mem_iff
  intro b
  rw [mem_put]
  constructor
  · intro hb
    rcases eq_or_ne (key b) (key a) with hkey | hkey
    · exact .inr (List.inj_on_of_nodup_map m.nodup hb ha hkey)
    · exact .inl ⟨hb, hkey⟩
  · rintro (⟨hb, -⟩ | rfl)
    · exact hb
    · exact ha

/-- A total to which only the entry of one key contributes. -/
theorem total_eq_single {g : α → M} (h : m.get k = some a)
    (hzero : ∀ b ∈ m.entries, key b ≠ k → g b = 0) :
  m.total g = g a
  := by
  have hrest : (m.remove k).total g = 0 := by
    apply List.sum_eq_zero
    intro x hx
    obtain ⟨b, hb, rfl⟩ := List.mem_map.mp hx
    obtain ⟨hmem, hne⟩ := mem_remove.mp hb
    exact hzero b hmem hne
  rw [total_of_get h, hrest, zero_add]

end Total

end Keyed
