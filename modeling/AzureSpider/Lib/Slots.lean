import Mathlib.Data.List.Perm.Basic
import Mathlib.Data.List.Nodup
import Mathlib.Data.List.ReduceOption

/-!
# Tables of slots

A table of slots holds entries in some of its slots.  An entry is put in a free slot, or in a
new slot behind the last one, and a slot is cleared.  The entries of a table, without regard to
their slots, are known up to permutation; entries that are pairs of a name and a value with
different names make a finite map.
-/

namespace Slots

section Entries

variable {α : Type} {t : List (Option α)} {k : ℕ} {a : α} {o : Option α}

/-- The entries of a table, in the order of their slots. -/
def entries (t : List (Option α)) : List α := t.reduceOption

/-- The table with other contents of a slot; the slot behind the last one is added. -/
def put (t : List (Option α)) (k : ℕ) (o : Option α) : List (Option α) :=
  if k < t.length then t.set k o else t ++ [o]

theorem mem_entries :
  a ∈ entries t ↔ some a ∈ t
  := List.reduceOption_mem_iff

theorem entries_append (t u : List (Option α)) :
  entries (t ++ u) = entries t ++ entries u
  := List.reduceOption_append t u

theorem getElem?_put (hk : k ≤ t.length) (l : ℕ) :
  (put t k o)[l]? = if l = k then some o else t[l]?
  := by
  unfold put
  split
  · next hlt =>
      rw [List.getElem?_set]
      by_cases hl : k = l
      · subst hl
        simp [hlt]
      · rw [if_neg hl, if_neg (Ne.symm hl)]
  · next hge =>
      obtain rfl : k = t.length := by omega
      rw [List.getElem?_append]
      by_cases hl : l < t.length
      · rw [if_pos hl, if_neg (by omega)]
      · rw [if_neg hl]
        by_cases heq : l = t.length
        · subst heq
          simp
        · rw [if_neg heq, List.getElem?_eq_none (by rw [List.length_singleton]; omega),
            List.getElem?_eq_none (by omega)]

/-- The entries of a table and the contents of one of its slots. -/
theorem entries_set_perm (hk : k < t.length) :
  (entries (t.set k o)).Perm (o.toList ++ entries (t.take k ++ t.drop (k + 1)))
  := by
  have hsplit : t.set k o = t.take k ++ ([o] ++ t.drop (k + 1)) := by
    rw [List.set_eq_take_append_cons_drop, if_pos hk, List.singleton_append]
  have hone : entries [o] = o.toList := by
    cases o with
    | none | some => rfl
  rw [hsplit, entries_append, entries_append, entries_append, hone]
  apply List.perm_append_comm_assoc

/-- The contents of a slot and the entries of the other slots are the entries of a table. -/
theorem entries_perm (hk : t[k]? = some o) :
  (entries t).Perm (o.toList ++ entries (t.take k ++ t.drop (k + 1)))
  := by
  obtain ⟨hlt, rfl⟩ := List.getElem?_eq_some_iff.mp hk
  have hperm := entries_set_perm (o := t[k]) hlt
  rwa [List.set_getElem_self hlt] at hperm

/-- An entry is put in a free slot or in a new one. -/
theorem entries_put_perm (hfree : ∀ b, t[k]? ≠ some (some b)) :
  (entries (put t k (some a))).Perm (a :: entries t)
  := by
  unfold put
  split_ifs with hlt
  · have hnone : t[k]? = some none := by
      rw [List.getElem?_eq_getElem hlt]
      cases hslot : t[k] with
      | none => rfl
      | some b =>
        exfalso
        apply hfree b
        rw [List.getElem?_eq_getElem hlt, hslot]
    have hold : (entries t).Perm (entries (t.take k ++ t.drop (k + 1))) := entries_perm hnone
    apply (entries_set_perm hlt).trans
    exact hold.symm.cons a
  · rw [entries_append]
    exact List.perm_append_singleton a (entries t)

theorem entries_clear_perm (hk : t[k]? = some (some a)) :
  (entries t).Perm (a :: entries (put t k none))
  := by
  obtain ⟨hlt, -⟩ := List.getElem?_eq_some_iff.mp hk
  rw [put, if_pos hlt]
  apply (entries_perm hk).trans
  exact (entries_set_perm (o := none) hlt).symm.cons a

end Entries

/-! ### Named entries -/

section Names

variable {ν ι : Type} [DecidableEq ν] {t : List (Option (ν × ι))} {k l : ℕ} {x y : ν} {i j : ι}

/-- The entries have different names. -/
def Distinct (t : List (Option (ν × ι))) : Prop := ((entries t).map Prod.fst).Nodup

/-- The value of the entry with a name. -/
def lookup (t : List (Option (ν × ι))) (x : ν) : Option ι :=
  ((entries t).find? fun e => e.1 = x).map Prod.snd

omit [DecidableEq ν] in
theorem Distinct.eq (h : Distinct t) (hi : (x, i) ∈ entries t) (hj : (x, j) ∈ entries t) :
  i = j
  := by
  have heq := List.inj_on_of_nodup_map h hi hj rfl
  exact (Prod.mk.inj heq).2

theorem mem_of_lookup (h : lookup t x = some i) :
  (x, i) ∈ entries t
  := by
  obtain ⟨e, hfind, rfl⟩ := Option.map_eq_some_iff.mp h
  have hname : e.1 = x := by simpa using List.find?_some hfind
  rw [← hname]
  exact List.mem_of_find?_eq_some hfind

theorem lookup_eq_some (h : Distinct t) :
  lookup t x = some i ↔ (x, i) ∈ entries t
  := by
  constructor
  · exact mem_of_lookup
  · intro hi
    cases hl : lookup t x with
    | none =>
      rw [lookup, Option.map_eq_none_iff, List.find?_eq_none] at hl
      exact absurd (decide_eq_true rfl) (hl (x, i) hi)
    | some j => rw [h.eq hi (mem_of_lookup hl)]

theorem lookup_eq_none :
  lookup t x = none ↔ ∀ i, (x, i) ∉ entries t
  := by
  rw [lookup, Option.map_eq_none_iff, List.find?_eq_none]
  constructor
  · intro h i hi
    exact absurd (decide_eq_true rfl) (h (x, i) hi)
  · rintro h ⟨y, i⟩ hi
    simp only [decide_eq_true_eq]
    rintro rfl
    exact h i hi

omit [DecidableEq ν] in
/-- A name is in one slot only. -/
theorem Distinct.slot_eq (h : Distinct t) (hk : t[k]? = some (some (x, i)))
    (hl : t[l]? = some (some (x, j))) :
  k = l
  := by
  by_contra hne
  -- once the slot is cleared, the name is gone
  have hperm := (entries_clear_perm hk).map Prod.fst
  have hnodup := (hperm.nodup_iff.mp h)
  rw [List.map_cons, List.nodup_cons] at hnodup
  apply hnodup.1
  apply List.mem_map.mpr ⟨(x, j), mem_entries.mpr ?_, rfl⟩
  have hlt := (List.getElem?_eq_some_iff.mp hk).1
  have hkeep := getElem?_put (t := t) (o := none) (Nat.le_of_lt hlt) l
  rw [if_neg (Ne.symm hne), hl] at hkeep
  exact List.mem_of_getElem? hkeep

omit [DecidableEq ν] in
theorem Distinct.put (h : Distinct t) (hfree : ∀ b, t[k]? ≠ some (some b))
    (hx : ∀ j, (x, j) ∉ entries t) :
  Distinct (put t k (some (x, i)))
  := by
  have hperm := (entries_put_perm (a := (x, i)) hfree).map Prod.fst
  apply hperm.nodup_iff.mpr
  rw [List.map_cons, List.nodup_cons]
  refine ⟨?_, h⟩
  intro hmem
  obtain ⟨⟨y, j⟩, hj, rfl⟩ := List.mem_map.mp hmem
  exact hx j hj

omit [DecidableEq ν] in
theorem Distinct.clear (h : Distinct t) (hk : t[k]? = some (some (x, i))) :
  Distinct (Slots.put t k none)
  := by
  have hperm := (entries_clear_perm hk).map Prod.fst
  have hnodup := hperm.nodup_iff.mp h
  rw [List.map_cons, List.nodup_cons] at hnodup
  exact hnodup.2

/-- A table with different names is a finite map, to which an entry is added. -/
theorem lookup_put (h : Distinct t) (hfree : ∀ b, t[k]? ≠ some (some b)) (hx : lookup t x = none) :
  lookup (put t k (some (x, i))) = Function.update (lookup t) x (some i)
  := by
  have hx' := lookup_eq_none.mp hx
  have hdistinct := h.put (i := i) hfree hx'
  have hmem : ∀ e, e ∈ entries (put t k (some (x, i))) ↔ e = (x, i) ∨ e ∈ entries t := by
    intro e
    rw [(entries_put_perm hfree).mem_iff, List.mem_cons]
  funext y
  apply Option.ext
  intro j
  rw [lookup_eq_some hdistinct, hmem]
  by_cases hy : y = x
  · subst hy
    simp [Function.update_self, hx', eq_comm]
  · rw [Function.update_of_ne hy, lookup_eq_some h]
    simp [hy]

/-- A table with different names is a finite map, from which an entry is taken. -/
theorem lookup_clear (h : Distinct t) (hk : t[k]? = some (some (x, i))) :
  lookup (put t k none) = Function.update (lookup t) x none
  := by
  have hdistinct := h.clear hk
  have hperm := entries_clear_perm hk
  have hgone : ∀ j, (x, j) ∉ entries (put t k none) := by
    intro j hj
    have hnodup := (hperm.map Prod.fst).nodup_iff.mp h
    rw [List.map_cons, List.nodup_cons] at hnodup
    exact hnodup.1 (List.mem_map.mpr ⟨(x, j), hj, rfl⟩)
  funext y
  by_cases hy : y = x
  · subst hy
    rw [Function.update_self, lookup_eq_none]
    exact hgone
  · rw [Function.update_of_ne hy]
    apply Option.ext
    intro j
    rw [lookup_eq_some hdistinct, lookup_eq_some h, hperm.mem_iff, List.mem_cons]
    simp [hy]

/-- A table that has one name more has one entry more. -/
theorem entries_perm_of_lookup {t' : List (Option (ν × ι))} (h : Distinct t) (h' : Distinct t')
    (hx : lookup t x = none) (hmap : lookup t' = Function.update (lookup t) x (some i)) :
  (entries t').Perm ((x, i) :: entries t)
  := by
  have hnot := lookup_eq_none.mp hx
  have hnodup : ((x, i) :: entries t).Nodup := List.nodup_cons.mpr ⟨hnot i, h.of_map⟩
  apply (List.perm_ext_iff_of_nodup h'.of_map hnodup).mpr
  rintro ⟨y, j⟩
  rw [← lookup_eq_some h', hmap, List.mem_cons]
  by_cases hy : y = x
  · subst hy
    rw [Function.update_self]
    constructor
    · rintro ⟨⟩
      exact .inl rfl
    · rintro (heq | hmem)
      · rw [(Prod.mk.inj heq).2]
      · exact absurd hmem (hnot j)
  · rw [Function.update_of_ne hy, lookup_eq_some h]
    simp [hy]

end Names

/-! ### Counting values -/

section Count

variable {ν ι : Type} [DecidableEq ι] {t : List (Option (ν × ι))} {k : ℕ} {x : ν} {i : ι}

/-- The number of slots with a value. -/
def count (t : List (Option (ν × ι))) (i : ι) : ℕ := ((entries t).map Prod.snd).count i

/-- One entry more is counted for its value. -/
theorem count_perm {t' : List (Option (ν × ι))} (h : (entries t').Perm ((x, i) :: entries t))
    (j : ι) :
  count t' j = count t j + if j = i then 1 else 0
  := by
  rw [count, (h.map Prod.snd).count_eq, List.map_cons, List.count_cons, count]
  have hsym : ((i == j) = true) = (j = i) := by
    rw [beq_iff_eq]
    exact propext eq_comm
  simp only [hsym]

theorem count_put (hfree : ∀ b, t[k]? ≠ some (some b)) (j : ι) :
  count (put t k (some (x, i))) j = count t j + if j = i then 1 else 0
  := count_perm (entries_put_perm hfree) j

theorem count_clear (hk : t[k]? = some (some (x, i))) (j : ι) :
  count t j = count (put t k none) j + if j = i then 1 else 0
  := count_perm (entries_clear_perm hk) j

theorem count_pos_iff :
  0 < count t i ↔ ∃ x, (x, i) ∈ entries t
  := by
  rw [count, List.count_pos_iff, List.mem_map]
  constructor
  · rintro ⟨⟨x, j⟩, hmem, rfl⟩
    exact ⟨x, hmem⟩
  · rintro ⟨x, hmem⟩
    exact ⟨(x, i), hmem, rfl⟩

theorem count_le_length (t : List (Option (ν × ι))) (i : ι) :
  count t i ≤ t.length
  := by
  calc count t i
      ≤ ((entries t).map Prod.snd).length := List.count_le_length
    _ = (entries t).length := List.length_map _
    _ ≤ t.length := List.reduceOption_length_le t

end Count

end Slots
