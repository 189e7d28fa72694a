import Mathlib.Data.List.Nodup

/-!
# Linked lists

`Linked next p ℓ`: following `next` from `p` visits exactly the cells of `ℓ`, in order,
and stops.  `unlink` walks along a linked list with a pointer to the place that refers to
the next cell, and lets that place skip the cell that is to be removed.
-/

variable {α : Type}

/-- Following `next` from `p` visits the cells of the list and stops. -/
def Linked (next : α → Option α) : Option α → List α → Prop
  | none, [] => True
  | some a, b :: l => a = b ∧ Linked next (next a) l
  | _, _ => False

namespace Linked

variable {next next' : α → Option α} {p : Option α} {a : α} {l : List α}

@[simp]
theorem nil_iff :
  Linked next p [] ↔ p = none
  := by
  cases p with
  | none | some => simp [Linked]

@[simp]
theorem cons_iff :
  Linked next p (a :: l) ↔ p = some a ∧ Linked next (next a) l
  := by
  cases p with
  | none => simp [Linked]
  | some b =>
    constructor
    · rintro ⟨rfl, h⟩
      exact ⟨rfl, h⟩
    · rintro ⟨⟨⟩, h⟩
      exact ⟨rfl, h⟩

/-- The list depends on `next` at its own cells only. -/
theorem congr (h : Linked next p l) (heq : ∀ a ∈ l, next' a = next a) :
  Linked next' p l
  := by
  induction l generalizing p with
  | nil => simpa using h
  | cons a l ih =>
    rw [cons_iff] at h ⊢
    use h.1
    rw [heq a List.mem_cons_self]
    apply ih h.2
    intro b hb
    apply heq b (List.mem_cons_of_mem a hb)

/-- Cells that each refer to the one before it are linked from the last one to the first. -/
theorem reverse_range {f : ℕ → α} (hfirst : next (f 0) = none) :
    ∀ n, (∀ j < n, next (f (j + 1)) = some (f j)) →
      Linked next (some (f n)) ((List.range (n + 1)).map f).reverse
  | 0, _ => by simp [hfirst]
  | n + 1, hnext => by
      have hprev : ∀ j < n, next (f (j + 1)) = some (f j) := by
        intro j hj
        apply hnext j (by omega)
      rw [List.range_succ, List.map_append, List.reverse_append, List.map_singleton,
        List.reverse_singleton, List.singleton_append, cons_iff, hnext n (by omega)]
      exact ⟨rfl, reverse_range hfirst n hprev⟩

end Linked

/-! ### Removal -/

/-- A place that refers to a cell: the start of the list, or the `next` field of a cell. -/
inductive Place (α : Type) where
  | base
  | field (a : α)

namespace Place

variable [DecidableEq α]

/-- What the place refers to. -/
def read (base : Option α) (next : α → Option α) : Place α → Option α
  | .base => base
  | .field a => next a

/-- Let the place refer to something else. -/
def write (base : Option α) (next : α → Option α) (p : Option α) :
    Place α → Option α × (α → Option α)
  | .base => (p, next)
  | .field a => (base, Function.update next a p)

/-- Walk along the list and remove the cell `x`; `none` when the list is longer than the
fuel. -/
def unlink (x : α) (base : Option α) (next : α → Option α) :
    ℕ → Place α → Option (Option α × (α → Option α))
  | 0, _ => none
  | n + 1, g =>
    match g.read base next with
    | none => some (base, next)
    | some c =>
      if c = x then some (g.write base next (next x)) else unlink x base next n (.field c)

/-- The walk from a place whose list is `l₁ ++ x :: l₂` makes it the list `l₁ ++ l₂`, and
changes only the place and the `next` fields of `l₁`. -/
theorem unlink_spec {x : α} {base : Option α} {next : α → Option α} {l₂ : List α} :
    ∀ (l₁ : List α) (n : ℕ) (g : Place α), l₁.length < n →
      Linked next (g.read base next) (l₁ ++ x :: l₂) → (l₁ ++ x :: l₂).Nodup →
      (∀ c, g = .field c → c ∉ l₁ ++ x :: l₂) →
      ∃ base' next', unlink x base next n g = some (base', next')
        ∧ Linked next' (g.read base' next') (l₁ ++ l₂)
        ∧ (∀ a, a ∉ l₁ → g ≠ .field a → next' a = next a)
        ∧ (g ≠ .base → base' = base)
  | [], n + 1, g, _, hchain, hnodup, hout => by
      simp only [List.nil_append, Linked.cons_iff] at hchain
      obtain ⟨hread, hrest⟩ := hchain
      cases g with
      | base =>
        use next x, next
        simp only [read] at hread
        simp [unlink, read, write, hread, hrest]
      | field c =>
        use base, Function.update next c (next x)
        have hc : c ∉ l₂ := by
          intro hmem
          apply hout c rfl
          simp [hmem]
        simp only [read] at hread
        refine ⟨?_, ?_, ?_, ?_⟩
        · simp [unlink, read, write, hread]
        · simp only [read, Function.update_self, List.nil_append]
          apply hrest.congr
          intro a ha
          apply Function.update_of_ne
          rintro rfl
          apply hc ha
        · intro a _ ha
          apply Function.update_of_ne
          rintro rfl
          apply ha rfl
        · simp
  | c :: l₁, n + 1, g, hfuel, hchain, hnodup, hout => by
      simp only [List.cons_append, Linked.cons_iff] at hchain
      obtain ⟨hread, hrest⟩ := hchain
      simp only [List.cons_append, List.nodup_cons] at hnodup
      obtain ⟨hc, hnodup⟩ := hnodup
      have hcx : c ≠ x := by
        rintro rfl
        apply hc
        simp
      simp only [List.length_cons] at hfuel
      obtain ⟨base', next', hrun, hchain', hframe, hbase⟩ :=
        unlink_spec l₁ n (.field c) (by omega) hrest hnodup
          (by rintro _ ⟨⟩; apply hc)
      use base', next'
      refine ⟨?_, ?_, ?_, ?_⟩
      · simp only [unlink, hread, if_neg hcx]
        apply hrun
      · simp only [List.cons_append, Linked.cons_iff]
        constructor
        · cases g with
          | base =>
            simp only [read] at hread ⊢
            rw [hbase (by simp), hread]
          | field d =>
            have hd := hout d rfl
            simp only [List.cons_append, List.mem_cons, List.mem_append, not_or] at hd
            simp only [read] at hread ⊢
            rw [hframe d hd.2.1 (by simp [Ne.symm hd.1]), hread]
        · apply hchain'
      · intro a ha hg
        simp only [List.mem_cons, not_or] at ha
        apply hframe a ha.2
        simp [Ne.symm ha.1]
      · intro _
        apply hbase (by simp)

end Place
