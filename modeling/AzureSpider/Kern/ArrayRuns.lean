import AzureSpider.Errno
import AzureSpider.Lib.Machine
import AzureSpider.Lib.Object
import Mathlib.Data.List.Basic

/-!
# Arrays are lists

The resizable arrays of `array.c` as the code stores them: the number of pointers, the capacity,
and the storage, which is NULL or a block of slots.  The sizes are 32-bit integers, `kmalloc` may
fail, and an access outside of the storage is a panic of its own.

In every sequence of calls the array behaves as a list.  A call fails only if it needs storage and
`kmalloc` has no memory.  A slot that has never been written is `none`.
-/

open Machine Routine

/-- The assertions of `array.c`. -/
inductive ArrayPanic where
  | getguyNum | getguyIndex | setguyNum | setguyIndex | removeNum | removeIndex
  | preallocateNum | setsizeNum | setsizeStorage
  -- an access to NULL or past the end of the storage
  | outside
  -- a loop that does not end
  | endless
  deriving DecidableEq, Repr

/-- `struct array`, and the coming answers of `kmalloc`; after them, it succeeds. -/
structure KArray (α : Type) where
  num : ℤ
  max : ℤ
  v : Option (List (Option α))
  mems : List Bool

namespace KArray

variable {α : Type}

/-- A routine on an array. -/
abbrev Run (α β : Type) : Type := Routine Errno ArrayPanic (KArray α) β

/-- The next answer of `kmalloc`. -/
def mem (mems : List Bool) : Bool := mems.head?.getD true

/-- `kmalloc` for `n` pointers. -/
def kmalloc (n : ℤ) : Run α (Option (List (Option α))) := do
  let a ← get
  modify fun a => { a with mems := a.mems.tail }
  if mem a.mems then
    pure (some (List.replicate (toU32 (n * 4) / 4) none))
  else
    pure none

/-- `a->v[i]`. -/
def load (i : ℕ) : Run α (Option α) := do
  let a ← get
  match a.v with
  | none => Routine.panic .outside
  | some slots =>
    match slots[i]? with
    | none => Routine.panic .outside
    | some x => pure x

/-- `a->v[i] = x`. -/
def store (i : ℕ) (x : Option α) : Run α Unit := do
  let a ← get
  match a.v with
  | none => Routine.panic .outside
  | some slots =>
    if i < slots.length then
      modify fun a => { a with v := some (slots.set i x) }
    else
      Routine.panic .outside

/-- `array_getguy`. -/
def getguy (index : ℤ) : Run α (Option α) := do
  let a ← get
  assert (a.num ≤ a.max) .getguyNum
  assert (0 ≤ index ∧ index < a.num) .getguyIndex
  load index.toNat

/-- The loop of `array_preallocate` that finds the new capacity.  32 rounds are more than the
capacities below `2 ^ 31` need. -/
def growMax (nguys : ℤ) : (rounds : ℕ) → (newmax : ℤ) → Run α ℤ
  | 0, newmax => if newmax < nguys then Routine.panic .endless else pure newmax
  | r + 1, newmax =>
    if newmax < nguys then growMax nguys r (i32 (i32 (newmax + 1) * 2)) else pure newmax

/-- The loop of `array_preallocate` that copies `n` pointers, from the `i`th on. -/
def copyGuys : (n i : ℕ) → List (Option α) → Run α (List (Option α))
  | 0, _, newv => pure newv
  | n + 1, i, newv => do
      let x ← load i
      if i < newv.length then
        copyGuys n (i + 1) (newv.set i x)
      else
        Routine.panic .outside

/-- `array_preallocate`. -/
def preallocate (nguys : ℤ) : Run α Unit := do
  let a ← get
  assert (0 ≤ a.num ∧ a.num ≤ a.max) .preallocateNum
  let newmax ← growMax nguys 32 a.max
  match ← kmalloc newmax with
  | none => fail .enomem
  | some newv => do
      modify fun a => { a with max := newmax }
      let newv ← copyGuys a.num.toNat 0 newv
      modify fun a => { a with v := some newv }

/-- `array_setsize`. -/
def setsize (nguys : ℤ) : Run α Unit := do
  let a ← get
  assert (0 ≤ a.num ∧ a.num ≤ a.max) .setsizeNum
  if a.max < nguys then
    preallocate nguys
  else if nguys = 0 ∧ 16 < a.max then do
    assert (a.v.isSome = true) .setsizeStorage
    modify fun a => { a with v := none, max := 0 }
  modify fun a => { a with num := nguys }

/-- `array_setguy`. -/
def setguy (index : ℤ) (ptr : α) : Run α Unit := do
  let a ← get
  assert (a.num ≤ a.max) .setguyNum
  assert (0 ≤ index ∧ index < a.num) .setguyIndex
  store index.toNat (some ptr)

/-- `array_add`. -/
def add (guy : α) : Run α Unit := do
  let a ← get
  setsize (i32 (a.num + 1))
  store a.num.toNat (some guy)

/-- `memmove` of `n` pointers, from the slot `i + 1` on, one slot down; it copies forwards. -/
def moveDown : (n i : ℕ) → Run α Unit
  | 0, _ => pure ()
  | n + 1, i => do
      let x ← load (i + 1)
      store i x
      moveDown n (i + 1)

/-- `array_remove`. -/
def remove (index : ℤ) : Run α Unit := do
  let a ← get
  assert (a.num ≤ a.max) .removeNum
  assert (0 ≤ index ∧ index < a.num) .removeIndex
  moveDown (a.num - (index + 1)).toNat index.toNat
  modify fun a => { a with num := a.num - 1 }

/-! ### Calls -/

/-- A call on an array. -/
inductive Call (α : Type) where
  | add (guy : α) | remove (index : ℤ) | setguy (index : ℤ) (ptr : α) | getguy (index : ℤ)
  | setsize (nguys : ℤ) | preallocate (nguys : ℤ)

/-- What a call returns. -/
inductive Reply (α : Type) where
  | done | failed (e : Errno) | value (ptr : Option α)

/-- The reply of a call that returns 0 or an error. -/
def status (m : Run α Unit) : Run α (Reply α) := do
  match ← attempt m with
  | .ok () => pure .done
  | .error e => pure (.failed e)

/-- The calls. -/
def exec : Call α → Run α (Reply α)
  | .add guy => status (add guy)
  | .setsize nguys => status (setsize nguys)
  | .preallocate nguys => status (preallocate nguys)
  | .remove index => do
      remove index
      pure .done
  | .setguy index ptr => do
      setguy index ptr
      pure .done
  | .getguy index => do
      let ptr ← getguy index
      pure (.value ptr)

/-- The value of an array: its list, its capacity and the coming answers of `kmalloc`. -/
structure View (α : Type) where
  elems : List (Option α)
  max : ℤ
  mems : List Bool

/-- The capacity becomes enough for `n` pointers; memory is used only if it was not. -/
def Grows (n : ℤ) (v v' : View α) : Prop :=
  if v.max < n then
    mem v.mems = true ∧ n ≤ v'.max ∧ v'.mems = v.mems.tail
  else
    v'.max = v.max ∧ v'.mems = v.mems

/-- There is no memory. -/
def Lacks (v v' : View α) : Prop := mem v.mems = false ∧ v' = { v with mems := v.mems.tail }

/-- The list gets `n` elements, and keeps its first ones. -/
def Resized (n : ℤ) (xs xs' : List (Option α)) : Prop :=
  (xs'.length : ℤ) = n ∧ xs'.take (min n.toNat xs.length) = xs.take (min n.toNat xs.length)

/-- What the calls do to a list. -/
def spec : Call α → View α → Reply α → View α → Prop
  | .add guy, v, .done, v' =>
    v'.elems = v.elems ++ [some guy] ∧ Grows (v.elems.length + 1) v v'
  | .add _, v, .failed e, v' => e = .enomem ∧ v.max ≤ v.elems.length ∧ Lacks v v'
  | .remove index, v, .done, v' => v' = { v with elems := v.elems.eraseIdx index.toNat }
  | .setguy index ptr, v, .done, v' =>
    v' = { v with elems := v.elems.set index.toNat (some ptr) }
  | .getguy index, v, .value ptr, v' => v.elems[index.toNat]? = some ptr ∧ v' = v
  | .setsize nguys, v, .done, v' => Resized nguys v.elems v'.elems
      ∧ if nguys = 0 ∧ 16 < v.max then v'.max = 0 ∧ v'.mems = v.mems else Grows nguys v v'
  | .setsize nguys, v, .failed e, v' => e = .enomem ∧ v.max < nguys ∧ Lacks v v'
  | .preallocate nguys, v, .done, v' => v'.elems = v.elems ∧ mem v.mems = true
      ∧ nguys ≤ v'.max ∧ v.max ≤ v'.max ∧ v'.mems = v.mems.tail
  | .preallocate _, v, .failed e, v' => e = .enomem ∧ Lacks v v'
  | _, _, _, _ => False

/-- A call may be made: indices are in bounds, and sizes are below `2 ^ 29` and not negative. -/
def may : Call α → View α → KArray α → Prop
  | .add _, v, _ => v.elems.length + 1 < 2 ^ 29
  | .remove index, v, _ => 0 ≤ index ∧ index < v.elems.length
  | .setguy index _, v, _ => 0 ≤ index ∧ index < v.elems.length
  | .getguy index, v, _ => 0 ≤ index ∧ index < v.elems.length
  | .setsize nguys, _, _ => 0 ≤ nguys ∧ nguys < 2 ^ 29
  | .preallocate nguys, _, _ => nguys < 2 ^ 29

/-- The array stands for the list. -/
structure Stands (xs : List (Option α)) (a : KArray α) : Prop where
  num : a.num = xs.length
  le : a.num ≤ a.max
  small : a.max < 2 ^ 30 - 1
  null : a.v = none → a.max = 0
  storage : ∀ slots, a.v = some slots → (slots.length : ℤ) = a.max
  elems : ∀ slots, a.v = some slots → slots.take xs.length = xs

/-- The value of an array with the list `xs`. -/
def view (xs : List (Option α)) (a : KArray α) : View α := ⟨xs, a.max, a.mems⟩

/-- The value is that of the array. -/
def Rep (v : View α) (a : KArray α) : Prop := Stands v.elems a ∧ v = view v.elems a

/-! ### Slots -/

section Slots

variable {a : KArray α} {slots newv : List (Option α)} {i n : ℕ}
  {E : Errno → KArray α → Prop}

theorem wp_load {x : Option α} (hv : a.v = some slots) (hx : slots[i]? = some x) (h : Q x a) :
  wp (load i) a Q E
  := by
  simp only [load, wp_bind, wp_get, hv, hx, wp_pure]
  exact h

theorem wp_store {x : Option α} (hv : a.v = some slots) (hi : i < slots.length)
    (h : Q () { a with v := some (slots.set i x) }) :
  wp (store i x) a Q E
  := by
  simp only [store, wp_bind, wp_get, hv]
  rw [if_pos hi, wp_modify]
  exact h

/-- One slot is copied before the next ones are. -/
theorem getElem?_copied {f : ℕ → Option (Option α)} {x : Option α} (hi : i < newv.length)
    (hx : f i = some x) (j : ℕ) :
  (if i + 1 ≤ j ∧ j < i + 1 + n then f j else (newv.set i x)[j]?)
    = if i ≤ j ∧ j < i + (n + 1) then f j else newv[j]?
  := by
  by_cases hji : j = i
  · subst hji
    rw [if_neg (by omega), if_pos (by omega), List.getElem?_set_self hi, hx]
  · have hiff : i + 1 ≤ j ∧ j < i + 1 + n ↔ i ≤ j ∧ j < i + (n + 1) := by omega
    rw [List.getElem?_set_ne (Ne.symm hji)]
    simp only [hiff]

/-- The copy loop of `array_preallocate`, slot by slot. -/
theorem copyGuys_spec (hv : a.v = some slots) (hold : i + n ≤ slots.length)
    (hnew : i + n ≤ newv.length) :
  wp (copyGuys n i newv) a
    (fun newv' a' => a' = a ∧ newv'.length = newv.length
      ∧ ∀ j, newv'[j]? = if i ≤ j ∧ j < i + n then slots[j]? else newv[j]?) E
  := by
  induction n generalizing i newv with
  | zero =>
    rw [copyGuys, wp_pure]
    refine ⟨rfl, rfl, ?_⟩
    intro j
    rw [if_neg (by omega)]
  | succ n ih =>
    have hx : slots[i]? = some slots[i] := List.getElem?_eq_getElem (by omega)
    have hi : i < newv.length := by omega
    simp only [copyGuys, wp_bind]
    apply wp_load hv hx
    rw [if_pos hi]
    have hroom : i + 1 + n ≤ (newv.set i slots[i]).length := by
      rw [List.length_set]
      omega
    apply wp_imp (ih (by omega) hroom)
    rintro newv' a' ⟨rfl, hlength, hget⟩
    refine ⟨rfl, by rw [hlength, List.length_set], ?_⟩
    intro j
    rw [hget j, getElem?_copied hi hx]

/-- The move of `array_remove`, slot by slot: each slot gets what is in the next one. -/
theorem moveDown_spec (hv : a.v = some slots) (hin : n = 0 ∨ i + n < slots.length) :
  wp (moveDown n i) a
    (fun _ a' => ∃ slots', a' = { a with v := some slots' } ∧ slots'.length = slots.length
      ∧ ∀ j, slots'[j]? = if i ≤ j ∧ j < i + n then slots[j + 1]? else slots[j]?) E
  := by
  induction n generalizing i a slots with
  | zero =>
    rw [moveDown, wp_pure]
    refine ⟨slots, by rw [← hv], rfl, ?_⟩
    intro j
    rw [if_neg (by omega)]
  | succ n ih =>
    have hx : slots[i + 1]? = some slots[i + 1] := List.getElem?_eq_getElem (by omega)
    have hi : i < slots.length := by omega
    simp only [moveDown, wp_bind]
    apply wp_load hv hx
    apply wp_store hv hi
    have hroom : n = 0 ∨ i + 1 + n < (slots.set i slots[i + 1]).length := by
      rw [List.length_set]
      omega
    apply wp_imp (ih rfl hroom)
    rintro _ a' ⟨slots', rfl, hlength, hget⟩
    refine ⟨slots', rfl, by rw [hlength, List.length_set], ?_⟩
    intro j
    rw [hget j, ← getElem?_copied (f := fun j => slots[j + 1]?) hi hx]
    split
    · rw [List.getElem?_set_ne (by omega)]
    · rfl

end Slots

/-! ### The calls on a list -/

section Lists

variable {a : KArray α} {xs slots : List (Option α)} {n : ℕ}

/-- The first slots hold the list. -/
theorem take_eq_iff :
  slots.take xs.length = xs ↔ ∀ j < xs.length, slots[j]? = xs[j]?
  := by
  constructor
  · intro h j hj
    have hget : (slots.take xs.length)[j]? = xs[j]? := by rw [h]
    rwa [List.getElem?_take_of_lt hj] at hget
  · intro h
    apply List.ext_getElem?
    intro j
    by_cases hj : j < xs.length
    · rw [List.getElem?_take_of_lt hj, h j hj]
    · rw [List.getElem?_take_eq_none (Nat.le_of_not_lt hj),
        List.getElem?_eq_none (Nat.le_of_not_lt hj)]

namespace Stands

theorem length_le (h : Stands xs a) (hv : a.v = some slots) :
  xs.length ≤ slots.length
  := by
  have hnum := h.num
  have hle := h.le
  have hstorage := h.storage slots hv
  omega

theorem get (h : Stands xs a) (hv : a.v = some slots) {j : ℕ} (hj : j < xs.length) :
  slots[j]? = xs[j]?
  := take_eq_iff.mp (h.elems slots hv) j hj

/-- An array with an element has storage. -/
theorem exists_slots (h : Stands xs a) (hpos : 0 < a.max) :
  ∃ slots, a.v = some slots ∧ (slots.length : ℤ) = a.max
  := by
  cases hv : a.v with
  | none =>
    have hzero := h.null hv
    omega
  | some slots => exact ⟨slots, rfl, h.storage slots hv⟩

/-- The array with other slots. -/
theorem of_slots {xs' slots' : List (Option α)} {num max : ℤ} {mems : List Bool}
    (hnum : num = xs'.length) (hle : num ≤ max) (hsmall : max < 2 ^ 30 - 1)
    (hlength : (slots'.length : ℤ) = max) (hget : ∀ j < xs'.length, slots'[j]? = xs'[j]?) :
  Stands xs' (⟨num, max, some slots', mems⟩ : KArray α)
  := by
  constructor
  · exact hnum
  · exact hle
  · exact hsmall
  · intro hnone
    cases hnone
  · intro slots hv
    cases hv
    exact hlength
  · intro slots hv
    cases hv
    exact take_eq_iff.mpr hget

/-- A slot of an element is written. -/
theorem set (h : Stands xs a) (hv : a.v = some slots) {i : ℕ} (x : Option α) :
  Stands (xs.set i x) { a with v := some (slots.set i x) }
  := by
  have hle := h.length_le hv
  apply of_slots
  · rw [List.length_set]
    exact h.num
  · exact h.le
  · exact h.small
  · rw [List.length_set]
    exact h.storage slots hv
  · intro j hj
    rw [List.length_set] at hj
    rw [List.getElem?_set, List.getElem?_set, h.get hv hj]
    split_ifs with hij hin hin' hin'
    · rfl
    · omega
    · omega
    · rfl
    · rfl

end Stands

/-- An array without storage is empty. -/
theorem stands_null (mems : List Bool) :
  Stands [] (⟨0, 0, none, mems⟩ : KArray α)
  := by
  constructor
  · rfl
  · exact Int.le_refl 0
  · change (0 : ℤ) < 2 ^ 30 - 1
    decide
  · intro _
    rfl
  · intro slots hnone
    cases hnone
  · intro slots hnone
    cases hnone

/-- The loop of `array_preallocate` ends, with a capacity that is large enough. -/
theorem growMax_spec {nguys newmax : ℤ} {r : ℕ} (hnguys : nguys < 2 ^ 29) (hpos : 0 ≤ newmax)
    (hsmall : newmax < 2 ^ 30 - 1) (hr : 2 ^ 29 + 2 ≤ (newmax + 2) * 2 ^ r) :
  wp (growMax nguys r newmax) a
    (fun m a' => a' = a ∧ nguys ≤ m ∧ newmax ≤ m ∧ m < 2 ^ 30 - 1)
  := by
  induction r generalizing newmax with
  | zero =>
    rw [growMax, if_neg (by omega), wp_pure]
    exact ⟨rfl, by omega, Int.le_refl _, hsmall⟩
  | succ r ih =>
    rw [growMax]
    by_cases hlt : newmax < nguys
    · have hnext : i32 (i32 (newmax + 1) * 2) = 2 * newmax + 2 := by
        rw [i32_of_mem (z := newmax + 1) (by omega) (by omega), i32_of_mem (by omega) (by omega)]
        omega
      have hpow : (newmax + 2) * 2 ^ (r + 1) = (2 * newmax + 2 + 2) * 2 ^ r := by
        rw [Int.pow_succ', ← Int.mul_assoc]
        congr 1
        omega
      rw [if_pos hlt, hnext]
      apply wp_imp (ih (by omega) (by omega) (by rw [← hpow]; exact hr))
      rintro m a' ⟨ha', hm, hle, hmsmall⟩
      exact ⟨ha', hm, by omega, hmsmall⟩
    · rw [if_neg hlt, wp_pure]
      exact ⟨rfl, by omega, Int.le_refl _, hsmall⟩

/-- The array is as it was, but for the answers of `kmalloc`. -/
def Same (a a' : KArray α) : Prop := a'.num = a.num ∧ a'.max = a.max ∧ a'.v = a.v

/-- A call has failed since there is no memory. -/
def Refused (a : KArray α) (e : Errno) (a' : KArray α) : Prop :=
  e = .enomem ∧ mem a.mems = false ∧ a' = { a with mems := a.mems.tail }

section

variable (h : Stands xs a)
include h

/-- `array_preallocate` keeps the list. -/
theorem preallocate_spec {nguys : ℤ} (hnguys : nguys < 2 ^ 29) :
  wp (preallocate nguys) a
    (fun _ a' => Stands xs a' ∧ spec (.preallocate nguys) (view xs a) .done (view xs a'))
    (Refused a)
  := by
  have hnum := h.num
  have hle := h.le
  have hsmall := h.small
  simp only [preallocate, wp_bind, wp_get, wp_assert]
  use ⟨by omega, hle⟩
  apply wp_sure (growMax_spec hnguys (by omega) hsmall (by omega))
  rintro newmax a' ⟨rfl, hfits, hgrow, hnewmax⟩
  simp only [kmalloc, wp_bind, wp_get, wp_modify]
  by_cases hmem : mem a'.mems = true
  · have hblock : toU32 (newmax * 4) / 4 = newmax.toNat := by
      unfold toU32
      omega
    simp only [hmem, if_true, wp_pure, wp_bind, wp_modify, hblock]
    -- the new block with the pointers of the old one
    have hcopy : wp (copyGuys a'.num.toNat 0 (List.replicate newmax.toNat none))
        { a' with mems := a'.mems.tail, max := newmax }
        (fun newv a'' => a'' = { a' with mems := a'.mems.tail, max := newmax }
          ∧ newv.length = newmax.toNat ∧ ∀ j < xs.length, newv[j]? = xs[j]?)
        (Refused a') := by
      cases hv : a'.v with
      | none =>
        have hzero := h.null hv
        have hnil : a'.num.toNat = 0 := by omega
        rw [hnil, copyGuys, wp_pure]
        refine ⟨rfl, List.length_replicate, ?_⟩
        intro j hj
        omega
      | some slots =>
        have hstorage := h.storage slots hv
        have hroom : 0 + a'.num.toNat ≤ slots.length := by omega
        have hroom' : 0 + a'.num.toNat
            ≤ (List.replicate newmax.toNat (none : Option α)).length := by
          rw [List.length_replicate]
          omega
        apply wp_imp (copyGuys_spec (by rfl) hroom hroom')
        rintro newv a'' ⟨rfl, hlength, hget⟩
        refine ⟨rfl, by rw [hlength, List.length_replicate], ?_⟩
        intro j hj
        rw [hget j, if_pos (by omega)]
        exact h.get hv hj
    apply wp_imp hcopy
    rintro newv a'' ⟨rfl, hlength, hget⟩
    constructor
    · apply Stands.of_slots hnum _ hnewmax _ hget
      · exact Int.le_trans hle hgrow
      · omega
    · exact ⟨rfl, hmem, hfits, hgrow, rfl⟩
  · simp only [hmem, Bool.false_eq_true, if_false, wp_pure, wp_fail]
    exact ⟨rfl, Bool.eq_false_iff.mpr hmem, rfl⟩

/-- With room for them, more slots are exposed, or some are given up. -/
theorem Stands.setNum {nguys : ℤ} (hpos : 0 ≤ nguys) (hroom : nguys ≤ a.max) :
  ∃ xs', Resized nguys xs xs' ∧ Stands xs' { a with num := nguys }
  := by
  obtain ⟨num, max, v, mems⟩ := a
  have hnum := h.num
  have hle := h.le
  dsimp only at hnum hle hroom
  cases v with
  | none =>
    have hzero := h.null rfl
    dsimp only at hzero
    have hnguys : nguys = 0 := by omega
    subst hzero hnguys
    use []
    constructor
    · exact ⟨rfl, by simp⟩
    · exact stands_null mems
  | some slots =>
    have hstorage := h.storage slots rfl
    dsimp only at hstorage
    have hlength : (slots.take nguys.toNat).length = nguys.toNat := by
      rw [List.length_take]
      omega
    use slots.take nguys.toNat
    constructor
    · constructor
      · rw [hlength]
        omega
      · apply List.ext_getElem?
        intro j
        by_cases hj : j < min nguys.toNat xs.length
        · rw [List.getElem?_take_of_lt hj, List.getElem?_take_of_lt hj,
            List.getElem?_take_of_lt (by omega)]
          exact h.get rfl (by omega)
        · rw [List.getElem?_take_eq_none (Nat.le_of_not_lt hj),
            List.getElem?_take_eq_none (Nat.le_of_not_lt hj)]
    · apply Stands.of_slots _ hroom h.small hstorage
      · intro j hj
        rw [hlength] at hj
        rw [List.getElem?_take_of_lt hj]
      · rw [hlength]
        omega

/-- `array_setsize` keeps the first elements. -/
theorem setsize_spec {nguys : ℤ} (hpos : 0 ≤ nguys) (hnguys : nguys < 2 ^ 29) :
  wp (setsize nguys) a
    (fun _ a' => ∃ xs', spec (.setsize nguys) (view xs a) .done (view xs' a') ∧ Stands xs' a')
    (fun e a' => a.max < nguys ∧ Refused a e a')
  := by
  have hnum := h.num
  have hle := h.le
  simp only [setsize, wp_bind, wp_get, wp_assert]
  use ⟨by omega, hle⟩
  by_cases hmore : a.max < nguys
  · have hstays : ¬ (nguys = 0 ∧ 16 < a.max) := by omega
    rw [if_pos hmore, wp_bind]
    apply wp_mono (preallocate_spec h hnguys)
    · rintro _ a' ⟨h', -, hmem, hfits, -, hmems⟩
      obtain ⟨xs', hresized, hstands⟩ := h'.setNum hpos hfits
      rw [wp_modify]
      refine ⟨xs', ⟨hresized, ?_⟩, hstands⟩
      exact (if_neg hstays).mpr ((if_pos hmore).mpr ⟨hmem, hfits, hmems⟩)
    · intro e a' hrefused
      exact ⟨hmore, hrefused⟩
  rw [if_neg hmore]
  by_cases hdrop : nguys = 0 ∧ 16 < a.max
  · obtain ⟨slots, hv, -⟩ := h.exists_slots (by omega)
    rw [if_pos hdrop]
    simp only [wp_bind, wp_assert, wp_modify]
    use by rw [hv]; rfl
    have hzero := hdrop.1
    subst hzero
    exact ⟨[], ⟨⟨rfl, by simp⟩, (if_pos hdrop).mpr ⟨rfl, rfl⟩⟩, stands_null a.mems⟩
  · rw [if_neg hdrop, wp_modify]
    obtain ⟨xs', hresized, hstands⟩ := h.setNum hpos (Int.le_of_not_gt hmore)
    refine ⟨xs', ⟨hresized, ?_⟩, hstands⟩
    exact (if_neg hdrop).mpr ((if_neg hmore).mpr ⟨rfl, rfl⟩)

/-- `array_add` appends. -/
theorem add_spec (hlength : xs.length + 1 < 2 ^ 29) (guy : α) :
  wp (add guy) a
    (fun _ a' => Stands (xs ++ [some guy]) a'
      ∧ Grows (xs.length + 1) (view xs a) (view (xs ++ [some guy]) a'))
    (fun e a' => a.max < xs.length + 1 ∧ Refused a e a')
  := by
  have hnum := h.num
  have hnext : i32 (a.num + 1) = xs.length + 1 := by
    rw [i32_of_mem (by omega) (by omega), hnum]
  simp only [add, wp_bind, wp_get, hnext]
  apply wp_imp (setsize_spec h (by omega) (by omega))
  rintro _ a' ⟨xs', ⟨⟨hlen, hkeep⟩, hgrows⟩, h'⟩
  rw [if_neg (by omega)] at hgrows
  dsimp only [view] at hlen hkeep
  have hmin : min ((xs.length : ℤ) + 1).toNat xs.length = xs.length := by omega
  rw [hmin, List.take_length] at hkeep
  have hnum' := h'.num
  have hle' := h'.le
  obtain ⟨slots, hv, hslots⟩ := h'.exists_slots (by omega)
  have hindex : a.num.toNat = xs.length := by omega
  rw [hindex]
  apply wp_store hv (by omega)
  -- the last element is the one that is written
  have hset : xs'.set xs.length (some guy) = xs ++ [some guy] := by
    obtain ⟨y, hy⟩ : ∃ y, xs' = xs ++ [y] := by
      have hdrop : (xs'.drop xs.length).length = 1 := by
        rw [List.length_drop]
        omega
      obtain ⟨y, hy⟩ := List.length_eq_one_iff.mp hdrop
      use y
      rw [← hkeep, ← hy, List.take_append_drop]
    rw [hy, List.set_append_right _ _ (Nat.le_refl _), Nat.sub_self]
    rfl
  rw [← hset]
  exact ⟨h'.set hv _, hgrows⟩

/-- `array_remove` deletes one element. -/
theorem remove_spec {index : ℤ} (hpos : 0 ≤ index) (hin : index < xs.length) :
  wp (remove index) a
    (fun _ a' => Stands (xs.eraseIdx index.toNat) a' ∧ a'.max = a.max ∧ a'.mems = a.mems) E
  := by
  have hnum := h.num
  have hle := h.le
  obtain ⟨slots, hv, hslots⟩ := h.exists_slots (by omega)
  have hi : index.toNat < xs.length := by omega
  simp only [remove, wp_bind, wp_get, wp_assert]
  use hle, ⟨hpos, by omega⟩
  have hmove : (a.num - (index + 1)).toNat = xs.length - (index.toNat + 1) := by omega
  rw [hmove]
  apply wp_imp (moveDown_spec hv (by omega))
  rintro _ a' ⟨slots', rfl, hlength, hget⟩
  rw [wp_modify]
  have herase := List.length_eraseIdx_of_lt hi
  refine ⟨?_, rfl, rfl⟩
  apply Stands.of_slots
  · rw [herase]
    dsimp only
    omega
  · dsimp only
    omega
  · exact h.small
  · rw [hlength]
    exact hslots
  · intro j hj
    rw [herase] at hj
    rw [hget j, List.getElem?_eraseIdx]
    by_cases hji : j < index.toNat
    · rw [if_neg (by omega), if_pos hji]
      exact h.get hv (by omega)
    · rw [if_pos (by omega), if_neg hji]
      exact h.get hv (by omega)

theorem setguy_spec {index : ℤ} (hpos : 0 ≤ index) (hin : index < xs.length) (ptr : α) :
  wp (setguy index ptr) a
    (fun _ a' => Stands (xs.set index.toNat (some ptr)) a' ∧ a'.max = a.max ∧ a'.mems = a.mems) E
  := by
  have hnum := h.num
  have hle := h.le
  obtain ⟨slots, hv, hslots⟩ := h.exists_slots (by omega)
  simp only [setguy, wp_bind, wp_get, wp_assert]
  use hle, ⟨hpos, by omega⟩
  apply wp_store hv (by omega)
  exact ⟨h.set hv _, rfl, rfl⟩

theorem getguy_spec {index : ℤ} (hpos : 0 ≤ index) (hin : index < xs.length) :
  wp (getguy index) a (fun ptr a' => xs[index.toNat]? = some ptr ∧ a' = a) E
  := by
  have hnum := h.num
  have hle := h.le
  obtain ⟨slots, hv, hslots⟩ := h.exists_slots (by omega)
  have hi : index.toNat < xs.length := by omega
  simp only [getguy, wp_bind, wp_get, wp_assert]
  use hle, ⟨hpos, by omega⟩
  have hget := h.get hv hi
  rw [List.getElem?_eq_getElem hi] at hget
  apply wp_load hv hget
  exact ⟨List.getElem?_eq_getElem hi, rfl⟩

end

theorem Refused.rep {e : Errno} {a' : KArray α} (hrefused : Refused a e a') (h : Stands xs a) :
  e = .enomem ∧ Lacks (view xs a) (view xs a') ∧ Stands xs a' ∧ Same a a'
  := by
  obtain ⟨he, hmem, rfl⟩ := hrefused
  exact ⟨he, ⟨hmem, rfl⟩, { h with }, rfl, rfl, rfl⟩

/-- A call on an array is a call on its list, and changes nothing if it fails. -/
theorem exec_spec (h : Stands xs a) {c : Call α} (hmay : may c (view xs a) a) :
  wp (exec c) a
    (fun r a' => (∃ xs', spec c (view xs a) r (view xs' a') ∧ Stands xs' a')
      ∧ ∀ e, r = .failed e → Same a a')
  := by
  cases c with
  | add guy =>
    simp only [exec, status, wp_bind, wp_attempt, wp_pure]
    apply wp_mono (add_spec h hmay guy)
    · rintro _ a' ⟨ha', hgrows⟩
      exact ⟨⟨_, ⟨rfl, hgrows⟩, ha'⟩, by simp⟩
    · rintro e a' ⟨hfull, hrefused⟩
      obtain ⟨he, hlacks, ha', hsame⟩ := hrefused.rep h
      exact ⟨⟨xs, ⟨he, Int.lt_add_one_iff.mp hfull, hlacks⟩, ha'⟩, fun _ _ => hsame⟩
  | setsize nguys =>
    simp only [exec, status, wp_bind, wp_attempt, wp_pure]
    apply wp_mono (setsize_spec h hmay.1 hmay.2)
    · intro _ a' ha'
      exact ⟨ha', by simp⟩
    · rintro e a' ⟨hmore, hrefused⟩
      obtain ⟨he, hlacks, ha', hsame⟩ := hrefused.rep h
      exact ⟨⟨xs, ⟨he, hmore, hlacks⟩, ha'⟩, fun _ _ => hsame⟩
  | preallocate nguys =>
    simp only [exec, status, wp_bind, wp_attempt, wp_pure]
    apply wp_mono (preallocate_spec h hmay)
    · rintro _ a' ⟨ha', hspec⟩
      exact ⟨⟨xs, hspec, ha'⟩, by simp⟩
    · intro e a' hrefused
      obtain ⟨he, hlacks, ha', hsame⟩ := hrefused.rep h
      exact ⟨⟨xs, ⟨he, hlacks⟩, ha'⟩, fun _ _ => hsame⟩
  | remove index =>
    simp only [exec, wp_bind, wp_pure]
    apply wp_imp (remove_spec h hmay.1 hmay.2)
    rintro _ a' ⟨ha', hmax, hmems⟩
    exact ⟨⟨_, by rw [spec, view, hmax, hmems]; rfl, ha'⟩, by simp⟩
  | setguy index ptr =>
    simp only [exec, wp_bind, wp_pure]
    apply wp_imp (setguy_spec h hmay.1 hmay.2 ptr)
    rintro _ a' ⟨ha', hmax, hmems⟩
    exact ⟨⟨_, by rw [spec, view, hmax, hmems]; rfl, ha'⟩, by simp⟩
  | getguy index =>
    simp only [exec, wp_bind, wp_pure]
    apply wp_imp (getguy_spec h hmay.1 hmay.2)
    rintro ptr a' ⟨hget, rfl⟩
    exact ⟨⟨xs, ⟨hget, rfl⟩, h⟩, by simp⟩

/-- Every call on an array is a call on its list. -/
theorem refines :
  Object.Refines (exec (α := α)) spec may Rep
  := by
  rintro c ⟨xs, max, mems⟩ a ⟨hstands, hview⟩ hmay
  rw [hview] at hmay ⊢
  apply wp_imp (exec_spec hstands hmay)
  rintro r a' ⟨⟨xs', hspec, hstands'⟩, -⟩
  exact ⟨view xs' a', hspec, hstands', rfl⟩

/-- What `array_create` returns. -/
def create (mems : List Bool) : KArray α := ⟨0, 0, none, mems⟩

/-- In every sequence of calls an array behaves as a list that is empty at first, and no assertion
fails; the array always has the storage for its capacity, and a call that fails leaves it as it
is. -/
theorem replies_list (mems : List Bool) (cs : List (Call α))
    (h : Object.Admitted exec spec may cs ⟨[], 0, mems⟩ (create mems)) :
  ∃ rs a v, Object.replies exec cs (create mems) = .ok rs a
    ∧ Object.Follows spec ⟨[], 0, mems⟩ cs rs v
    ∧ a.num = v.elems.length ∧ 0 ≤ a.num ∧ a.num ≤ a.max
    ∧ (0 < a.num → ∃ slots, a.v = some slots ∧ (slots.length : ℤ) = a.max)
    ∧ ∀ c e a', may c v a → exec c a = .ok (.failed e) a' → Same a a'
  := by
  obtain ⟨rs, a, hrun, v, hfollows, hstands, hview⟩ :=
    exists_ok (refines.replies ⟨stands_null mems, rfl⟩ h)
  have hnum := hstands.num
  have hle := hstands.le
  refine ⟨rs, a, v, hrun, hfollows, hnum, by omega, hle, ?_, ?_⟩
  · intro hpos
    exact hstands.exists_slots (by omega)
  · intro c e a' hmay hfailed
    rw [hview] at hmay
    exact (wp_ok (exec_spec hstands hmay) hfailed).2 e rfl

/-- An element is refused for lack of memory, added, followed by another one and removed. -/
theorem replies_list_refused :
  ∃ rs a v, Object.replies exec [.add 5, .add 5, .add 6, .remove 0] (create [false] : KArray ℕ)
      = .ok rs a
    ∧ Object.Follows spec ⟨[], 0, [false]⟩ [.add 5, .add 5, .add 6, .remove 0] rs v
    ∧ a.num = v.elems.length ∧ 0 ≤ a.num ∧ a.num ≤ a.max
    ∧ (0 < a.num → ∃ slots, a.v = some slots ∧ (slots.length : ℤ) = a.max)
    ∧ ∀ c e a', may c v a → exec c a = .ok (.failed e) a' → Same a a'
  := by
  apply replies_list
  refine ⟨(by decide : 0 + 1 < 2 ^ 29), ?_⟩
  rintro _ v₁ _ ⟨⟩ ⟨-, -, -, rfl⟩
  refine ⟨(by decide : 0 + 1 < 2 ^ 29), ?_⟩
  rintro _ v₂ _ ⟨⟩ ⟨h₂, -⟩
  refine ⟨by rw [may, h₂]; decide, ?_⟩
  rintro _ v₃ _ ⟨⟩ ⟨h₃, -⟩
  exact ⟨by rw [may, h₃, h₂]; decide, fun _ _ _ _ _ => trivial⟩

end Lists

end KArray
