import Mathlib.Data.List.Basic

/-!
# Arrays and queues

The resizable arrays of `array.c` and the queues of `queue.c`: lists with the capacity that
their storage has.  Storage that has to grow comes from `kmalloc`, whose answer is an
argument.
-/

/-- A resizable array: the pointers it holds, and how many it has room for. -/
structure Table (α : Type) where
  guys : List α
  max : ℕ
  deriving DecidableEq, Repr

namespace Table

variable {α : Type}

/-- The loop of `array_preallocate`, which takes at most `nguys` rounds: grow `newmax` until
it holds `nguys`. -/
def growMaxFrom (nguys : ℕ) : (rounds newmax : ℕ) → ℕ
  | 0, newmax => newmax
  | n + 1, newmax =>
    if newmax < nguys then growMaxFrom nguys n ((newmax + 1) * 2) else newmax

/-- The capacity `array_preallocate` grows `newmax` to, to hold `nguys`. -/
def growMax (nguys newmax : ℕ) : ℕ := growMaxFrom nguys nguys newmax

/-- `array_preallocate`; `mem` is the answer of `kmalloc`. -/
def preallocate (a : Table α) (nguys : ℕ) (mem : Bool) : Option (Table α) :=
  if mem then some { a with max := growMax nguys a.max } else none

/-- `array_add`; the storage grows when the array is full. -/
def add (a : Table α) (guy : α) (mem : Bool) : Option (Table α) :=
  if a.max < a.guys.length + 1 then
    (a.preallocate (a.guys.length + 1) mem).map fun b => { b with guys := b.guys ++ [guy] }
  else
    some { a with guys := a.guys ++ [guy] }

/-- `array_remove`. -/
def remove (a : Table α) (index : ℕ) : Table α := { a with guys := a.guys.eraseIdx index }

/-- `array_setsize` to `0`, which gives back storage for more than 16 pointers. -/
def clear (a : Table α) : Table α := ⟨[], if 16 < a.max then 0 else a.max⟩

variable {a b : Table α} {mem : Bool}

/-- `array_add` succeeds when `kmalloc` does. -/
theorem add_ne_none (a : Table α) (guy : α) :
  a.add guy true ≠ none
  := by
  unfold add preallocate
  split
  · simp
  · simp

/-- Growing never shrinks the capacity. -/
theorem le_growMaxFrom (nguys rounds newmax : ℕ) :
  newmax ≤ growMaxFrom nguys rounds newmax
  := by
  induction rounds generalizing newmax with
  | zero => apply Nat.le_refl
  | succ n ih =>
    rw [growMaxFrom]
    split
    · apply Nat.le_trans _ (ih _)
      omega
    · apply Nat.le_refl

/-- Enough rounds grow the capacity to what is needed. -/
theorem needed_le_growMaxFrom {nguys rounds newmax : ℕ} (h : nguys ≤ newmax + rounds) :
  nguys ≤ growMaxFrom nguys rounds newmax
  := by
  induction rounds generalizing newmax with
  | zero => apply h
  | succ n ih =>
    rw [growMaxFrom]
    split
    · apply ih
      omega
    · omega

/-- `array_preallocate` makes room, and keeps the pointers. -/
theorem preallocate_spec {nguys : ℕ} (h : a.preallocate nguys mem = some b) :
  b.guys = a.guys ∧ nguys ≤ b.max ∧ a.max ≤ b.max ∧ mem = true
  := by
  cases mem with
  | false => cases h
  | true =>
    rw [← Option.some.inj h]
    exact ⟨rfl, needed_le_growMaxFrom (Nat.le_add_left _ _), le_growMaxFrom _ _ _, rfl⟩

/-- `array_add` puts the pointer at the end, and never shrinks the capacity. -/
theorem add_spec {guy : α} (h : a.add guy mem = some b) :
  b.guys = a.guys ++ [guy] ∧ a.max ≤ b.max
  := by
  rw [add] at h
  split_ifs at h
  · obtain ⟨c, hc, rfl⟩ := Option.map_eq_some_iff.mp h
    obtain ⟨hguys, -, hmax, -⟩ := preallocate_spec hc
    exact ⟨congrArg (· ++ [guy]) hguys, hmax⟩
  · cases h
    exact ⟨rfl, Nat.le_refl _⟩

/-- `array_add` needs no memory when the array has room. -/
theorem add_isSome {a : Table α} (h : a.guys.length < a.max) (guy : α) (mem : Bool) :
  (a.add guy mem).isSome
  := by
  rw [add, if_neg (by omega)]
  rfl

/-- Without memory, `array_add` fails when the array has no room. -/
theorem add_eq_none {a : Table α} (h : a.max ≤ a.guys.length) (guy : α) :
  a.add guy false = none
  := by
  rw [add, if_pos (by omega)]
  rfl

end Table

/-- A queue: its elements from head to tail, and the number of cells of its ring, of which
one stays empty. -/
structure Queue (α : Type) where
  elems : List α
  size : ℕ
  deriving DecidableEq, Repr

namespace Queue

variable {α : Type}

/-- The loop of `q_grow`, which takes at most `target` rounds: double `nsize` until it
reaches `target`. -/
def growSizeFrom (target : ℕ) : (rounds nsize : ℕ) → ℕ
  | 0, nsize => nsize
  | n + 1, nsize =>
    if 0 < nsize ∧ nsize < target then growSizeFrom target n (nsize * 2) else nsize

/-- The number of cells `q_grow` doubles `nsize` to, to reach `target`. -/
def growSize (target nsize : ℕ) : ℕ := growSizeFrom target target nsize

/-- `q_grow`; `mem` is the answer of `kmalloc`. -/
def grow (q : Queue α) (target : ℕ) (mem : Bool) : Option (Queue α) :=
  if mem then some { q with size := growSize target q.size } else none

/-- `q_preallocate`. -/
def preallocate (q : Queue α) (size : ℕ) (mem : Bool) : Option (Queue α) :=
  if q.size < size then q.grow size mem else some q

/-- `q_addtail`. -/
def addtail (q : Queue α) (x : α) (mem : Bool) : Option (Queue α) :=
  if q.elems.length + 1 = q.size then
    (q.grow (q.size + 1) mem).map fun b => { b with elems := b.elems ++ [x] }
  else
    some { q with elems := q.elems ++ [x] }

variable {q b : Queue α} {mem : Bool}

/-- The queue that `q_addtail` makes. -/
theorem addtail_eq {x : α} (h : q.addtail x mem = some b) :
  b = ⟨q.elems ++ [x],
    if q.elems.length + 1 = q.size then growSize (q.size + 1) q.size else q.size⟩
  := by
  rw [addtail] at h
  split_ifs at h ⊢
  · cases mem with
    | false => cases h
    | true => exact (Option.some.inj h).symm
  · exact (Option.some.inj h).symm

theorem addtail_elems {x : α} (h : q.addtail x mem = some b) :
  b.elems = q.elems ++ [x]
  := by
  rw [addtail_eq h]

/-- The queue that `q_preallocate` makes. -/
theorem preallocate_eq {size : ℕ}
    (h : q.preallocate size mem = some b) :
  b = { q with size := if q.size < size then growSize size q.size else q.size }
  := by
  rw [preallocate] at h
  split_ifs at h ⊢
  · cases mem with
    | false => cases h
    | true => exact (Option.some.inj h).symm
  · exact (Option.some.inj h).symm

theorem preallocate_elems {size : ℕ}
    (h : q.preallocate size mem = some b) :
  b.elems = q.elems
  := by
  rw [preallocate_eq h]

/-- `q_addtail` succeeds when `kmalloc` does. -/
theorem addtail_mem (q : Queue α) (x : α) :
  ∃ b, q.addtail x true = some b
  := by
  unfold addtail grow
  split
  · simp
  · simp

/-- `q_addtail` needs no memory when more than one cell is free. -/
theorem addtail_room {q : Queue α} (h : q.elems.length + 1 < q.size) (x : α) (mem : Bool) :
  q.addtail x mem = some { q with elems := q.elems ++ [x] }
  := if_neg (Nat.ne_of_lt h)

/-- Doubling never shrinks the ring. -/
theorem le_growSizeFrom (target rounds nsize : ℕ) :
  nsize ≤ growSizeFrom target rounds nsize
  := by
  induction rounds generalizing nsize with
  | zero => apply Nat.le_refl
  | succ n ih =>
    rw [growSizeFrom]
    split
    · apply Nat.le_trans _ (ih _)
      omega
    · apply Nat.le_refl

/-- Enough rounds double the ring to what is needed. -/
theorem needed_le_growSizeFrom {target rounds nsize : ℕ} (hpos : 0 < nsize)
    (h : target ≤ nsize + rounds) :
  target ≤ growSizeFrom target rounds nsize
  := by
  induction rounds generalizing nsize with
  | zero => apply h
  | succ n ih =>
    rw [growSizeFrom]
    split
    · apply ih
      · omega
      · omega
    · omega

theorem le_growSize (target : ℕ) {nsize : ℕ} (hpos : 0 < nsize) :
  target ≤ growSize target nsize ∧ nsize ≤ growSize target nsize
  := by
  constructor
  · apply needed_le_growSizeFrom hpos
    omega
  · apply le_growSizeFrom

/-- A ring that `q_addtail` has used still has an unused cell, and has not shrunk. -/
theorem addtail_lt {x : α} (h : q.elems.length < q.size)
    (hadd : q.addtail x mem = some b) :
  b.elems.length < b.size ∧ q.size ≤ b.size
  := by
  rw [addtail_eq hadd, List.length_append, List.length_singleton]
  dsimp only
  split_ifs
  · obtain ⟨htarget, hsize⟩ := le_growSize (q.size + 1) (Nat.zero_lt_of_lt h)
    omega
  · omega

/-- A ring that `q_preallocate` has used has the cells it was asked for, and has not shrunk. -/
theorem preallocate_size {size : ℕ} (hpos : 0 < q.size)
    (h : q.preallocate size mem = some b) :
  size ≤ b.size ∧ q.size ≤ b.size
  := by
  rw [preallocate_eq h]
  dsimp only
  split_ifs
  · exact le_growSize size hpos
  · omega

end Queue
