import AzureSpider.Kern.Table
import Mathlib.Data.Nat.ModEq

/-!
# Ring buffers

The queues of `queue.c` as the code stores them: `size` cells, the index of the next cell to
write and that of the next cell to read.  The queue is empty when the two indices agree, so
that one cell always stays unused; a queue that would use it is first moved to a larger ring,
whose storage comes from `kmalloc`.

A ring stands for the queue of its elements from `nextread` to `nextwrite`, and the operations
on the ring are those on that queue.
-/

/-- `struct queue`; a cell that has not been written is `none`. -/
structure RingBuffer (α : Type) where
  size : ℕ
  nextwrite : ℕ
  nextread : ℕ
  data : ℕ → Option α

namespace RingBuffer

variable {α : Type}

/-- `q_create`, with the storage that it asks for. -/
def create (size : ℕ) : RingBuffer α := ⟨size, 0, 0, fun _ => none⟩

/-- The cell after the cell `i`. -/
def next (q : RingBuffer α) (i : ℕ) : ℕ := (i + 1) % q.size

/-- `q_empty`. -/
def empty (q : RingBuffer α) : Bool := q.nextwrite == q.nextread

/-- The test of `q_addtail` that makes it grow the ring. -/
def full (q : RingBuffer α) : Bool := q.next q.nextwrite == q.nextread

/-- The rest of `q_addtail`, after that test. -/
def put (q : RingBuffer α) (ptr : Option α) : RingBuffer α :=
  { q with data := Function.update q.data q.nextwrite ptr, nextwrite := q.next q.nextwrite }

/-- The loop of `q_grow` from the cell `i` on, which takes less than `size` rounds; `none` when
the new ring would have to grow in its turn. -/
def copyFrom (old : RingBuffer α) : (rounds i : ℕ) → RingBuffer α → Option (RingBuffer α)
  | 0, _, q => some q
  | n + 1, i, q =>
    if i = old.nextwrite then
      some q
    else if q.full then
      none
    else
      copyFrom old n (old.next i) (q.put (old.data i))

/-- `q_grow`; `mem` is the answer of `kmalloc`. -/
def grow (q : RingBuffer α) (targetsize : ℕ) (mem : Bool) : Option (RingBuffer α) :=
  if mem then
    q.copyFrom q.size q.nextread (create (Queue.growSize targetsize q.size))
  else
    none

/-- `q_preallocate`. -/
def preallocate (q : RingBuffer α) (size : ℕ) (mem : Bool) : Option (RingBuffer α) :=
  if q.size < size then q.grow size mem else some q

/-- `q_addtail`. -/
def addtail (q : RingBuffer α) (ptr : α) (mem : Bool) : Option (RingBuffer α) :=
  if q.full then
    (q.grow (q.size + 1) mem).map fun b => b.put (some ptr)
  else
    some (q.put (some ptr))

/-- The ring without its first element. -/
def advance (q : RingBuffer α) : RingBuffer α := { q with nextread := q.next q.nextread }

/-- `q_remhead`; `none` when an assertion fails. -/
def remhead (q : RingBuffer α) : Option (Option α × RingBuffer α) :=
  if q.empty then
    none
  else
    some (q.data q.nextread, q.advance)

/-- The number of elements. -/
def count (q : RingBuffer α) : ℕ := (q.nextwrite + q.size - q.nextread) % q.size

/-- The cells with elements, from the one that is read next on. -/
def elems (q : RingBuffer α) : List (Option α) :=
  (List.range q.count).map fun k => q.data ((q.nextread + k) % q.size)

/-- The elements `xs` are put at the tail one after another, while `kmalloc` fails. -/
def addtails (q : RingBuffer α) : List α → Option (RingBuffer α)
  | [] => some q
  | x :: xs => (q.addtail x false).bind fun b => b.addtails xs

/-- The ring has room for `n` elements at once. -/
def HasRoom (q : RingBuffer α) (n : ℕ) : Prop :=
  ∀ xs : List α, q.count + xs.length = n → (q.addtails xs).isSome

/-- The indices are those of cells. -/
structure Bounded (q : RingBuffer α) : Prop where
  nextwrite : q.nextwrite < q.size
  nextread : q.nextread < q.size

/-! ### Indices

The element `k` of a ring is in the cell `(nextread + k) % size`, and these cells are different
for different `k < size`. -/

/-- Different offsets below `n` from one index are different cells. -/
theorem index_inj {n r a b : ℕ} (ha : a < n) (hb : b < n) (h : (r + a) % n = (r + b) % n) :
  a = b
  := by
  have hmod : a ≡ b [MOD n] := Nat.ModEq.add_left_cancel' r h
  rwa [Nat.ModEq, Nat.mod_eq_of_lt ha, Nat.mod_eq_of_lt hb] at hmod

theorem next_index (q : RingBuffer α) (k : ℕ) :
  q.next ((q.nextread + k) % q.size) = (q.nextread + (k + 1)) % q.size
  := by
  rw [next, Nat.mod_add_mod]
  rfl

theorem create_bounded {size : ℕ} (h : 0 < size) :
  (create size : RingBuffer α).Bounded
  := ⟨h, h⟩

variable {q : RingBuffer α}

theorem Bounded.pos (h : q.Bounded) :
  0 < q.size
  := Nat.zero_lt_of_lt h.nextread

theorem put_bounded (h : q.Bounded) (ptr : Option α) :
  (q.put ptr).Bounded
  := ⟨Nat.mod_lt _ h.pos, h.nextread⟩

namespace Bounded

variable (h : q.Bounded)
include h

theorem count_lt :
  q.count < q.size
  := Nat.mod_lt _ h.pos

theorem index_zero :
  (q.nextread + 0) % q.size = q.nextread
  := Nat.mod_eq_of_lt h.nextread

/-- The element after the last one goes into the cell that is written next. -/
theorem index_count :
  (q.nextread + q.count) % q.size = q.nextwrite
  := by
  have hr := h.nextread
  have hsum : q.nextread + (q.nextwrite + q.size - q.nextread) = q.nextwrite + q.size := by omega
  rw [count, Nat.add_mod_mod, hsum, Nat.add_mod_right, Nat.mod_eq_of_lt h.nextwrite]

/-- The cell that is written next tells the number of elements. -/
theorem count_eq {k : ℕ} (hk : k < q.size) (hindex : (q.nextread + k) % q.size = q.nextwrite) :
  q.count = k
  := by
  apply index_inj h.count_lt hk
  rw [h.index_count, hindex]

theorem index_ne {k : ℕ} (hk : k < q.count) :
  (q.nextread + k) % q.size ≠ q.nextwrite
  := by
  intro hindex
  have heq := h.count_eq (Nat.lt_trans hk h.count_lt) hindex
  omega

theorem lt_count {k : ℕ} (hk : k ≤ q.count) (hne : (q.nextread + k) % q.size ≠ q.nextwrite) :
  k < q.count
  := by
  apply Nat.lt_of_le_of_ne hk
  rintro rfl
  exact hne h.index_count

/-- The ring is full when all cells but one have elements. -/
theorem full_iff :
  q.full ↔ q.count + 1 = q.size
  := by
  have hlt := h.count_lt
  rw [full, beq_iff_eq, ← h.index_count, next_index]
  constructor
  · intro hindex
    by_contra hne
    have := index_inj (by omega) (by omega) (hindex.trans h.index_zero.symm)
    omega
  · intro heq
    rw [heq, Nat.add_mod_right, Nat.mod_eq_of_lt h.nextread]

theorem empty_iff :
  q.empty ↔ q.count = 0
  := by
  rw [empty, beq_iff_eq]
  constructor
  · intro heq
    apply h.count_eq h.pos (h.index_zero.trans heq.symm)
  · intro heq
    rw [← h.index_count, heq, h.index_zero]

theorem count_put (hfull : ¬ q.full) (ptr : Option α) :
  (q.put ptr).count = q.count + 1
  := by
  have hlt := h.count_lt
  have hne : q.count + 1 ≠ q.size := fun heq => hfull (h.full_iff.mpr heq)
  have hroom : q.count + 1 < q.size := by omega
  apply (put_bounded h ptr).count_eq hroom
  have hnext : q.next q.nextwrite = (q.nextread + (q.count + 1)) % q.size := by
    rw [← next_index, h.index_count]
  exact hnext.symm

end Bounded

/-! ### Elements -/

theorem length_elems (q : RingBuffer α) :
  q.elems.length = q.count
  := by
  simp [elems]

theorem count_create (size : ℕ) :
  (create size : RingBuffer α).count = 0
  := by
  simp [count, create]

theorem elems_create (size : ℕ) :
  (create size : RingBuffer α).elems = []
  := by
  simp [elems, count_create]

theorem elems_put (h : q.Bounded) (hfull : ¬ q.full) (ptr : Option α) :
  (q.put ptr).elems = q.elems ++ [ptr]
  := by
  rw [elems, h.count_put hfull, List.range_succ, List.map_append]
  congr 1
  · apply List.map_congr_left
    intro k hk
    have hne := h.index_ne (List.mem_range.mp hk)
    apply Function.update_of_ne hne
  · rw [List.map_singleton]
    congr 1
    have heq := h.index_count
    simp only [put, heq, Function.update_self]

theorem advance_bounded (h : q.Bounded) :
  q.advance.Bounded
  := ⟨h.nextwrite, Nat.mod_lt _ h.pos⟩

/-- The element `k` after the first one is dropped. -/
theorem advance_index (q : RingBuffer α) (k : ℕ) :
  (q.advance.nextread + k) % q.advance.size = (q.nextread + (k + 1)) % q.size
  := by
  change (q.next q.nextread + k) % q.size = _
  rw [next, Nat.mod_add_mod]
  congr 1
  omega

/-- The first element, and the others. -/
theorem elems_cons (h : q.Bounded) {n : ℕ} (hcount : q.count = n + 1) :
  q.elems = q.data q.nextread :: q.advance.elems
  := by
  have hlt := h.count_lt
  have hcount' : q.advance.count = n := by
    apply (advance_bounded h).count_eq
    · change n < q.size
      omega
    · rw [advance_index, ← hcount]
      exact h.index_count
  rw [elems, hcount, List.range_succ_eq_map, List.map_cons, h.index_zero, elems, hcount',
    List.map_map]
  congr 1
  apply List.map_congr_left
  intro k _
  rw [advance_index]
  rfl

/-- The elements without the first ones. -/
theorem drop_elems {k : ℕ} (hk : k < q.count) :
  q.elems.drop k = q.data ((q.nextread + k) % q.size) :: q.elems.drop (k + 1)
  := by
  have hlen : k < q.elems.length := by rwa [length_elems]
  rw [List.drop_eq_getElem_cons hlen]
  simp [elems]

/-- The loop of `q_grow` moves the elements from the `k`th on, in their order. -/
theorem copyFrom_eq {old : RingBuffer α} (hold : old.Bounded) {rounds k : ℕ} (hk : k ≤ old.count)
    (hrounds : old.count - k ≤ rounds) (h : q.Bounded)
    (hroom : q.count + (old.count - k) < q.size) :
  ∃ b, old.copyFrom rounds ((old.nextread + k) % old.size) q = some b
    ∧ b.Bounded ∧ b.size = q.size ∧ b.elems = q.elems ++ old.elems.drop k
  := by
  have hend : old.elems.drop old.count = [] := by
    rw [← length_elems, List.drop_length]
  induction rounds generalizing k q with
  | zero =>
    have heq : k = old.count := by omega
    subst heq
    use q, rfl, h, rfl
    rw [hend, List.append_nil]
  | succ n ih =>
    rw [copyFrom]
    split_ifs with hlast hfull
    · have heq : k = old.count := by
        by_contra hne
        exact hold.index_ne (by omega) hlast
      subst heq
      use q, rfl, h, rfl
      rw [hend, List.append_nil]
    · rw [h.full_iff] at hfull
      have hlt := hold.lt_count hk hlast
      omega
    · have hlt := hold.lt_count hk hlast
      have hcount := h.count_put hfull (old.data ((old.nextread + k) % old.size))
      have hput := put_bounded h (old.data ((old.nextread + k) % old.size))
      have hroom' : (q.put (old.data ((old.nextread + k) % old.size))).count
          + (old.count - (k + 1)) < q.size := by omega
      rw [next_index]
      obtain ⟨b, hb, hbounded, hbsize, hbelems⟩ := ih hlt (by omega) hput hroom'
      use b, hb, hbounded, hbsize
      rw [hbelems, elems_put h hfull, drop_elems hlt, List.append_assoc]
      rfl

/-- `q_grow` keeps the elements. -/
theorem grow_eq (h : q.Bounded) (targetsize : ℕ) :
  ∃ b, q.grow targetsize true = some b
    ∧ b.Bounded ∧ b.size = Queue.growSize targetsize q.size ∧ b.elems = q.elems
  := by
  have hpos := h.pos
  have hgrow := Queue.le_growSize targetsize hpos
  have hlt := h.count_lt
  have hcreate := count_create (α := α) (Queue.growSize targetsize q.size)
  have hbounded : (create (Queue.growSize targetsize q.size) : RingBuffer α).Bounded :=
    create_bounded (by omega)
  have hsize : (create (Queue.growSize targetsize q.size) : RingBuffer α).size
      = Queue.growSize targetsize q.size := rfl
  have hrounds : q.count - 0 ≤ q.size := by omega
  obtain ⟨b, hb, hbounded, hsize, helems⟩ :=
    copyFrom_eq h (Nat.zero_le _) hrounds hbounded (by omega)
  rw [h.index_zero] at hb
  use b, hb, hbounded, hsize
  rw [helems, elems_create]
  rfl

/-! ### Rings and queues -/

/-- The ring holds the queue. -/
structure Holds (r : RingBuffer α) (q : Queue α) : Prop where
  bounded : r.Bounded
  size : r.size = q.size
  elems : r.elems = q.elems.map some

/-- The outcomes of an operation on the ring and on the queue agree. -/
def Agree : Option (RingBuffer α) → Option (Queue α) → Prop
  | some r, some q => r.Holds q
  | none, none => True
  | _, _ => False

namespace Holds

variable {r : RingBuffer α} {p : Queue α}

theorem create {size : ℕ} (h : 0 < size) :
  (RingBuffer.create size : RingBuffer α).Holds ⟨[], size⟩
  := ⟨create_bounded h, rfl, elems_create size⟩

variable (h : r.Holds p)
include h

theorem count :
  r.count = p.elems.length
  := by
  rw [← length_elems, h.elems, List.length_map]

theorem grow (targetsize : ℕ) (mem : Bool) :
  Agree (r.grow targetsize mem) (p.grow targetsize mem)
  := by
  cases mem with
  | false => trivial
  | true =>
    obtain ⟨b, hb, hbounded, hsize, helems⟩ := grow_eq h.bounded targetsize
    rw [hb]
    use hbounded
    · rw [hsize, h.size]
    · rw [helems, h.elems]

theorem put (hroom : p.elems.length + 1 ≠ p.size) (ptr : α) :
  (r.put (some ptr)).Holds { p with elems := p.elems ++ [ptr] }
  := by
  have hfull : ¬ r.full := by
    rwa [h.bounded.full_iff, h.count, h.size]
  use put_bounded h.bounded _, h.size
  rw [elems_put h.bounded hfull, h.elems, List.map_append]
  rfl

/-- `q_preallocate` on the ring is that on its queue. -/
theorem preallocate (size : ℕ) (mem : Bool) :
  Agree (r.preallocate size mem) (p.preallocate size mem)
  := by
  rw [RingBuffer.preallocate, Queue.preallocate, h.size]
  split
  · apply h.grow
  · exact h

/-- `q_addtail` on the ring is that on its queue, and has to grow the ring exactly when the
queue has one element less than the ring has cells. -/
theorem addtail (ptr : α) (mem : Bool) :
  Agree (r.addtail ptr mem) (p.addtail ptr mem) ∧ (r.full ↔ p.elems.length + 1 = p.size)
  := by
  have hiff : r.full ↔ p.elems.length + 1 = p.size := by
    rw [h.bounded.full_iff, h.count, h.size]
  refine ⟨?_, hiff⟩
  rw [RingBuffer.addtail, Queue.addtail]
  by_cases hfull : p.elems.length + 1 = p.size
  · rw [if_pos (hiff.mpr hfull), if_pos hfull, h.size]
    have hgrow := h.grow (p.size + 1) mem
    cases mem with
    | false => trivial
    | true =>
      obtain ⟨b, hb, -⟩ := grow_eq h.bounded (p.size + 1)
      rw [hb] at hgrow ⊢
      apply Holds.put hgrow
      have hsize := Queue.le_growSize (p.size + 1) (show 0 < p.size by omega)
      change p.elems.length + 1 ≠ Queue.growSize (p.size + 1) p.size
      omega
  · rw [if_neg (fun hf => hfull (hiff.mp hf)), if_neg hfull]
    apply h.put hfull

/-- `q_remhead` takes the first element of the queue. -/
theorem remhead {t : α} {rest : List α} (hp : p.elems = t :: rest) :
  ∃ r', r.remhead = some (some t, r') ∧ r'.Holds { p with elems := rest }
  := by
  have hcount : r.count = rest.length + 1 := by
    rw [h.count, hp]
    rfl
  have hempty : ¬ r.empty := by
    rw [h.bounded.empty_iff]
    omega
  have hcons := elems_cons h.bounded hcount
  rw [h.elems, hp, List.map_cons] at hcons
  obtain ⟨hhead, htail⟩ := List.cons.inj hcons
  use r.advance
  constructor
  · rw [RingBuffer.remhead, if_neg hempty, hhead]
  · use advance_bounded h.bounded, h.size
    exact htail.symm

theorem length_lt :
  p.elems.length < p.size
  := by
  rw [← h.count, ← h.size]
  exact h.bounded.count_lt

/-- Without memory, elements can be added as long as one cell stays unused. -/
theorem addtails_isSome (xs : List α) :
  (r.addtails xs).isSome ↔ p.elems.length + xs.length < p.size
  := by
  induction xs generalizing r p with
  | nil => simp [addtails, h.length_lt]
  | cons x xs ih =>
    obtain ⟨hagree, hfull⟩ := h.addtail x false
    simp only [addtails, List.length_cons]
    by_cases hlast : p.elems.length + 1 = p.size
    · rw [RingBuffer.addtail, if_pos (hfull.mpr hlast)]
      simp only [RingBuffer.grow, Bool.false_eq_true, if_false, Option.map_none,
        Option.bind_none, Option.isSome_none, false_iff]
      omega
    · rw [RingBuffer.addtail, if_neg (fun hf => hlast (hfull.mp hf)), Option.bind_some,
        ih (h.put hlast x)]
      simp only [List.length_append, List.length_cons, List.length_nil]
      omega

/-- A ring has room for less elements than it has cells. -/
theorem hasRoom_iff [Inhabited α] {n : ℕ} (hn : p.elems.length ≤ n) :
  r.HasRoom n ↔ n < p.size
  := by
  constructor
  · intro hroom
    have hsome := hroom (List.replicate (n - p.elems.length) default) (by
      rw [h.count, List.length_replicate]
      omega)
    rw [h.addtails_isSome, List.length_replicate] at hsome
    omega
  · intro hlt xs hlen
    rw [h.addtails_isSome, ← h.count]
    omega

end Holds

/-- Every queue that leaves a cell unused is held by a ring. -/
theorem exists_holds {p : Queue α} (h : p.elems.length < p.size) :
  ∃ r : RingBuffer α, r.Holds p
  := by
  have hcount : (⟨p.size, p.elems.length, 0, fun i => p.elems[i]?⟩ : RingBuffer α).count
      = p.elems.length := by
    rw [count, Nat.sub_zero, Nat.add_mod_right, Nat.mod_eq_of_lt h]
  refine ⟨⟨p.size, p.elems.length, 0, fun i => p.elems[i]?⟩, ⟨h, Nat.zero_lt_of_lt h⟩, rfl, ?_⟩
  rw [elems, hcount]
  apply List.ext_getElem
  · simp
  · intro k hk _
    have hk : k < p.elems.length := by simpa using hk
    simp [Nat.mod_eq_of_lt (Nat.lt_trans hk h), hk]

end RingBuffer
