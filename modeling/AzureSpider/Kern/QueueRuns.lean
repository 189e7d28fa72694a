import AzureSpider.Errno
import AzureSpider.Kern.RingBuffer
import AzureSpider.Lib.Machine
import AzureSpider.Lib.Object

/-!
# Queues are lists

The calls of `queue.c` on a ring, with their assertions, the 32-bit arithmetic of the sizes and the
answers of `kmalloc`.  `q_grow` moves the elements to a larger ring by calls of `q_addtail`, which
calls `q_grow`; none of these calls makes the new ring grow again (`copyLoop_spec`), so that any
depth of such calls is enough.

In every sequence of calls the ring behaves as a list.  A call fails only if the ring has too few
cells for it and `kmalloc` has no memory.
-/

open Machine Routine

/-- The assertions of `queue.c`. -/
inductive QueuePanic where
  -- `q_grow`
  | growSize | growResult
  | preallocateSize | addtailSize | remheadSize | remheadEmpty
  -- a loop or a recursion that does not end
  | endless
  deriving DecidableEq, Repr

/-- A ring, and the coming answers of `kmalloc`; after them, it succeeds. -/
structure KQueue (α : Type) where
  buf : RingBuffer α
  mems : List Bool

namespace KQueue

variable {α : Type}

/-- A routine on a ring. -/
abbrev Run (α β : Type) : Type := Routine Errno QueuePanic (KQueue α) β

/-- The next answer of `kmalloc`. -/
def mem (mems : List Bool) : Bool := mems.head?.getD true

/-- Whether `kmalloc` has memory. -/
def kmalloc : Run α Bool := do
  let s ← get
  modify fun s => { s with mems := s.mems.tail }
  pure (mem s.mems)

/-- The loop of `q_grow` that doubles `nsize`.  From a positive number, 32 rounds overflow. -/
def growSize (targetsize : ℤ) : (rounds : ℕ) → (nsize : ℤ) → Run α ℤ
  | 0, nsize => if nsize < targetsize then Routine.panic .endless else pure nsize
  | r + 1, nsize =>
    if nsize < targetsize then do
      assert (0 < i32 (nsize * 2)) .growSize
      growSize targetsize r (i32 (nsize * 2))
    else
      pure nsize

/-- The loop of `q_grow` that moves the elements, from the cell `i` on. -/
def copyLoop (addtail : Option α → Run α Unit) (old : RingBuffer α) : (rounds i : ℕ) → Run α Unit
  | 0, i => if i = old.nextwrite then pure () else Routine.panic .endless
  | r + 1, i =>
    if i = old.nextwrite then
      pure ()
    else do
      match ← attempt (addtail (old.data i)) with
      | .ok () => copyLoop addtail old r (old.next i)
      | .error _ => Routine.panic .growResult

/-- `q_grow`. -/
def grow (addtail : Option α → Run α Unit) (targetsize : ℤ) : Run α Unit := do
  let s ← get
  let nsize ← growSize targetsize 32 s.buf.size
  if ← kmalloc then do
    modify fun s => { s with buf := RingBuffer.create nsize.toNat }
    copyLoop addtail s.buf s.buf.size s.buf.nextread
  else
    fail .enomem

/-- `q_addtail`. -/
def addtailBy (grow : ℤ → Run α Unit) (ptr : Option α) : Run α Unit := do
  let s ← get
  assert (0 < s.buf.size) .addtailSize
  if s.buf.full then grow (i32 (s.buf.size + 1))
  modify fun s => { s with buf := s.buf.put ptr }

/-- `q_addtail`, with `depth` calls of `q_grow` inside one another. -/
def addtailAt : (depth : ℕ) → Option α → Run α Unit
  | 0 => addtailBy fun _ => Routine.panic .endless
  | d + 1 => addtailBy (grow (addtailAt d))

/-- `q_preallocate`. -/
def preallocateAt (depth : ℕ) (size : ℤ) : Run α Unit := do
  let s ← get
  assert (0 < s.buf.size) .preallocateSize
  if s.buf.size < size then grow (addtailAt depth) size

/-- `q_remhead`. -/
def remhead : Run α (Option α) := do
  let s ← get
  assert (0 < s.buf.size) .remheadSize
  assert (s.buf.empty = false) .remheadEmpty
  modify fun s => { s with buf := s.buf.advance }
  pure (s.buf.data s.buf.nextread)

/-! ### Calls -/

/-- A call on a queue. -/
inductive Call (α : Type) where
  | addtail (ptr : α) | remhead | preallocate (size : ℤ) | empty

/-- What a call returns. -/
inductive Reply (α : Type) where
  | done | failed (e : Errno) | value (ptr : Option α) | flag (b : Bool)

/-- The reply of a call that returns 0 or an error. -/
def status (m : Run α Unit) : Run α (Reply α) := do
  match ← attempt m with
  | .ok () => pure .done
  | .error e => pure (.failed e)

/-- The calls. -/
def exec (depth : ℕ) : Call α → Run α (Reply α)
  | .addtail ptr => status (addtailAt (depth + 1) (some ptr))
  | .preallocate size => status (preallocateAt depth size)
  | .remhead => do
      let ptr ← remhead
      pure (.value ptr)
  | .empty => do
      let s ← get
      pure (.flag s.buf.empty)

/-- The value of a ring: its list with the number of cells, and the coming answers of `kmalloc`. -/
abbrev View (α : Type) : Type := Queue α × List Bool

/-- A call makes the queue `make b`, if `b` is the answer of `kmalloc`; it uses the answer up if it
`asks` for memory.  Without a queue it fails, and leaves the one that is there. -/
def Makes (make : Bool → Option (Queue α)) (asks : Prop) [Decidable asks] (v : View α)
    (r : Reply α) (v' : View α) : Prop :=
  (match make (mem v.2) with
    | some q => r = .done ∧ v'.1 = q
    | none => r = .failed .enomem ∧ v'.1 = v.1)
  ∧ v'.2 = if asks then v.2.tail else v.2

/-- What the calls do to a list. -/
def spec : Call α → View α → Reply α → View α → Prop
  | .addtail x, v, r, v' => Makes (v.1.addtail x) (v.1.elems.length + 1 = v.1.size) v r v'
  | .preallocate size, v, r, v' =>
    Makes (v.1.preallocate size.toNat) (v.1.size < size.toNat) v r v'
  | .remhead, v, r, v' =>
    ∃ x xs, v.1.elems = x :: xs ∧ r = .value (some x) ∧ v' = ({ v.1 with elems := xs }, v.2)
  | .empty, v, r, v' => (∃ b, r = .flag b ∧ (b = true ↔ v.1.elems = [])) ∧ v' = v

/-- A call may be made: nothing is taken from an empty queue, and no ring is asked for that has
`2 ^ 29` cells or more. -/
def may : Call α → View α → KQueue α → Prop
  | .addtail _, _, s => s.buf.full → Queue.growSize (s.buf.size + 1) s.buf.size < 2 ^ 29
  | .preallocate size, _, s =>
    s.buf.size < size → Queue.growSize size.toNat s.buf.size < 2 ^ 29
  | .remhead, v, _ => v.1.elems ≠ []
  | .empty, _, _ => True

/-- The ring stands for the value. -/
def Stands (v : View α) (s : KQueue α) : Prop :=
  s.buf.Holds v.1 ∧ v.1.size < 2 ^ 29 ∧ s.mems = v.2

/-- A routine makes the ring `made`, and uses an answer of `kmalloc` up if it `asks` for memory. -/
def Performs (m : Run α Unit) (s : KQueue α) (made : Option (RingBuffer α)) (asks : Prop)
    [Decidable asks] : Prop :=
  wp m s
    (fun _ s' => made = some s'.buf ∧ s'.mems = if asks then s.mems.tail else s.mems)
    (fun e s' => e = .enomem ∧ made = none
      ∧ s' = ⟨s.buf, if asks then s.mems.tail else s.mems⟩)

/-! ### Growth -/

section Growth

variable {s : KQueue α} {old : RingBuffer α}

/-- The loop over the sizes is the one of `Queue` as long as the sizes are small. -/
theorem growSize_eq {target rounds r n : ℕ} (hpos : 0 < n) (htarget : target ≤ n + rounds)
    (hsmall : Queue.growSizeFrom target rounds n < 2 ^ 31) (hr : 2 ^ 31 ≤ n * 2 ^ r)
    (s : KQueue α) :
  growSize target r n s = .ok (Queue.growSizeFrom target rounds n : ℤ) s
  := by
  induction rounds generalizing r n with
  | zero =>
    have hnot : ¬ (n : ℤ) < target := by omega
    cases r with
    | zero | succ =>
      rw [growSize, if_neg hnot]
      rfl
  | succ k ih =>
    by_cases hlt : n < target
    · have hif : 0 < n ∧ n < target := ⟨hpos, hlt⟩
      rw [Queue.growSizeFrom, if_pos hif] at hsmall ⊢
      have hle := Queue.le_growSizeFrom target k (n * 2)
      cases r with
      | zero => omega
      | succ r =>
        have hdouble : i32 ((n : ℤ) * 2) = ((n * 2 : ℕ) : ℤ) := by
          rw [i32_of_mem (by omega) (by omega)]
          rfl
        have hlt' : (n : ℤ) < target := by omega
        have hpow : n * 2 ^ (r + 1) = n * 2 * 2 ^ r := by
          rw [Nat.pow_succ', Nat.mul_assoc]
        rw [growSize, if_pos hlt', hdouble]
        have hassert : assert (0 < ((n * 2 : ℕ) : ℤ)) QueuePanic.growSize s
            = (.ok () s : Outcome Errno QueuePanic (KQueue α) Unit) :=
          assert_eq_ok.mpr ⟨by omega, rfl⟩
        rw [bind_ok hassert]
        apply ih (by omega) (by omega) hsmall
        rw [← hpow]
        exact hr
    · have hnot : ¬ (0 < n ∧ n < target) := fun h => hlt h.2
      have hnot' : ¬ (n : ℤ) < target := by omega
      rw [Queue.growSizeFrom, if_neg hnot]
      cases r with
      | zero | succ =>
        rw [growSize, if_neg hnot']
        rfl

/-- A ring that is not full does not grow. -/
theorem addtailAt_put (depth : ℕ) (hpos : 0 < s.buf.size) (hfull : ¬ s.buf.full) (ptr : Option α) :
  addtailAt depth ptr s = .ok () { s with buf := s.buf.put ptr }
  := by
  have hrun : ∀ grow : ℤ → Run α Unit,
      addtailBy grow ptr s = .ok () { s with buf := s.buf.put ptr } := by
    intro grow
    simp only [addtailBy, get_bind, hfull]
    exact bind_ok (a := ()) (assert_eq_ok.mpr ⟨hpos, rfl⟩)
  cases depth with
  | zero | succ => apply hrun

/-- The loop that moves the elements is that of `RingBuffer`: the new ring is never full. -/
theorem copyLoop_spec (depth : ℕ) (hold : old.Bounded) {rounds k : ℕ} (hk : k ≤ old.count)
    (hrounds : old.count - k ≤ rounds) (h : s.buf.Bounded)
    (hroom : s.buf.count + (old.count - k) < s.buf.size) :
  ∃ b, old.copyFrom rounds ((old.nextread + k) % old.size) s.buf = some b
    ∧ copyLoop (addtailAt depth) old rounds ((old.nextread + k) % old.size) s
      = .ok () { s with buf := b }
  := by
  induction rounds generalizing k s with
  | zero =>
    have heq : k = old.count := by omega
    subst heq
    use s.buf, rfl
    rw [copyLoop, if_pos hold.index_count]
    rfl
  | succ n ih =>
    rw [RingBuffer.copyFrom, copyLoop]
    by_cases hlast : (old.nextread + k) % old.size = old.nextwrite
    · use s.buf
      rw [if_pos hlast, if_pos hlast]
      exact ⟨rfl, rfl⟩
    · have hlt := hold.lt_count hk hlast
      have hfull : ¬ s.buf.full := by
        rw [h.full_iff]
        omega
      have hput := addtailAt_put depth h.pos hfull (old.data ((old.nextread + k) % old.size))
      have hcount := h.count_put hfull (old.data ((old.nextread + k) % old.size))
      rw [if_neg hlast, if_neg hlast, if_neg hfull, RingBuffer.next_index]
      have hattempt := attempt_eq_ok.mpr (.inl ⟨(), hput, rfl⟩)
      rw [bind_ok hattempt]
      apply ih (s := { s with buf := s.buf.put (old.data ((old.nextread + k) % old.size)) }) hlt
        (by omega) (RingBuffer.put_bounded h _)
      change (s.buf.put _).count + (old.count - (k + 1)) < s.buf.size
      omega

/-- `q_grow` is that of `RingBuffer`, for sizes that do not overflow. -/
theorem grow_spec (depth : ℕ) (h : s.buf.Bounded) {target : ℕ}
    (hsmall : Queue.growSize target s.buf.size < 2 ^ 31) :
  Performs (grow (addtailAt depth) target) s (s.buf.grow target (mem s.mems)) True
  := by
  have hpos := h.pos
  have hcount := h.count_lt
  have hsize : growSize target 32 s.buf.size s
      = .ok (Queue.growSize target s.buf.size : ℤ) s :=
    growSize_eq hpos (by omega) hsmall (by omega) s
  simp only [Performs, if_true, grow, kmalloc, wp_bind, wp_get]
  apply wp_of_ok hsize
  simp only [wp_modify, wp_pure]
  by_cases hmem : mem s.mems = true
  · rw [if_pos hmem]
    simp only [wp_bind, wp_modify, Int.toNat_natCast]
    obtain ⟨htarget, hle⟩ := Queue.le_growSize target hpos
    have hempty := RingBuffer.count_create (α := α) (Queue.growSize target s.buf.size)
    have hroom : (RingBuffer.create (Queue.growSize target s.buf.size) : RingBuffer α).count
        + (s.buf.count - 0) < Queue.growSize target s.buf.size := by omega
    obtain ⟨b, hcopy, hrun⟩ := copyLoop_spec
      (s := ⟨RingBuffer.create (Queue.growSize target s.buf.size), s.mems.tail⟩) depth h
      (Nat.zero_le _) (show s.buf.count - 0 ≤ s.buf.size by omega)
      (RingBuffer.create_bounded (by omega)) hroom
    rw [h.index_zero] at hcopy hrun
    apply wp_of_ok hrun
    rw [RingBuffer.grow, if_pos hmem]
    exact ⟨hcopy, rfl⟩
  · rw [if_neg hmem, wp_fail, RingBuffer.grow, if_neg hmem]
    exact ⟨rfl, rfl, rfl⟩

theorem i32_size_succ {n : ℕ} (h : n < 2 ^ 31 - 1) :
  i32 ((n : ℤ) + 1) = ((n + 1 : ℕ) : ℤ)
  := by
  rw [i32_of_mem (by omega) (by omega)]
  rfl

/-- `q_addtail` is that of `RingBuffer`, for sizes that do not overflow. -/
theorem addtail_spec (depth : ℕ) (h : s.buf.Bounded) (hsize : s.buf.size < 2 ^ 31 - 1)
    (hsmall : s.buf.full → Queue.growSize (s.buf.size + 1) s.buf.size < 2 ^ 31) (ptr : α) :
  Performs (addtailAt (depth + 1) (some ptr)) s (s.buf.addtail ptr (mem s.mems)) s.buf.full
  := by
  rw [RingBuffer.addtail]
  by_cases hfull : s.buf.full
  · simp only [Performs, addtailAt, addtailBy, wp_bind, wp_get, wp_assert, hfull, if_true,
      i32_size_succ hsize, wp_modify]
    use h.pos
    apply wp_mono (grow_spec depth h (hsmall hfull))
    · rintro _ s' ⟨hgrow, hmems⟩
      rw [hgrow]
      exact ⟨rfl, hmems⟩
    · rintro e s' ⟨he, hgrow, hs'⟩
      rw [hgrow]
      exact ⟨he, rfl, hs'⟩
  · apply wp_of_ok (addtailAt_put (depth + 1) h.pos hfull (some ptr))
    rw [if_neg hfull, if_neg hfull]
    exact ⟨rfl, rfl⟩

/-- A call of `q_addtail` that returns 0 has put the element at the tail. -/
theorem addtail_ok {s' : KQueue α} {depth : ℕ} {ptr : α} (h : s.buf.Bounded)
    (hsize : s.buf.size < 2 ^ 31 - 1) (hrun : addtailAt (depth + 1) (some ptr) s = .ok () s') :
  s'.buf.Bounded ∧ s'.buf.size < 2 ^ 31 - 1 ∧ s'.buf.elems = s.buf.elems ++ [some ptr]
  := by
  have hpos := h.pos
  by_cases hfull : s.buf.full
  · -- the size is doubled once, and has not overflowed
    simp only [addtailAt, addtailBy, get_bind, bind_eq_ok, assert_eq_ok,
      hfull, if_true, i32_size_succ hsize] at hrun
    obtain ⟨_, _, ⟨-, rfl⟩, ⟨⟩, s₁, hgrow, hput⟩ := hrun
    have hdouble : s.buf.size * 2 < 2 ^ 31 := by
      have hgrow' := hgrow
      have hlt : (s.buf.size : ℤ) < ((s.buf.size + 1 : ℕ) : ℤ) := by omega
      simp only [grow, get_bind, bind_eq_ok] at hgrow'
      obtain ⟨_, _, hloop, -⟩ := hgrow'
      rw [growSize, if_pos hlt] at hloop
      simp only [bind_eq_ok, assert_eq_ok] at hloop
      obtain ⟨_, _, ⟨hoverflow, -⟩, -⟩ := hloop
      unfold i32 at hoverflow
      omega
    have hnsize : Queue.growSize (s.buf.size + 1) s.buf.size = s.buf.size * 2 := by
      rw [Queue.growSize, Queue.growSizeFrom, if_pos ⟨hpos, Nat.lt_succ_self _⟩]
      obtain ⟨n, hn⟩ := Nat.exists_eq_add_one_of_ne_zero (Nat.ne_of_gt hpos)
      rw [hn, Queue.growSizeFrom, if_neg (by omega)]
    have hs₁ : s.buf.grow (s.buf.size + 1) true = some s₁.buf := by
      have hmade := (wp_ok (grow_spec depth h (by omega)) hgrow).1
      cases hmem : mem s.mems with
      | false =>
        rw [hmem] at hmade
        cases hmade
      | true => rwa [hmem] at hmade
    obtain ⟨b, hb, hbounded, hbsize, helems⟩ := RingBuffer.grow_eq h (s.buf.size + 1)
    rw [hs₁] at hb
    obtain rfl := Option.some.inj hb
    have hcount : s₁.buf.count = s.buf.count := by
      rw [← RingBuffer.length_elems, helems, RingBuffer.length_elems]
    have hnotfull : ¬ s₁.buf.full := by
      have hlast := h.full_iff.mp hfull
      rw [hbounded.full_iff]
      omega
    obtain ⟨-, rfl⟩ := modify_eq_ok.mp hput
    refine ⟨RingBuffer.put_bounded hbounded _, ?_, ?_⟩
    · change s₁.buf.size < 2 ^ 31 - 1
      omega
    · rw [RingBuffer.elems_put hbounded hnotfull, helems]
  · rw [addtailAt_put (depth + 1) hpos hfull] at hrun
    cases hrun
    exact ⟨RingBuffer.put_bounded h _, hsize, RingBuffer.elems_put h hfull _⟩

/-- `q_preallocate` is that of `RingBuffer`, for sizes that do not overflow. -/
theorem preallocate_spec (depth : ℕ) (h : s.buf.Bounded) {size : ℤ}
    (hsmall : s.buf.size < size → Queue.growSize size.toNat s.buf.size < 2 ^ 31) :
  Performs (preallocateAt depth size) s (s.buf.preallocate size.toNat (mem s.mems))
    (s.buf.size < size.toNat)
  := by
  simp only [Performs, preallocateAt, wp_bind, wp_get, wp_assert]
  use h.pos
  have hiff : s.buf.size < size.toNat ↔ (s.buf.size : ℤ) < size := by omega
  simp only [RingBuffer.preallocate, hiff]
  by_cases hlt : (s.buf.size : ℤ) < size
  · have hnat : (size.toNat : ℤ) = size := by omega
    have hgrow := grow_spec depth h (hsmall hlt)
    rw [hnat] at hgrow
    simp only [hlt, if_true]
    simpa only [Performs, if_true] using hgrow
  · simp only [hlt, if_false, wp_pure, and_self]

end Growth

/-! ### Queues and lists -/

section Lists

variable {s : KQueue α} {q : Queue α}

/-- What is made of the ring is made of its list. -/
theorem status_refines {made : Option (RingBuffer α)} {make : Bool → Option (Queue α)}
    {asks asks' : Prop} [Decidable asks] [Decidable asks'] (h : Stands (q, s.mems) s)
    (hm : Performs m s made asks) (hagree : RingBuffer.Agree made (make (mem s.mems)))
    (hiff : asks ↔ asks') (hsize : ∀ p, make (mem s.mems) = some p → p.size < 2 ^ 29) :
  wp (status m) s (fun r s' => ∃ v', Makes make asks' (q, s.mems) r v' ∧ Stands v' s')
  := by
  simp only [status, wp_bind, wp_attempt, wp_pure, Makes, ← hiff]
  apply wp_mono hm
  · rintro _ s' ⟨rfl, hmems⟩
    cases hp : make (mem s.mems) with
    | none =>
      rw [hp] at hagree
      cases hagree
    | some p =>
      rw [hp] at hagree
      exact ⟨(p, s'.mems), ⟨⟨trivial, rfl⟩, hmems⟩, hagree, hsize p hp, rfl⟩
  · rintro e s' ⟨rfl, rfl, rfl⟩
    cases hp : make (mem s.mems) with
    | none => exact ⟨(q, _), ⟨⟨rfl, rfl⟩, rfl⟩, h.1, h.2.1, rfl⟩
    | some p =>
      rw [hp] at hagree
      cases hagree

variable {v : View α}

theorem addtail_refines (depth : ℕ) (h : Stands v s)
    (hsmall : s.buf.full → Queue.growSize (s.buf.size + 1) s.buf.size < 2 ^ 29) (x : α) :
  wp (exec depth (.addtail x)) s
    (fun r s' => ∃ v', spec (.addtail x) v r v' ∧ Stands v' s')
  := by
  obtain ⟨q, mems⟩ := v
  obtain ⟨hholds, hsize, rfl⟩ := id h
  dsimp only at hholds hsize
  obtain ⟨hagree, hfull⟩ := hholds.addtail x (mem s.mems)
  have hcells := hholds.size
  apply status_refines h (addtail_spec depth hholds.bounded (by omega)
    (fun hf => Nat.lt_trans (hsmall hf) (by decide)) x) hagree hfull
  intro p hp
  rw [Queue.addtail_eq hp]
  dsimp only
  split_ifs with hlast
  · rw [← hcells]
    exact hsmall (hfull.mpr hlast)
  · exact hsize

theorem preallocate_refines (depth : ℕ) (h : Stands v s) {size : ℤ}
    (hsmall : s.buf.size < size → Queue.growSize size.toNat s.buf.size < 2 ^ 29) :
  wp (exec depth (.preallocate size)) s
    (fun r s' => ∃ v', spec (.preallocate size) v r v' ∧ Stands v' s')
  := by
  obtain ⟨q, mems⟩ := v
  obtain ⟨hholds, hsize, rfl⟩ := id h
  have hcells := hholds.size
  apply status_refines h (preallocate_spec depth hholds.bounded
    (fun hlt => Nat.lt_trans (hsmall hlt) (by decide))) (hholds.preallocate _ _) (by rw [hcells])
  intro p hp
  rw [Queue.preallocate_eq hp]
  dsimp only
  split_ifs with hlt
  · rw [← hcells]
    exact hsmall (by dsimp only at hcells; omega)
  · exact hsize

theorem remhead_refines (depth : ℕ) (h : Stands v s) (hne : v.1.elems ≠ []) :
  wp (exec depth .remhead) s
    (fun r s' => ∃ v', spec .remhead v r v' ∧ Stands v' s')
  := by
  obtain ⟨hholds, hsize, hmems⟩ := h
  obtain ⟨x, rest, hxs⟩ := List.exists_cons_of_ne_nil hne
  obtain ⟨b, hrem, hb⟩ := hholds.remhead hxs
  rw [RingBuffer.remhead] at hrem
  split_ifs at hrem with hempty
  obtain ⟨hhead, rfl⟩ := Prod.mk.inj (Option.some.inj hrem)
  simp only [exec, remhead, wp_bind, wp_get, wp_assert, wp_modify, wp_pure]
  exact ⟨hholds.bounded.pos, by simpa using hempty, _, ⟨x, rest, hxs, by rw [hhead], rfl⟩, hb,
    hsize, hmems⟩

theorem empty_refines (depth : ℕ) (h : Stands v s) :
  wp (exec depth .empty) s
    (fun r s' => ∃ v', spec .empty v r v' ∧ Stands v' s')
  := by
  simp only [exec, wp_bind, wp_get, wp_pure]
  refine ⟨v, ⟨⟨_, rfl, ?_⟩, rfl⟩, h⟩
  rw [h.1.bounded.empty_iff, h.1.count, List.length_eq_zero_iff]

/-- Every call on a ring is a call on its list. -/
theorem refines (depth : ℕ) :
  Object.Refines (exec (α := α) depth) spec may Stands
  := by
  intro c v s hstands hmay
  cases c with
  | addtail x => exact addtail_refines depth hstands hmay x
  | preallocate size => exact preallocate_refines depth hstands hmay
  | remhead => exact remhead_refines depth hstands hmay
  | empty => exact empty_refines depth hstands

/-- What `q_create` returns. -/
def create (size : ℕ) (mems : List Bool) : KQueue α := ⟨RingBuffer.create size, mems⟩

/-- In every sequence of calls a queue behaves as a list that is empty at first, and no assertion
fails. -/
theorem replies_fifo {size : ℕ} (hpos : 1 ≤ size) (hsize : size < 2 ^ 29) (mems : List Bool)
    (depth : ℕ) (cs : List (Call α))
    (h : Object.Admitted (exec depth) spec may cs (⟨[], size⟩, mems) (create size mems)) :
  ∃ rs s' v', Object.replies (exec depth) cs (create size mems) = .ok rs s'
    ∧ Object.Follows spec (⟨[], size⟩, mems) cs rs v' ∧ Stands v' s'
  := by
  have hcreate : Stands (⟨[], size⟩, mems) (create size mems : KQueue α) :=
    ⟨RingBuffer.Holds.create hpos, hsize, rfl⟩
  obtain ⟨rs, s', hrun, v', hfollows, hstands⟩ :=
    exists_ok ((refines depth).replies hcreate h)
  exact ⟨rs, s', v', hrun, hfollows, hstands⟩

/-- A ring of two cells is full with one element: there is no memory for the second one, and then
there is. -/
theorem replies_fifo_two_cells :
  ∃ rs s' v', Object.replies (exec 0) [.addtail 5, .addtail 6, .addtail 6, .remhead]
      (create 2 [false] : KQueue ℕ) = .ok rs s'
    ∧ Object.Follows spec (⟨[], 2⟩, [false]) [.addtail 5, .addtail 6, .addtail 6, .remhead] rs v'
    ∧ Stands v' s'
  := by
  apply replies_fifo (by decide) (by decide)
  refine ⟨fun _ => by decide, ?_⟩
  rintro _ v _ ⟨⟩ -
  refine ⟨fun _ => by decide, ?_⟩
  rintro _ v _ ⟨⟩ -
  refine ⟨fun _ => by decide, ?_⟩
  rintro _ v' _ ⟨⟩ ⟨hmade, -⟩
  refine ⟨?_, fun _ _ _ _ _ => trivial⟩
  change v'.1.elems ≠ []
  cases hq : v.1.addtail 6 (mem v.2) with
  | none =>
    rw [hq] at hmade
    cases hmade.1
  | some q =>
    rw [hq] at hmade
    rw [hmade.2, Queue.addtail_elems hq]
    exact List.append_ne_nil_of_right_ne_nil _ nofun

end Lists

end KQueue
