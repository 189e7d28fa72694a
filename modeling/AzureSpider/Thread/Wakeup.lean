import AzureSpider.Kern.ArrayRuns
import AzureSpider.Kern.QueueRuns
import AzureSpider.Thread.Thread

/-!
# Whom `thread_wakeup` wakes

`thread_wakeup` as the code runs it, on the array of sleepers and the ring of the run queue: the
loop deletes from the array that it walks, and goes one step back to look at the same index again.
It makes exactly the sleepers on its address runnable, in their order.
-/

open Machine Routine

/-- The panics of `thread_wakeup` and what it calls. -/
inductive WakeupPanic where
  | wakeupSpl | wakeupResult | runnableSpl
  | array (p : ArrayPanic)
  | queue (p : QueuePanic)
  -- the slot of a sleeper has not been written
  | wild
  -- a loop that does not end
  | endless
  deriving DecidableEq, Repr

/-- The sleepers and the run queue. -/
structure Dormitory where
  sleepers : KArray Tid
  runqueue : KQueue Tid
  /-- `t_sleepaddr` of each thread; `none` is NULL. -/
  sleepaddr : Tid → Option Addr
  curspl : ℤ

namespace Dormitory

/-- A routine on the sleepers and the run queue. -/
abbrev Run (α : Type) : Type := Routine Errno WakeupPanic Dormitory α

/-- A call on the array of sleepers. -/
def onSleepers {α : Type} (m : KArray.Run Tid α) : Run α :=
  embed Dormitory.sleepers (fun a s => { s with sleepers := a }) .array m

/-- A call on the run queue. -/
def onRunqueue {α : Type} (m : KQueue.Run Tid α) : Run α :=
  embed Dormitory.runqueue (fun q s => { s with runqueue := q }) .queue m

/-- `make_runnable`; `depth` is that of `KQueue.addtailAt`. -/
def makeRunnable (depth : ℕ) (t : Tid) : Run Unit := do
  let s ← get
  assert (0 < s.curspl) .runnableSpl
  onRunqueue (KQueue.addtailAt (depth + 1) (some t))

/-- The loop of `thread_wakeup`, for at most as many rounds as `rounds`. -/
def wakeupFrom (depth : ℕ) (addr : Option Addr) : (rounds : ℕ) → (i : ℤ) → Run Unit
  | 0, _ => Routine.panic .endless
  | r + 1, i => do
      let s ← get
      if i < s.sleepers.num then do
        match ← onSleepers (KArray.getguy i) with
        | none => Routine.panic .wild
        | some t =>
          if s.sleepaddr t = addr then do
            onSleepers (KArray.remove i)
            match ← attempt (makeRunnable depth t) with
            | .ok () => wakeupFrom depth addr r (i32 (i32 (i - 1) + 1))
            | .error _ => Routine.panic .wakeupResult
          else
            wakeupFrom depth addr r (i32 (i + 1))
      else
        pure ()

/-- `thread_wakeup`. -/
def threadWakeup (depth rounds : ℕ) (addr : Option Addr) : Run Unit := do
  let s ← get
  assert (0 < s.curspl) .wakeupSpl
  wakeupFrom depth addr rounds 0

/-- The threads are made runnable in turn. -/
def makeAll (depth : ℕ) : List Tid → Run Unit
  | [] => pure ()
  | t :: ts => do
      makeRunnable depth t
      makeAll depth ts

/-! ### The run queue -/

section Runqueue

variable {depth : ℕ} {t : Tid} {ts : List Tid} {s s' : Dormitory}

/-- `make_runnable` changes the run queue only, and depends on nothing else but the interrupt
level. -/
theorem makeRunnable_ok (h : makeRunnable depth t s = .ok () s') :
  ∃ q, KQueue.addtailAt (depth + 1) (some t) s.runqueue = .ok () q
    ∧ s' = { s with runqueue := q }
    ∧ ∀ a, makeRunnable depth t { s with sleepers := a } = .ok () { s' with sleepers := a }
  := by
  simp only [makeRunnable, get_bind, bind_eq_ok, assert_eq_ok] at h
  obtain ⟨⟨⟩, _, ⟨hspl, rfl⟩, hrun⟩ := h
  cases hadd : KQueue.addtailAt (depth + 1) (some t) s.runqueue with
  | ok u q =>
    have hs' : s' = { s with runqueue := q } := by
      simp only [onRunqueue, embed, hadd] at hrun
      cases hrun
      rfl
    refine ⟨q, rfl, hs', ?_⟩
    intro a
    simp only [makeRunnable, get_bind, bind_eq_ok, assert_eq_ok]
    refine ⟨(), _, ⟨hspl, rfl⟩, ?_⟩
    simp only [onRunqueue, embed, hadd, hs']
  | err | panic =>
    simp only [onRunqueue, embed, hadd] at hrun
    cases hrun

/-- The same for several threads. -/
theorem makeAll_ok (h : makeAll depth ts s = .ok () s') :
  s'.sleepaddr = s.sleepaddr ∧ s'.curspl = s.curspl
    ∧ ∀ a, makeAll depth ts { s with sleepers := a } = .ok () { s' with sleepers := a }
  := by
  induction ts generalizing s with
  | nil =>
    cases h
    exact ⟨rfl, rfl, fun _ => rfl⟩
  | cons t ts ih =>
    simp only [makeAll, bind_eq_ok] at h
    obtain ⟨⟨⟩, s₁, hfirst, hrest⟩ := h
    obtain ⟨q, -, hs₁, hframe⟩ := makeRunnable_ok hfirst
    obtain ⟨haddr, hspl, hrest'⟩ := ih hrest
    rw [hs₁] at haddr hspl
    refine ⟨haddr, hspl, ?_⟩
    intro a
    simp only [makeAll, bind_eq_ok]
    exact ⟨(), _, hframe a, hrest' a⟩

/-- Threads that have been made runnable are at the tail of the run queue, in their order. -/
theorem makeAll_elems (h : makeAll depth ts s = .ok () s') (hbounded : s.runqueue.buf.Bounded)
    (hsize : s.runqueue.buf.size < 2 ^ 31 - 1) :
  s'.runqueue.buf.elems = s.runqueue.buf.elems ++ ts.map some
  := by
  induction ts generalizing s with
  | nil =>
    cases h
    rw [List.map_nil, List.append_nil]
  | cons t ts ih =>
    simp only [makeAll, bind_eq_ok] at h
    obtain ⟨⟨⟩, s₁, hfirst, hrest⟩ := h
    obtain ⟨q, hadd, rfl, -⟩ := makeRunnable_ok hfirst
    obtain ⟨hbounded', hsize', helems⟩ := KQueue.addtail_ok hbounded hsize hadd
    rw [ih hrest hbounded' hsize', helems, List.append_assoc]
    rfl

end Runqueue

/-! ### The loop -/

section Loop

variable {depth : ℕ} {addr : Option Addr} {s s' : Dormitory}

/-- Whether a thread sleeps on the address. -/
def wakes (s : Dormitory) (addr : Option Addr) (t : Tid) : Bool := decide (s.sleepaddr t = addr)

/-- The sleepers are the threads `ts`. -/
def Holds (s : Dormitory) (ts : List Tid) : Prop := KArray.Stands (ts.map some) s.sleepers

theorem index_lt (seen todo : List Tid) (t : Tid) :
  (seen.length : ℤ) < ((seen ++ t :: todo).map some).length
  := by
  rw [List.length_map, List.length_append, List.length_cons]
  omega

theorem getguy_eq {seen todo : List Tid} {t : Tid} (h : s.Holds (seen ++ t :: todo)) :
  onSleepers (KArray.getguy seen.length) s = .ok (some t) s
  := by
  have hindex := index_lt seen todo t
  obtain ⟨ptr, a, hrun, hget, rfl⟩ := exists_ok (KArray.getguy_spec h (by omega) hindex)
  have hptr : ptr = some t := by
    rw [Int.toNat_natCast, List.getElem?_map, List.getElem?_append_right (Nat.le_refl _),
      Nat.sub_self] at hget
    exact (Option.some.inj hget).symm
  rw [hptr] at hrun
  simp only [onSleepers, embed, hrun]

theorem remove_eq {seen todo : List Tid} {t : Tid} (h : s.Holds (seen ++ t :: todo)) :
  ∃ a, onSleepers (KArray.remove seen.length) s = .ok () { s with sleepers := a }
    ∧ KArray.Stands ((seen ++ todo).map some) a
  := by
  have hindex := index_lt seen todo t
  obtain ⟨⟨⟩, a, hrun, hstands, -⟩ := exists_ok (KArray.remove_spec h (by omega) hindex)
  use a
  constructor
  · simp only [onSleepers, embed, hrun]
  · have herase : ((seen ++ t :: todo).map some).eraseIdx (seen.length : ℤ).toNat
        = (seen ++ todo).map some := by
      rw [Int.toNat_natCast, List.map_append, List.eraseIdx_append_of_length_le (by simp)]
      simp
    rwa [herase] at hstands

/-- From the sleepers `todo` on, the loop wakes those on the address and keeps the others, behind
those that it has seen; it ends after as many rounds as there are sleepers left, and one. -/
theorem wakeupFrom_spec {todo seen : List Tid} {rounds : ℕ} (h : s.Holds (seen ++ todo))
    (hrun : makeAll depth (todo.filter (s.wakes addr)) s = .ok () s')
    (hrounds : todo.length < rounds) :
  ∃ a, wakeupFrom depth addr rounds seen.length s = .ok () { s' with sleepers := a }
    ∧ KArray.Stands ((seen ++ todo.filter fun t => !s.wakes addr t).map some) a
  := by
  induction todo generalizing seen rounds s s' with
  | nil =>
    obtain ⟨r, rfl⟩ := Nat.exists_eq_add_one_of_ne_zero (Nat.ne_of_gt hrounds)
    have hnum := h.num
    rw [List.append_nil, List.length_map] at hnum
    have hs' : s = s' := (pure_eq_ok.mp hrun).2
    subst hs'
    use s.sleepers
    constructor
    · simp only [wakeupFrom, get_bind]
      rw [if_neg (by omega)]
      rfl
    · exact h
  | cons t todo ih =>
    obtain ⟨r, rfl⟩ := Nat.exists_eq_add_one_of_ne_zero (Nat.ne_of_gt (Nat.zero_lt_of_lt hrounds))
    have hnum := h.num
    have hle := h.le
    have hsmall := h.small
    rw [List.length_map, List.length_append, List.length_cons] at hnum
    simp only [wakeupFrom, get_bind]
    rw [if_pos (by omega), bind_ok (getguy_eq h)]
    rw [List.length_cons] at hrounds
    dsimp only
    by_cases hwake : s.sleepaddr t = addr
    · -- the next sleeper moves to the index of the removed one
      have hwakes : s.wakes addr t = true := decide_eq_true hwake
      have hindex : i32 (i32 ((seen.length : ℤ) - 1) + 1) = seen.length := by
        rw [i32_of_mem (z := (seen.length : ℤ) - 1) (by omega) (by omega),
          i32_of_mem (by omega) (by omega)]
        omega
      rw [List.filter_cons, if_pos hwakes] at hrun
      simp only [makeAll, bind_eq_ok] at hrun
      obtain ⟨⟨⟩, s₁, hfirst, hrest⟩ := hrun
      obtain ⟨a, hremove, hstands⟩ := remove_eq h
      obtain ⟨q, -, hs₁, hframe⟩ := makeRunnable_ok hfirst
      obtain ⟨-, -, hrest'⟩ := makeAll_ok hrest
      have haddr : wakes { s₁ with sleepers := a } addr = s.wakes addr := by
        rw [hs₁]
        rfl
      have hattempt := attempt_eq_ok.mpr (.inl ⟨(), hframe a, rfl⟩)
      rw [if_pos hwake, bind_ok hremove, bind_ok hattempt]
      dsimp only
      rw [hindex]
      have hrun' : makeAll depth (todo.filter (wakes { s₁ with sleepers := a } addr))
          { s₁ with sleepers := a } = .ok () { s' with sleepers := a } := by
        rw [haddr]
        exact hrest' a
      have hholds : Holds { s₁ with sleepers := a } (seen ++ todo) := hstands
      obtain ⟨a', hloop, hstands'⟩ := ih hholds hrun' (Nat.lt_of_succ_lt_succ hrounds)
      rw [haddr] at hstands'
      use a', hloop
      rw [List.filter_cons, if_neg (by rw [hwakes]; simp)]
      exact hstands'
    · have hwakes : s.wakes addr t = false := decide_eq_false hwake
      have hindex : i32 ((seen.length : ℤ) + 1) = ((seen ++ [t]).length : ℕ) := by
        rw [i32_of_mem (by omega) (by omega), List.length_append]
        rfl
      rw [List.filter_cons, if_neg (by rw [hwakes]; simp)] at hrun
      rw [if_neg hwake, hindex]
      have hsplit : seen ++ t :: todo = (seen ++ [t]) ++ todo := by simp
      rw [hsplit] at h
      obtain ⟨a, hloop, hstands⟩ := ih h hrun (Nat.lt_of_succ_lt_succ hrounds)
      use a, hloop
      rw [List.filter_cons, if_pos (by rw [hwakes]; rfl)]
      simpa using hstands

/-- `thread_wakeup` takes exactly the sleepers on the address from the array and puts them at the
tail of the run queue, both in their order, if `make_runnable` succeeds for them. -/
theorem threadWakeup_exact {xs : List Tid} {s₁ : Dormitory} (hxs : s.Holds xs)
    (hqueue : s.runqueue.buf.Bounded) (hsize : s.runqueue.buf.size < 2 ^ 31 - 1)
    (hspl : 0 < s.curspl)
    (hrun : makeAll depth (xs.filter fun t => s.sleepaddr t = addr) s = .ok () s₁) :
  ∀ rounds, xs.length < rounds → ∃ s', threadWakeup depth rounds addr s = .ok () s'
    ∧ s'.Holds (xs.filter fun t => s.sleepaddr t ≠ addr)
    ∧ s'.runqueue.buf.elems
        = s.runqueue.buf.elems ++ (xs.filter fun t => s.sleepaddr t = addr).map some
    ∧ s'.sleepaddr = s.sleepaddr ∧ s'.curspl = s.curspl
  := by
  intro rounds hrounds
  have hnone : s.Holds ([] ++ xs) := hxs
  obtain ⟨a, hloop, hstands⟩ := wakeupFrom_spec hnone hrun hrounds
  obtain ⟨haddr, hspl', -⟩ := makeAll_ok hrun
  use { s₁ with sleepers := a }
  refine ⟨?_, ?_, ?_, haddr, hspl'⟩
  · simp only [threadWakeup, get_bind, bind_eq_ok, assert_eq_ok]
    exact ⟨(), _, ⟨hspl, rfl⟩, hloop⟩
  · have hothers : (xs.filter fun t => !s.wakes addr t)
        = xs.filter fun t => s.sleepaddr t ≠ addr := by
      congr 1
      funext t
      simp [wakes]
    rw [List.nil_append, hothers] at hstands
    exact hstands
  · have helems := makeAll_elems hrun hqueue hsize
    exact helems

/-- Three of four threads sleep on one address, two of them at the ends and two next to each other,
and the run queue has to grow. -/
def night : Dormitory where
  sleepers := ⟨4, 6, some [some 1, some 2, some 3, some 4, none, none], []⟩
  runqueue := KQueue.create 2 []
  sleepaddr t := if t = 3 then some 8 else some 7
  curspl := 15

theorem threadWakeup_exact_night :
  ∃ s', threadWakeup 0 5 (some 7) night = .ok () s' ∧ s'.Holds [3]
    ∧ s'.runqueue.buf.elems = [some 1, some 2, some 4]
    ∧ s'.sleepaddr = night.sleepaddr ∧ s'.curspl = night.curspl
  := by
  have hxs : night.Holds [1, 2, 3, 4] := by
    constructor
    · rfl
    · decide
    · decide
    · nofun
    · intro slots hslots
      cases hslots
      rfl
    · intro slots hslots
      cases hslots
      rfl
  obtain ⟨s₁, hrun⟩ : ∃ s₁, makeAll 0 [1, 2, 4] night = .ok () s₁ := by decide +kernel
  exact threadWakeup_exact hxs ⟨by decide, by decide⟩ (by decide) (by decide) hrun 5 (by decide)

end Loop

end Dormitory
