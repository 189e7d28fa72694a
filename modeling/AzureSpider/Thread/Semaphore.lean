import AzureSpider.Lib.Machine
import AzureSpider.Thread.Monitor

/-!
# Semaphores

`P` and `V` of `synch.c`, for any number of threads and any order of their calls, with `V`
also called by interrupt handlers.  In every state the count is the initial one plus the
completed `V` less the completed `P`, and is not negative; while it is positive, no thread
sleeps on the semaphore.
-/

open Machine Threads

namespace Semaphore

/-- The code of a semaphore at `addr`, whose state is its `count`. -/
def ops (addr : Addr) : Ops ℤ where
  addr := addr
  entry _ _ := true
  blocked count := count == 0
  -- `assert(sem->count>0); sem->count--`
  take _ count := if 0 < count then some (i32 (count - 1)) else none
  -- `sem->count++; assert(sem->count>0)`
  post _ count := if 0 < i32 (count + 1) then some (i32 (count + 1)) else none

/-- `P`, called by the running thread `t`, up to the next switch. -/
def P (addr : Addr) (t : Tid) : Monitor.Run ℤ Unit := Monitor.enter (ops addr) t

/-- `V`, called by a thread or by an interrupt handler. -/
def V (addr : Addr) (who : Option Tid) : Monitor.Run ℤ Unit :=
  Monitor.signal (ops addr) who

/-- The number of completed `P`. -/
def completedP (hist : List Record) : ℕ := hist.countP fun r => r matches .took _

/-- The number of completed `V`. -/
def completedV (hist : List Record) : ℕ := hist.countP fun r => r matches .posted _

/-- Every call of `V` is admitted. -/
def anyPost : Option Tid → ℤ → Prop := fun _ _ => True

/-- The count is what the completed operations leave of the initial count. -/
def Conserved (initial : ℤ) (count : ℤ) (hist : List Record) : Prop :=
  count = initial + completedV hist - completedP hist ∧ 0 ≤ count ∧ count < 2 ^ 31

variable {addr : Addr} {initial count count' : ℤ} {hist : List Record}

theorem conserved_take {t : Tid} (h : Conserved initial count hist)
    (htake : (ops addr).take t count = some count') :
  Conserved initial count' (.took t :: hist)
  := by
  obtain ⟨hcount, hnonneg, hmax⟩ := h
  simp only [ops] at htake
  split at htake
  · simp only [Option.some.injEq] at htake
    rw [i32_of_mem (by omega) (by omega)] at htake
    simp only [Conserved, completedP, completedV, List.countP_cons] at hcount ⊢
    simp only [if_true, Bool.false_eq_true, if_false]
    omega
  · simp at htake

theorem conserved_post {who : Option Tid} (h : Conserved initial count hist)
    (hpost : (ops addr).post who count = some count') :
  Conserved initial count' (.posted who :: hist)
  := by
  obtain ⟨hcount, hnonneg, hmax⟩ := h
  simp only [ops] at hpost
  split at hpost
  next hpos =>
    -- past the largest `int` the count would have become negative
    have hfits : count + 1 < 2 ^ 31 := by
      simp only [i32] at hpos
      omega
    simp only [Option.some.injEq] at hpost
    rw [i32_of_mem (by omega) hfits] at hpost
    simp only [Conserved, completedP, completedV, List.countP_cons] at hcount ⊢
    simp only [if_true, Bool.false_eq_true, if_false]
    omega
  · simp at hpost

/-- In every state that threads reach by `P` and `V` on a semaphore created with the count
`initial`, the count is the initial one plus the completed `V` less the completed `P`; it
is never negative, and while it is positive no thread sleeps on the semaphore. -/
theorem count_conserved {s₀ s : Monitor ℤ} (hinit : 0 ≤ s₀.obj ∧ s₀.obj < 2 ^ 31)
    (hhist : s₀.hist = []) (hsleep : NoSleeper addr s₀.th)
    (hreach : Monitor.Reach (ops addr) anyPost s₀ s) :
  s.obj = s₀.obj + completedV s.hist - completedP s.hist
    ∧ 0 ≤ s.obj
    ∧ (0 < s.obj → ∀ t ∈ s.th.sleepers.guys, s.th.sleepaddr t ≠ some addr)
  := by
  have hconserved : Conserved s₀.obj s.obj s.hist := by
    apply hreach.object (Conserved s₀.obj)
    · rw [hhist]
      use by simp [completedP, completedV]
    · intro t o o' hist h _ htake
      apply conserved_take h htake
    · intro who o o' hist h _ hpost
      apply conserved_post h hpost
  constructor
  · apply hconserved.1
  · constructor
    · apply hconserved.2.1
    · intro hpos
      apply hreach.quiet (fun _ => hsleep)
      simp only [ops, beq_eq_false_iff_ne]
      omega

/-- Thread 1 waits on a semaphore with the count `0`; thread 2 posts it, and thread 1 goes
on. -/
theorem count_conserved_two_threads :
  ∃ s : Monitor ℤ, s.hist = [.took 1, .posted (some 2)]
    ∧ s.obj = (Monitor.twoThreads 0).obj + completedV s.hist - completedP s.hist
    ∧ 0 ≤ s.obj
    ∧ (0 < s.obj → ∀ t ∈ s.th.sleepers.guys, s.th.sleepaddr t ≠ some 100)
  := by
  have hreach : ∃ s, Monitor.Reach (ops 100) anyPost (Monitor.twoThreads 0) s
      ∧ s.hist = [.took 1, .posted (some 2)] := by
    refine ⟨_, .tail (.tail (.tail (.tail (.tail (.tail .refl
      ⟨.enter 1, [], ⟨rfl, rfl⟩, by simp, rfl⟩)
      ⟨.schedule, [], ⟨rfl, by decide⟩, by simp, rfl⟩)
      ⟨.signal (some 2), [], ⟨rfl, rfl⟩, by simp [anyPost], rfl⟩)
      ⟨.yield 2, [], ⟨rfl, rfl⟩, by simp, rfl⟩)
      ⟨.schedule, [], ⟨rfl, by decide⟩, by simp, rfl⟩)
      ⟨.resume 1, [], ⟨rfl, by decide⟩, by simp, rfl⟩, rfl⟩
  obtain ⟨s, hs, hhist⟩ := hreach
  use s, hhist
  apply count_conserved (by decide) rfl (by simp [NoSleeper, Monitor.twoThreads]) hs

end Semaphore
