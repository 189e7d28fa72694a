import AzureSpider.Thread.Monitor
import Mathlib.Data.Int.Notation

/-!
# Locks

`lock_acquire`, `lock_release` and `lock_do_i_hold` of `synch.c`, for any number of threads
and any order of their calls.

The check of `lock_release`, `assert(lock->owner = curthread)`, is an assignment: a thread
that does not hold the lock passes it and frees the lock.  Along the runs in which only the
owner calls `lock_release`, at most one thread holds the lock, `owner` names it, and nobody
sleeps on a free lock; without that, two threads can hold the lock.
-/

open Threads

/-- `struct lock`. -/
structure Lock where
  lock_ : ℤ
  owner : Option Tid
  deriving DecidableEq, Repr

namespace Lock

/-- `lock_create`. -/
def create : Lock := ⟨1, none⟩

/-- `lock_release` up to `thread_wakeup`, called by the thread `curthread`; `none` when an
assertion fails. -/
def free (curthread : Option Tid) (l : Lock) : Option Lock :=
  -- `assert(lock->owner = curthread)` assigns, and tests that the value is not `NULL`
  let l := { l with owner := curthread }
  if l.owner = none then none else some { l with lock_ := 1, owner := none }

/-- The code of a lock at `addr`. -/
def ops (addr : Addr) : Ops Lock where
  addr := addr
  entry t l := l.owner ≠ some t
  blocked l := l.lock_ == 0
  take t l := if l.lock_ = 1 then some ⟨0, some t⟩ else none
  post curthread l := l.free curthread

/-- `lock_acquire`, called by the running thread `t`, up to the next switch. -/
def acquire (addr : Addr) (t : Tid) : Monitor.Run Lock Unit := Monitor.enter (ops addr) t

/-- `lock_release`, called by the running thread `t`. -/
def release (addr : Addr) (t : Tid) : Monitor.Run Lock Unit :=
  Monitor.signal (ops addr) (some t)

/-- `lock_do_i_hold`, called by the thread `t`. -/
def doIHold (l : Lock) (t : Tid) : Bool := l.owner == some t

/-- The thread is between the return of its `lock_acquire` and its own `lock_release`. -/
def holds : List Record → Tid → Bool
  | [], _ => false
  | .took t' :: hist, t => t' == t || holds hist t
  | .posted who :: hist, t => who != some t && holds hist t

/-- The lock is used as `synch.h` says: one thread at most holds it, `owner` and
`lock_do_i_hold` tell which, `lock_release` by another thread does not pass its assertion,
and nobody sleeps on a free lock. -/
structure Right (addr : Addr) (s : Monitor Lock) : Prop where
  exclusive : ∀ t t', holds s.hist t → holds s.hist t' → t = t'
  owner_iff : s.obj.owner ≠ none ↔ s.obj.lock_ = 0
  owner_holds : ∀ t, s.obj.owner = some t → holds s.hist t
  doIHold_iff : ∀ t, s.obj.doIHold t = true ↔ holds s.hist t
  release_panics : ∀ t, ¬ holds s.hist t → ∃ p, release addr t s = .panic p
  noSleeper : s.obj.lock_ = 1 → NoSleeper addr s.th

/-- Every call of `lock_release` is admitted. -/
def anyRelease : Option Tid → Lock → Prop := fun _ _ => True

/-- Only the calls of `lock_release` by the owner are admitted. -/
def ownerRelease : Option Tid → Lock → Prop := fun who l => who = l.owner

/-- What the owner's calls keep of the lock and of the history. -/
def Held (l : Lock) (hist : List Record) : Prop :=
  (l = ⟨1, none⟩ ∧ ∀ t, holds hist t = false)
    ∨ ∃ t, l = ⟨0, some t⟩ ∧ ∀ t', holds hist t' = true ↔ t' = t

variable {addr : Addr} {l l' : Lock} {hist : List Record}

theorem held_take {t : Tid} (h : Held l hist) (hfree : (ops addr).blocked l = false)
    (htake : (ops addr).take t l = some l') :
  Held l' (.took t :: hist)
  := by
  rcases h with ⟨rfl, hnone⟩ | ⟨t', rfl, hone⟩
  · simp only [ops, if_true, Option.some.injEq] at htake
    right
    use t, htake.symm
    intro t'
    simp only [holds, hnone, Bool.or_false, beq_iff_eq]
    apply eq_comm
  · simp [ops] at hfree

theorem held_post {who : Option Tid} (h : Held l hist) (howner : who = l.owner)
    (hpost : (ops addr).post who l = some l') :
  Held l' (.posted who :: hist)
  := by
  rcases h with ⟨rfl, hnone⟩ | ⟨t, rfl, hone⟩
  · simp [ops, free, howner] at hpost
  · simp only [ops, free, howner, reduceCtorEq, if_false, Option.some.injEq] at hpost
    left
    use hpost.symm
    intro t'
    by_cases ht : t' = t
    · simp [holds, howner, ht]
    · have hnot : holds hist t' = false := by
        rw [← Bool.not_eq_true, hone t']
        apply ht
      simp [holds, hnot]

/-- Along every run in which `lock_release` is called by the owner of the lock only, one
thread at most holds the lock, `owner` is not `NULL` exactly when the lock is taken, and
then names the holder, `lock_do_i_hold` is true for exactly that thread, and nobody sleeps
on the lock while it is free. -/
theorem exclusive_of_ownerRelease {s₀ s : Monitor Lock} (hcreate : s₀.obj = create)
    (hhist : s₀.hist = []) (hsleep : NoSleeper addr s₀.th)
    (hreach : Monitor.Reach (ops addr) ownerRelease s₀ s) :
  (∀ t t', holds s.hist t → holds s.hist t' → t = t')
    ∧ (s.obj.owner ≠ none ↔ s.obj.lock_ = 0)
    ∧ (∀ t, s.obj.owner = some t → holds s.hist t)
    ∧ (∀ t, s.obj.doIHold t = true ↔ holds s.hist t)
    ∧ (s.obj.lock_ = 1 → NoSleeper addr s.th)
  := by
  have hheld : Held s.obj s.hist := by
    apply hreach.object Held
    · left
      simp [hcreate, hhist, create, holds]
    · intro t o o' hist h hfree htake
      apply held_take h hfree htake
    · intro who o o' hist h hallow hpost
      apply held_post h hallow hpost
  have hquiet : s.obj.lock_ = 1 → NoSleeper addr s.th := by
    intro hfree
    apply hreach.quiet (fun _ => hsleep)
    simp [ops, hfree]
  rcases hheld with ⟨hl, hnone⟩ | ⟨t, hl, hone⟩
  · simp only [hl, hnone, doIHold] at hquiet ⊢
    simpa using hquiet
  · simp only [hl, hone, doIHold] at hquiet ⊢
    constructor
    · rintro t₁ t₂ rfl rfl
      rfl
    · simp [@eq_comm _ t]

/-- Thread 1 takes and frees the lock, then thread 2 takes it. -/
theorem exclusive_of_ownerRelease_two_threads :
  ∃ s : Monitor Lock, s.hist = [.took 2, .posted (some 1), .took 1]
    ∧ (∀ t t', holds s.hist t → holds s.hist t' → t = t')
    ∧ (s.obj.owner ≠ none ↔ s.obj.lock_ = 0)
    ∧ (∀ t, s.obj.owner = some t → holds s.hist t)
    ∧ (∀ t, s.obj.doIHold t = true ↔ holds s.hist t)
    ∧ (s.obj.lock_ = 1 → NoSleeper 100 s.th)
  := by
  have hreach : ∃ s, Monitor.Reach (ops 100) ownerRelease (Monitor.twoThreads create) s
      ∧ s.hist = [.took 2, .posted (some 1), .took 1] := by
    refine ⟨_, .tail (.tail (.tail (.tail (.tail .refl ⟨.enter 1, [], ⟨rfl, rfl⟩, by simp, rfl⟩)
      ⟨.signal (some 1), [], ⟨rfl, rfl⟩, by rintro _ ⟨⟩; rfl, rfl⟩)
      ⟨.yield 1, [], ⟨rfl, rfl⟩, by simp, rfl⟩)
      ⟨.schedule, [], ⟨rfl, by decide⟩, by simp, rfl⟩)
      ⟨.enter 2, [], ⟨rfl, rfl⟩, by simp, rfl⟩, rfl⟩
  obtain ⟨s, hs, hhist⟩ := hreach
  use s, hhist
  apply exclusive_of_ownerRelease rfl rfl (by simp [NoSleeper, Monitor.twoThreads]) hs

/-- Thread 1 takes the lock; thread 2 frees it without holding it, and takes it: two threads
hold the lock. -/
theorem not_right_foreign_release :
  ¬ ∀ s, Monitor.Reach (ops 100) anyRelease (Monitor.twoThreads create) s → Right 100 s
  := by
  intro h
  have hreach : ∃ s, Monitor.Reach (ops 100) anyRelease (Monitor.twoThreads create) s
      ∧ s.hist = [.took 2, .posted (some 2), .took 1] := by
    refine ⟨_, .tail (.tail (.tail (.tail (.tail .refl ⟨.enter 1, [], ⟨rfl, rfl⟩, by simp, rfl⟩)
      ⟨.yield 1, [], ⟨rfl, rfl⟩, by simp, rfl⟩)
      ⟨.schedule, [], ⟨rfl, by decide⟩, by simp, rfl⟩)
      ⟨.signal (some 2), [], ⟨rfl, rfl⟩, by simp [anyRelease], rfl⟩)
      ⟨.enter 2, [], ⟨rfl, rfl⟩, by simp, rfl⟩, rfl⟩
  obtain ⟨s, hs, hhist⟩ := hreach
  have hone := (h s hs).exclusive 1 2
  rw [hhist] at hone
  revert hone
  decide

end Lock
