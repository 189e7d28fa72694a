import AzureSpider.Thread.Thread
import Mathlib.Data.List.Perm.Basic

/-!
# Runs of the thread system

What happens between two points at which the processor can be taken away, for any number of
threads: `thread_fork`, `thread_yield`, `thread_sleep`, `thread_wakeup` and `thread_exit` up to
the call of the scheduler, the choice of the next thread, and what that thread does when it is
switched to.  A thread made by `thread_fork` starts in `mi_threadstart`, past the end of
`mi_switch`; the others collect the zombies on their way out of `mi_switch`.

In every state of a run, each thread that is not destroyed yet is in exactly one place: it is
the current one, or in the run queue, or asleep, or a zombie.
-/

open Routine

open Threads

/-- Where a thread is in the code. -/
inductive Point where
  /-- It was made by `thread_fork` and has not run yet. -/
  | start
  /-- In its own code. -/
  | user
  /-- Switched away inside `thread_yield`. -/
  | yielded
  /-- Switched away inside `thread_sleep`. -/
  | slept
  /-- Switched away inside `thread_exit`. -/
  | exited
  deriving DecidableEq, Repr

/-- The thread system, with what is known of its history. -/
structure ThreadSystem where
  th : Threads
  point : Tid → Point
  /-- The boot thread and the threads that `thread_fork` made, without the destroyed ones. -/
  alive : List Tid
  /-- The address of the last `thread_sleep` of each thread. -/
  sleptOn : Tid → Option Addr
  /-- A `thread_fork` has succeeded. -/
  forked : Bool

namespace ThreadSystem

/-- Routines on the thread system. -/
abbrev Run (α : Type) := Routine Errno ThreadPanic ThreadSystem α

/-- A routine of the thread system. -/
def onThreads {α : Type} (m : Threads.Run α) : Run α :=
  zoom th (fun th s => { s with th := th }) m

/-- Note where a thread is. -/
def setPoint (t : Tid) (p : Point) : Run Unit :=
  modify fun s => { s with point := Function.update s.point t p }

/-- The state after `thread_bootstrap` and `scheduler_bootstrap`. -/
def boot (t : Tid) : ThreadSystem where
  th :=
    { curthread := some t
      sleepaddr := fun _ => none
      sleepers := ⟨[], 0⟩
      zombies := ⟨[], 0⟩
      runqueue := ⟨[], 32⟩
      numthreads := 1
      kmallocs := [] }
  point := fun _ => .user
  alive := [t]
  sleptOn := fun _ => none
  forked := false

/-! ### Events -/

/-- What can happen next. -/
inductive Event where
  /-- The running thread calls `thread_fork`, which gives the new thread the structure `t`. -/
  | fork (t : Tid)
  /-- `thread_yield`, called by the running thread or by an interrupt handler. -/
  | yield
  | sleep (addr : Addr)
  /-- `thread_wakeup`, called by the running thread or by an interrupt handler. -/
  | wakeup (addr : Addr)
  | exit
  /-- The scheduler finds a ready thread. -/
  | schedule
  /-- The thread that was switched to goes on. -/
  | resume
  deriving DecidableEq, Repr

/-- The current thread runs its own code. -/
def Running (s : ThreadSystem) : Prop := ∃ t, s.th.curthread = some t ∧ s.point t = .user

/-- The processor is inside the scheduler, where interrupts are taken by the idle loop. -/
def Idle (s : ThreadSystem) : Prop := s.th.curthread = none

/-- The event can happen. -/
def Enabled (s : ThreadSystem) : Event → Prop
  | .fork t => s.Running ∧ t ∉ s.alive
  | .yield => s.Running ∨ s.Idle
  | .sleep _ => s.Running
  | .wakeup _ => s.Running ∨ s.Idle
  | .exit => s.Running
  | .schedule => s.th.curthread = none ∧ s.th.runqueue.elems ≠ []
  | .resume => ∃ t, s.th.curthread = some t ∧ s.point t ≠ .user

/-- Note where the current thread is. -/
def setCurPoint (p : Point) : Run Unit := do
  let s ← get
  match s.th.curthread with
  | none => pure ()
  | some t => setPoint t p

/-- `thread_fork` of the thread `t`. -/
def fork (t : Tid) : Run Unit := do
  match ← attempt (onThreads (threadFork t)) with
  | .ok _ =>
    setPoint t .start
    modify fun s => { s with alive := t :: s.alive, forked := true }
  | .error _ => pure ()

/-- `thread_sleep` up to the call of the scheduler. -/
def sleep (addr : Addr) : Run Unit := do
  let s ← get
  match s.th.curthread with
  | none => Routine.panic .noCurthread
  | some t =>
    setPoint t .slept
    modify fun s => { s with sleptOn := Function.update s.sleptOn t (some addr) }
    onThreads (threadSleepOut addr)

/-- The threads that `exorcise` destroys are no longer alive. -/
def bury : Run Unit :=
  modify fun s => { s with alive := s.alive.filter (· ∉ s.th.zombies.guys) }

/-- The thread that was switched to goes on where it was. -/
def resume : Run Unit := do
  let s ← get
  match s.th.curthread with
  | none => Routine.panic .noCurthread
  | some t =>
    match s.point t with
    | .start => setPoint t .user
    | .user => pure ()
    | .yielded =>
      bury
      onThreads miSwitchIn
      setPoint t .user
    | .slept =>
      bury
      onThreads threadSleepIn
      setPoint t .user
    | .exited => Routine.panic .cameBack

/-- What an event does. -/
def act : Event → Run Unit
  | .fork t => fork t
  | .yield => do
      setCurPoint .yielded
      onThreads threadYield
  | .sleep addr => sleep addr
  | .wakeup addr => onThreads (threadWakeup addr)
  | .exit => do
      setCurPoint .exited
      onThreads threadExit
  | .schedule => onThreads Threads.schedule
  | .resume => resume

/-- The state in which `kmalloc` will give the answers `mem`. -/
def withMem (mem : List Bool) (s : ThreadSystem) : ThreadSystem :=
  { s with th := { s.th with kmallocs := mem } }

/-- A condition on the steps of a run: on the state before the step, on what happens, and on
the answers of `kmalloc`. -/
abbrev Condition := ThreadSystem → Event → List Bool → Prop

/-- Every step is admitted. -/
def anyStep : Condition := fun _ _ _ => True

/-- One step of a run, which meets the condition. -/
def Step (allow : Condition) (s s' : ThreadSystem) : Prop :=
  ∃ e mem, s.Enabled e ∧ allow s e mem ∧ act e (s.withMem mem) = .ok () s'

/-- The states a run reaches whose steps meet the condition. -/
abbrev Reaches (allow : Condition) : ThreadSystem → ThreadSystem → Prop :=
  Relation.ReflTransGen (Step allow)

/-! ### Runs of given events -/

section Replay

variable {s s' : ThreadSystem}

theorem running_iff :
  s.Running ↔ (s.th.curthread.any fun t => s.point t = .user) = true
  := by
  simp [Running, Option.any_eq_true]

theorem resumes_iff :
  s.Enabled .resume ↔ (s.th.curthread.any fun t => s.point t ≠ .user) = true
  := by
  simp [Enabled, Option.any_eq_true]

instance : Decidable s.Running := decidable_of_iff' _ running_iff

instance : (e : Event) → Decidable (s.Enabled e)
  | .fork _ => inferInstanceAs (Decidable (_ ∧ _))
  | .yield | .wakeup _ => inferInstanceAs (Decidable (_ ∨ s.th.curthread = none))
  | .sleep _ | .exit => inferInstanceAs (Decidable s.Running)
  | .schedule => inferInstanceAs (Decidable (_ ∧ _))
  | .resume => decidable_of_iff' _ resumes_iff

/-- The state after the events, with memory for all of them. -/
def replay : List Event → ThreadSystem → Option ThreadSystem
  | [], s => some s
  | e :: es, s =>
    if s.Enabled e then
      match act e (s.withMem []) with
      | .ok _ s' => replay es s'
      | _ => none
    else none

theorem reaches_of_replay {es : List Event} (h : replay es s = some s') :
  Reaches anyStep s s'
  := by
  induction es generalizing s with
  | nil =>
    obtain rfl := Option.some.inj h
    exact .refl
  | cons e es ih =>
    rw [replay] at h
    split at h
    case isTrue he =>
      split at h
      case h_1 s₁ hact => exact .head ⟨e, [], he, trivial, hact⟩ (ih h)
      case h_2 => cases h
    case isFalse => cases h

/-- A run of given events ends in a state with a property that can be tested. -/
theorem exists_of_replay (b : Tid) (es : List Event) [DecidablePred P]
    (h : ((replay es (boot b)).any fun s => P s) = true) :
  ∃ s, Reaches anyStep (boot b) s ∧ P s
  := by
  obtain ⟨s, hs, hP⟩ := (Option.any_eq_true _ _).mp h
  exact ⟨s, reaches_of_replay hs, of_decide_eq_true hP⟩

end Replay

/-! ### What an event does -/

variable {s s' : ThreadSystem} {u : Unit}

theorem onThreads_ok {α : Type} {m : Threads.Run α} {a : α} :
  onThreads m s = .ok a s' ↔ ∃ th, m s.th = .ok a th ∧ { s with th := th } = s'
  := zoom_eq_ok

variable {t : Tid}

theorem setCurPoint_ok {p : Point} (hcur : s.th.curthread = some t) :
  setCurPoint p s = .ok () { s with point := Function.update s.point t p }
  := by
  simp only [setCurPoint, get_bind, hcur]
  rfl

/-- A `thread_yield` in the idle loop does nothing. -/
theorem yield_idle (hcur : s.th.curthread = none) :
  act .yield s = .ok () s
  := by
  simp only [act, setCurPoint, get_bind, bind_eq_ok, hcur]
  exact ⟨(), s, rfl, onThreads_ok.mpr ⟨s.th, by simp [threadYield, miSwitchOut, hcur], rfl⟩⟩

/-- What an event does to the thread system. -/
inductive Happens (s : ThreadSystem) : Event → ThreadSystem → Prop
  | forked {t : Tid} {th : Threads} (hf : Forked t s.th th) :
      Happens s (.fork t) { s with
        th := th, point := Function.update s.point t .start, alive := t :: s.alive,
        forked := true }
  | notForked {t : Tid} {th : Threads} (hf : NotForked t s.th th) :
      Happens s (.fork t) { s with th := th }
  | yielded {t : Tid} {q : Queue Tid} (hcur : s.th.curthread = some t)
      (hq : s.th.runqueue.addtail t (s.th.kmallocs.headD true) = some q) :
      Happens s .yield { s with
        th := { s.th with curthread := none, runqueue := q, kmallocs := s.th.kmallocs.tail }
        point := Function.update s.point t .yielded }
  | idled : Happens s .yield s
  | slept {t : Tid} {addr : Addr} {a : Table Tid} (hcur : s.th.curthread = some t)
      (ha : s.th.sleepers.add t (s.th.kmallocs.headD true) = some a) :
      Happens s (.sleep addr) { s with
        th := { s.th with
          curthread := none, sleepaddr := Function.update s.th.sleepaddr t (some addr),
          sleepers := a, kmallocs := s.th.kmallocs.tail }
        point := Function.update s.point t .slept
        sleptOn := Function.update s.sleptOn t (some addr) }
  | woken {addr : Addr} {th : Threads} (hth : threadWakeup addr s.th = .ok () th) :
      Happens s (.wakeup addr) { s with th := th }
  | exited {t : Tid} {a : Table Tid} (hcur : s.th.curthread = some t)
      (ha : s.th.zombies.add t (s.th.kmallocs.headD true) = some a) :
      Happens s .exit { s with
        th := { s.th with
          curthread := none, numthreads := s.th.numthreads - 1, zombies := a,
          kmallocs := s.th.kmallocs.tail }
        point := Function.update s.point t .exited }
  | scheduled {t : Tid} {rest : List Tid} (hcur : s.th.curthread = none)
      (hq : s.th.runqueue.elems = t :: rest) :
      Happens s .schedule { s with
        th := { s.th with
          curthread := some t, runqueue := { s.th.runqueue with elems := rest } } }
  | started {t : Tid} (hcur : s.th.curthread = some t) (hstart : s.point t = .start) :
      Happens s .resume { s with point := Function.update s.point t .user }
  /-- The zombies are collected, and the address is cleared after `thread_sleep`. -/
  | switchedIn {t : Tid} {sleepaddr : Tid → Option Addr} (hcur : s.th.curthread = some t)
      (hstart : s.point t ≠ .start)
      (haddr : sleepaddr = s.th.sleepaddr ∨ sleepaddr = Function.update s.th.sleepaddr t none) :
      Happens s .resume { s with
        th := { s.th with zombies := s.th.zombies.clear, sleepaddr := sleepaddr }
        point := Function.update s.point t .user
        alive := s.alive.filter (· ∉ s.th.zombies.guys) }

theorem fork_spec (t : Tid) :
  wp (act (.fork t)) s (fun _ s' => Happens s (.fork t) s')
  := by
  simp only [act, fork, wp_bind, wp_attempt, onThreads, wp_zoom]
  apply wp_mono (threadFork_spec t)
  · intro _ th hth
    simp only [setPoint, wp_modify]
    exact .forked hth
  · intro _ th hth
    rw [wp_pure]
    exact .notForked hth

/-- An event that can happen does what it should. -/
theorem Enabled.happens {e : Event} {mem : List Bool} (he : s.Enabled e)
    (h : act e (s.withMem mem) = .ok u s') :
  Happens (s.withMem mem) e s'
  := by
  replace he : (s.withMem mem).Enabled e := he
  generalize s.withMem mem = s at he h ⊢
  cases e with
  | fork t =>
    have hfork := wp_ok (fork_spec t) h
    exact hfork
  | yield =>
    rcases he with ⟨t, hcur, -⟩ | hidle
    · simp only [act, bind_eq_ok, setCurPoint_ok hcur, Outcome.ok.injEq] at h
      obtain ⟨_, _, ⟨-, rfl⟩, h⟩ := h
      obtain ⟨th, hth, rfl⟩ := onThreads_ok.mp h
      obtain ⟨q, hq, rfl⟩ := wp_ok store_spec (miSwitchOut_ok hcur hth)
      exact .yielded hcur hq
    · rw [yield_idle hidle] at h
      obtain ⟨-, rfl⟩ := Outcome.ok.inj h
      exact .idled
  | sleep addr =>
    obtain ⟨t, hcur, -⟩ := he
    simp only [act, sleep, get_bind, hcur, setPoint, modify_bind] at h
    obtain ⟨th, hth, rfl⟩ := onThreads_ok.mp h
    simp only [threadSleepOut, get_bind, hcur, modify_bind] at hth
    obtain ⟨a, ha, rfl⟩ := wp_ok store_spec (miSwitchOut_ok rfl hth)
    exact .slept hcur ha
  | wakeup addr =>
    obtain ⟨th, hth, rfl⟩ := onThreads_ok.mp h
    exact .woken hth
  | exit =>
    obtain ⟨t, hcur, -⟩ := he
    simp only [act, bind_eq_ok, setCurPoint_ok hcur, Outcome.ok.injEq] at h
    obtain ⟨_, _, ⟨-, rfl⟩, h⟩ := h
    obtain ⟨th, hth, rfl⟩ := onThreads_ok.mp h
    simp only [threadExit, get_bind, bind_eq_ok, assert_eq_ok, modify_eq_ok] at hth
    obtain ⟨_, _, ⟨-, rfl⟩, _, _, rfl, hth⟩ := hth
    obtain ⟨a, ha, rfl⟩ := wp_ok store_spec (miSwitchOut_ok (by exact hcur) hth)
    exact .exited hcur ha
  | schedule =>
    obtain ⟨t, rest, hq⟩ := List.exists_cons_of_ne_nil he.2
    obtain ⟨th, hth, rfl⟩ := onThreads_ok.mp h
    simp only [Threads.schedule, get_bind, hq, modify_eq_ok] at hth
    rw [← hth]
    exact .scheduled he.1 hq
  | resume =>
    obtain ⟨t, hcur, hpoint⟩ := he
    simp only [act, resume, get_bind, hcur] at h
    cases hp : s.point t with
    | start =>
      simp only [hp, setPoint, modify_eq_ok] at h
      rw [← h]
      exact .started hcur hp
    | user => exact absurd hp hpoint
    | yielded =>
      simp only [hp, bury, modify_bind, bind_eq_ok, onThreads_ok, miSwitchIn, exorcise, get_bind,
        assert_eq_ok, setPoint, modify_eq_ok] at h
      obtain ⟨_, _, ⟨_, ⟨_, _, ⟨-, rfl⟩, rfl⟩, rfl⟩, rfl⟩ := h
      exact .switchedIn hcur (by simp [hp]) (.inl rfl)
    | slept =>
      simp only [hp, bury, modify_bind, bind_eq_ok, onThreads_ok, threadSleepIn, miSwitchIn,
        exorcise, get_bind, assert_eq_ok, setPoint, modify_eq_ok] at h
      obtain ⟨_, _, ⟨_, ⟨_, _, ⟨_, _, ⟨-, rfl⟩, rfl⟩, hclear⟩, rfl⟩, rfl⟩ := h
      simp only [hcur, modify_eq_ok] at hclear
      subst hclear
      rw [← hcur]
      exact .switchedIn hcur (by simp [hp]) (.inr rfl)
    | exited => simp [hp] at h

variable {addr : Addr}

/-! ### Where the threads are -/

/-- The threads outside the zombies: the current one, the ready ones and the sleepers. -/
def awake (s : ThreadSystem) : List Tid :=
  s.th.curthread.toList ++ (s.th.runqueue.elems ++ s.th.sleepers.guys)

/-- All places where a thread can be. -/
def places (s : ThreadSystem) : List Tid := s.awake ++ s.th.zombies.guys

/-- What the events keep. -/
structure Placed (s : ThreadSystem) : Prop where
  perm : s.places.Perm s.alive
  nodup : s.alive.Nodup
  numthreads : s.th.numthreads = s.awake.length
  asleep : ∀ t ∈ s.th.sleepers.guys, ∃ a, s.th.sleepaddr t = some a ∧ s.sleptOn t = some a
  dead : ∀ t ∈ s.awake, s.point t ≠ .exited

/-- A point that is not that of `thread_exit` may be noted for any thread. -/
theorem ne_exited_update {pt : Tid → Point} {t t' : Tid} {p : Point} (hp : p ≠ .exited)
    (h : pt t' ≠ .exited) :
  Function.update pt t p t' ≠ .exited
  := by
  rw [Function.update_apply]
  split
  · exact hp
  · exact h

namespace Placed

variable (h : s.Placed)
include h

theorem nodup_places :
  s.places.Nodup
  := h.perm.nodup_iff.mpr h.nodup

theorem not_mem_zombies (ht : t ∈ s.awake) :
  t ∉ s.th.zombies.guys
  := by
  intro hz
  exact List.nodup_append.mp h.nodup_places |>.2.2 t ht t hz rfl

/-- The addresses of the sleepers survive a call of `thread_fork`. -/
theorem asleep_fork (hnew : t ∉ s.alive) {th : Threads} (hf : ForkKept t s.th th) :
  ∀ t' ∈ th.sleepers.guys, ∃ a, th.sleepaddr t' = some a ∧ s.sleptOn t' = some a
  := by
  intro t' ht'
  rw [hf.sleepers] at ht'
  have hne : t' ≠ t := by
    rintro rfl
    apply hnew
    apply h.perm.mem_iff.mp
    simp [places, awake, ht']
  obtain ⟨a, haddr, hslept⟩ := h.asleep t' ht'
  refine ⟨a, ?_, hslept⟩
  rw [hf.sleepaddr, Function.update_of_ne hne, haddr]

theorem numthreads_pos (hcur : s.th.curthread = some t) :
  0 < s.th.numthreads
  := by
  have hmem : t ∈ s.awake := by
    simp [awake, hcur]
  rw [h.numthreads]
  exact List.length_pos_of_mem hmem

/-- The current thread is not a sleeper. -/
theorem cur_not_mem_sleepers (hcur : s.th.curthread = some t) :
  t ∉ s.th.sleepers.guys
  := by
  have hnodup := h.nodup_places
  simp only [places, awake, hcur, Option.toList_some, List.cons_append, List.nil_append,
    List.nodup_cons, List.mem_append, not_or] at hnodup
  exact hnodup.1.1.2

/-- Threads are moved between the places outside the zombies. -/
theorem moved (hawake : s'.awake.Perm s.awake)
    (hzombies : s'.th.zombies.guys = s.th.zombies.guys) (halive : s'.alive = s.alive)
    (hnum : s'.th.numthreads = s.th.numthreads)
    (hasleep : ∀ t ∈ s'.th.sleepers.guys, ∃ a, s'.th.sleepaddr t = some a ∧ s'.sleptOn t = some a)
    (hdead : ∀ t, s.point t ≠ .exited → s'.point t ≠ .exited) :
  s'.Placed
  := by
  constructor
  · rw [places, hzombies, halive]
    apply List.Perm.trans (hawake.append_right _) h.perm
  · rw [halive]
    exact h.nodup
  · rw [hnum, h.numthreads, hawake.length_eq]
  · exact hasleep
  · intro t ht
    apply hdead
    exact h.dead t (hawake.mem_iff.mp ht)

theorem forked (hnew : t ∉ s.alive) {th : Threads} (hf : Forked t s.th th) :
  Placed { s with
    th := th, point := Function.update s.point t .start, alive := t :: s.alive, forked := true }
  := by
  have hawake : (th.curthread.toList ++ (th.runqueue.elems ++ th.sleepers.guys)).Perm
      (t :: s.awake) := by
    rw [hf.curthread, hf.runqueue, hf.sleepers, awake, List.perm_iff_count]
    intro a
    simp only [List.count_append, List.count_cons, List.count_nil]
    omega
  constructor
  · apply List.Perm.trans (hawake.append_right _)
    rw [hf.zombies]
    apply h.perm.cons
  · exact List.nodup_cons.mpr ⟨hnew, h.nodup⟩
  · apply Eq.trans _ hawake.length_eq.symm
    change th.numthreads = _
    rw [hf.numthreads, h.numthreads]
    rfl
  · exact h.asleep_fork hnew hf.toForkKept
  · intro t' ht'
    change Function.update s.point t Point.start t' ≠ .exited
    rcases List.mem_cons.mp (hawake.mem_iff.mp ht') with rfl | ht'
    · rw [Function.update_self]
      simp
    · apply ne_exited_update (by simp)
      exact h.dead t' ht'

theorem notForked (hnew : t ∉ s.alive) {th : Threads} (hf : NotForked t s.th th) :
  Placed { s with th := th }
  := by
  apply h.moved
  · change (th.curthread.toList ++ (th.runqueue.elems ++ th.sleepers.guys)).Perm s.awake
    rw [hf.curthread, hf.runqueue, hf.sleepers]
    rfl
  · exact hf.zombies
  · rfl
  · exact hf.numthreads
  · exact h.asleep_fork hnew hf.toForkKept
  · exact fun _ ht => ht

theorem yielded (hact : Happens s .yield s') :
  s'.Placed
  := by
  cases hact with
  | yielded hcur hq =>
    apply h.moved
    · simp only [awake, Queue.addtail_elems hq, hcur]
      rw [List.perm_iff_count]
      intro a
      simp only [Option.toList_none, Option.toList_some, List.count_append, List.count_nil]
      omega
    · rfl
    · rfl
    · rfl
    · exact h.asleep
    · intro t'
      exact ne_exited_update (by simp)
  | idled => exact h

theorem slept (hact : Happens s (.sleep addr) s') :
  s'.Placed
  := by
  cases hact with
  | @slept t _ _ hcur ha =>
    have hguys := (Table.add_spec ha).1
    apply h.moved
    · simp only [awake, hguys, hcur]
      rw [List.perm_iff_count]
      intro b
      simp only [Option.toList_none, Option.toList_some, List.count_append, List.count_nil]
      omega
    · rfl
    · rfl
    · rfl
    · intro t' ht'
      simp only [hguys, List.mem_append, List.mem_singleton] at ht'
      rcases ht' with ht' | rfl
      · have hne : t' ≠ t := by
          rintro rfl
          exact h.cur_not_mem_sleepers hcur ht'
        obtain ⟨b, haddr, hslept⟩ := h.asleep t' ht'
        use b
        simp only [Function.update_of_ne hne, haddr, hslept, and_self]
      · use addr
        simp only [Function.update_self, and_self]
    · intro t'
      exact ne_exited_update (by simp)

theorem woken (hact : Happens s (.wakeup addr) s') :
  s'.Placed
  := by
  cases hact with
  | woken hth =>
    obtain ⟨a, q, ks, ha, -, hq, -, rfl⟩ := threadWakeup_ok hth
    rw [List.nil_append] at ha
    apply h.moved
    · -- the sleepers are split into those that are woken and the others
      have hsplit := List.filter_append_perm (fun t => decide (s.th.sleepaddr t = some addr))
        s.th.sleepers.guys
      simp only [awake, ha, hq]
      apply List.Perm.append_left
      rw [List.append_assoc]
      apply List.Perm.append_left
      simpa only [decide_not] using hsplit
    · rfl
    · rfl
    · rfl
    · intro t ht
      simp only [ha, List.mem_filter] at ht
      exact h.asleep t ht.1
    · exact fun _ ht => ht

theorem exited (hact : Happens s .exit s') :
  s'.Placed
  := by
  cases hact with
  | @exited t _ hcur ha =>
    have hguys := (Table.add_spec ha).1
    have hnum := h.numthreads
    have hcons : s.awake = t :: (s.th.runqueue.elems ++ s.th.sleepers.guys) := by
      simp [awake, hcur]
    have hnodup := h.nodup_places
    rw [places, hcons, List.cons_append, List.nodup_cons] at hnodup
    constructor
    · apply List.Perm.trans _ h.perm
      simp only [places, awake, hguys, hcur]
      rw [List.perm_iff_count]
      intro b
      simp only [Option.toList_none, Option.toList_some, List.count_append, List.count_nil]
      omega
    · exact h.nodup
    · rw [hcons] at hnum
      simp only [awake, hnum, Option.toList_none, List.nil_append, List.length_cons,
        Nat.add_sub_cancel]
    · exact h.asleep
    · intro t' ht'
      have hmem : t' ∈ s.th.runqueue.elems ++ s.th.sleepers.guys := ht'
      have hne : t' ≠ t := by
        rintro rfl
        exact hnodup.1 (List.mem_append_left _ hmem)
      change Function.update s.point t Point.exited t' ≠ .exited
      rw [Function.update_of_ne hne]
      apply h.dead
      rw [hcons]
      exact List.mem_cons_of_mem _ hmem

theorem scheduled (hact : Happens s .schedule s') :
  s'.Placed
  := by
  cases hact with
  | scheduled hcur hq =>
    apply h.moved
    · simp only [awake, hcur, hq]
      rfl
    · rfl
    · rfl
    · rfl
    · exact h.asleep
    · exact fun _ ht => ht

/-- The places without the zombies. -/
theorem filter_places :
  s.places.filter (fun t => decide (t ∉ s.th.zombies.guys)) = s.awake
  := by
  have hkeep : s.awake.filter (fun t => decide (t ∉ s.th.zombies.guys)) = s.awake := by
    apply List.filter_eq_self.mpr
    intro t ht
    exact decide_eq_true (h.not_mem_zombies ht)
  have hdrop : s.th.zombies.guys.filter (fun t => decide (t ∉ s.th.zombies.guys)) = [] := by
    apply List.filter_eq_nil_iff.mpr
    intro t ht
    simp [ht]
  rw [places, List.filter_append, hkeep, hdrop, List.append_nil]

theorem resumed (hact : Happens s .resume s') :
  s'.Placed
  := by
  cases hact with
  | started hcur hstart =>
    apply h.moved
    · rfl
    · rfl
    · rfl
    · rfl
    · exact h.asleep
    · intro t'
      exact ne_exited_update (by simp)
  | @switchedIn t _ hcur hstart haddr =>
    constructor
    · have hfilter := h.perm.filter (fun t => decide (t ∉ s.th.zombies.guys))
      rw [h.filter_places] at hfilter
      change (s.awake ++ []).Perm _
      rw [List.append_nil]
      exact hfilter
    · apply h.nodup.filter
    · exact h.numthreads
    · intro t' ht'
      obtain ⟨a, ha, hslept⟩ := h.asleep t' ht'
      refine ⟨a, ?_, hslept⟩
      rcases haddr with rfl | rfl
      · exact ha
      · have hne : t' ≠ t := by
          rintro rfl
          exact h.cur_not_mem_sleepers hcur ht'
        change Function.update s.th.sleepaddr t none t' = some a
        rw [Function.update_of_ne hne, ha]
    · intro t' ht'
      apply ne_exited_update (by simp)
      exact h.dead t' ht'

end Placed

/-! ### Runs -/

theorem boot_placed (t : Tid) :
  (boot t).Placed
  := by
  constructor
  · rfl
  · simp [boot]
  · rfl
  · intro t' ht'
    cases ht'
  · intro t' _
    simp [boot]

theorem Placed.withMem (h : s.Placed) (mem : List Bool) :
  (s.withMem mem).Placed
  := { h with }

theorem Step.placed {allow : Condition} (hstep : Step allow s s') (h : s.Placed) :
  s'.Placed
  := by
  obtain ⟨e, mem, he, -, hact⟩ := hstep
  have h := h.withMem mem
  have hact := he.happens hact
  cases e with
  | fork t =>
    cases hact with
    | forked hf => exact h.forked he.2 hf
    | notForked hf => exact h.notForked he.2 hf
  | yield => exact h.yielded hact
  | sleep addr => exact h.slept hact
  | wakeup addr => exact h.woken hact
  | exit => exact h.exited hact
  | schedule => exact h.scheduled hact
  | resume => exact h.resumed hact

theorem Reaches.placed {allow : Condition} (hrun : Reaches allow s s') (h : s.Placed) :
  s'.Placed
  := by
  induction hrun with
  | refl => exact h
  | tail _ hstep ih => exact hstep.placed ih

/-! ### No event fails when there is memory -/

section Progress

theorem yield_total (hcur : s.th.curthread = some t) (h : Roomy 1 s.th) :
  wp (act .yield) s
    (fun _ s' => s.th.runqueue.elems.length + 1 < s.th.runqueue.size →
      s'.th.runqueue.size = s.th.runqueue.size)
  := by
  have hnone : Roomy 1 { s.th with curthread := none } := h
  obtain ⟨q, hq, -, hsize⟩ := makeRunnable_roomy hnone t
  simp only [act, wp_bind]
  apply wp_of_ok (setCurPoint_ok hcur)
  simp only [onThreads, wp_zoom]
  apply miSwitchOut_total hcur
  apply wp_of_ok hq
  intro hroom
  exact (hsize hroom).1

theorem sleep_total (hcur : s.th.curthread = some t)
    (h : (s.th.sleepers.add t (s.th.kmallocs.headD true)).isSome) :
  wp (act (.sleep addr)) s (fun _ _ => True)
  := by
  simp only [act, sleep, setPoint, wp_bind, wp_get, hcur, wp_modify,
    onThreads, wp_zoom, threadSleepOut]
  apply miSwitchOut_total rfl
  apply store_total h

theorem exit_total (hcur : s.th.curthread = some t) (hpos : 0 < s.th.numthreads)
    (h : (s.th.zombies.add t (s.th.kmallocs.headD true)).isSome) :
  wp (act .exit) s (fun _ _ => True)
  := by
  simp only [act, wp_bind]
  apply wp_of_ok (setCurPoint_ok hcur)
  simp only [onThreads, wp_zoom, threadExit, wp_bind, wp_get, wp_assert, wp_modify]
  use hpos
  apply miSwitchOut_total (by exact hcur)
  apply store_total h

/-- `exorcise` does not find the current thread among the zombies, and no thread comes back
from `thread_exit`. -/
theorem Placed.resume_total (h : s.Placed) (hcur : s.th.curthread = some t) :
  wp (act .resume) s (fun _ _ => True)
  := by
  have hmem : t ∈ s.awake := by
    simp [awake, hcur]
  have hzombies : ∀ z ∈ s.th.zombies.guys, some z ≠ some t := by
    intro z hz heq
    rw [Option.some.injEq] at heq
    subst heq
    exact h.not_mem_zombies hmem hz
  simp only [act, resume, wp_bind, wp_get, hcur]
  cases hp : s.point t with
  | start => simp only [setPoint, wp_modify]
  | user => simp only [wp_pure]
  | yielded =>
    simp only [bury, setPoint, wp_bind, wp_modify, onThreads, wp_zoom,
      miSwitchIn, exorcise, wp_get, wp_assert, hcur]
    exact ⟨hzombies, trivial⟩
  | slept =>
    simp only [bury, setPoint, wp_bind, wp_modify, onThreads, wp_zoom,
      threadSleepIn, miSwitchIn, exorcise, wp_get, wp_assert, hcur]
    exact ⟨hzombies, trivial⟩
  | exited => exact absurd hp (h.dead t hmem)

theorem wakeup_total (h : Roomy s.th.sleepers.guys.length s.th) :
  wp (act (.wakeup addr)) s
    (fun _ s' => s.th.runqueue.elems.length + s.th.sleepers.guys.length < s.th.runqueue.size →
      s'.th.runqueue.size = s.th.runqueue.size)
  := by
  obtain ⟨th, hth, hsize⟩ := threadWakeupFrom_roomy h
  simp only [act, onThreads, wp_zoom]
  exact wp_of_ok hth hsize

/-- As long as `kmalloc` succeeds, whatever can happen does happen without a panic. -/
theorem Placed.progress (h : s.Placed) {e : Event} (he : s.Enabled e) :
  ∃ s', act e (s.withMem []) = .ok () s'
  := by
  have h := h.withMem []
  have hspec : wp (act e) (s.withMem []) (fun _ _ => True) := by
    cases e with
    | fork t => exact wp_sure (fork_spec t) fun _ _ _ => trivial
    | yield =>
      rcases he with ⟨t, hcur, -⟩ | hidle
      · apply wp_imp (yield_total (by exact hcur) (.inl rfl))
        intro _ _ _
        trivial
      · exact wp_of_ok (yield_idle (by exact hidle)) trivial
    | sleep addr =>
      obtain ⟨t, hcur, -⟩ := he
      apply sleep_total (by exact hcur)
      exact Option.isSome_iff_ne_none.mpr (Table.add_ne_none _ t)
    | wakeup addr =>
      apply wp_imp (wakeup_total (.inl rfl))
      intro _ _ _
      trivial
    | exit =>
      obtain ⟨t, hcur, -⟩ := he
      apply exit_total (by exact hcur) (h.numthreads_pos hcur)
      exact Option.isSome_iff_ne_none.mpr (Table.add_ne_none _ t)
    | schedule =>
      obtain ⟨t, rest, hq⟩ : ∃ t rest, (s.withMem []).th.runqueue.elems = t :: rest :=
        List.exists_cons_of_ne_nil he.2
      simp only [act, onThreads, wp_zoom, Threads.schedule, wp_bind, wp_get, hq, wp_modify]
    | resume =>
      obtain ⟨t, hcur, -⟩ := he
      exact h.resume_total hcur
  obtain ⟨_, s', hs', -⟩ := exists_ok hspec
  exact ⟨s', hs'⟩

end Progress

/-- In every run of the thread system that starts with the boot thread, every thread that is
not destroyed yet is in exactly one place, once; `numthreads` counts the threads outside the
zombies; the sleepers have the address they slept on; a thread that has called `thread_exit`
does not run again; and what `exorcise` destroys is on no other list.  With memory for the
tables, no event makes the system panic. -/
theorem threads_partitioned {b : Tid} (hrun : Reaches anyStep (boot b) s) :
  (∀ t, s.places.count t = if t ∈ s.alive then 1 else 0)
    ∧ s.th.numthreads = (s.alive.filter (· ∉ s.th.zombies.guys)).length
    ∧ (∀ t ∈ s.th.sleepers.guys, ∃ a, s.th.sleepaddr t = some a ∧ s.sleptOn t = some a)
    ∧ (∀ t, s.point t = .exited → s.th.curthread ≠ some t ∧ t ∉ s.th.runqueue.elems
      ∧ t ∉ s.th.sleepers.guys)
    ∧ (∀ z ∈ s.th.zombies.guys, s.th.curthread ≠ some z ∧ z ∉ s.th.runqueue.elems
      ∧ z ∉ s.th.sleepers.guys)
    ∧ ∀ e, s.Enabled e → ∃ s', act e (s.withMem []) = .ok () s'
  := by
  have h := hrun.placed (boot_placed b)
  have hawake : ∀ {t}, t ∉ s.awake → s.th.curthread ≠ some t ∧ t ∉ s.th.runqueue.elems
      ∧ t ∉ s.th.sleepers.guys := by
    intro t ht
    simp only [awake, List.mem_append, Option.mem_toList, not_or] at ht
    exact ht
  refine ⟨?_, ?_, h.asleep, ?_, ?_, fun e he => h.progress he⟩
  · intro t
    rw [h.perm.count_eq, List.Nodup.count h.nodup]
  · have hfilter := h.perm.filter (fun t => decide (t ∉ s.th.zombies.guys))
    rw [← hfilter.length_eq, h.filter_places, h.numthreads]
  · intro t ht
    apply hawake
    intro hmem
    exact h.dead t hmem ht
  · intro z hz
    apply hawake
    intro hmem
    exact h.not_mem_zombies hmem hz

/-- The boot thread makes a thread and yields to it; the new thread sleeps; the boot thread
wakes it and exits, and the new thread goes on. -/
theorem threads_partitioned_two :
  ∃ s : ThreadSystem, s.th.zombies.guys = [0] ∧ s.th.curthread = some 1
    ∧ (∀ t, s.places.count t = if t ∈ s.alive then 1 else 0)
    ∧ s.th.numthreads = (s.alive.filter (· ∉ s.th.zombies.guys)).length
    ∧ (∀ t ∈ s.th.sleepers.guys, ∃ a, s.th.sleepaddr t = some a ∧ s.sleptOn t = some a)
    ∧ (∀ t, s.point t = .exited → s.th.curthread ≠ some t ∧ t ∉ s.th.runqueue.elems
      ∧ t ∉ s.th.sleepers.guys)
    ∧ (∀ z ∈ s.th.zombies.guys, s.th.curthread ≠ some z ∧ z ∉ s.th.runqueue.elems
      ∧ z ∉ s.th.sleepers.guys)
    ∧ ∀ e, s.Enabled e → ∃ s', act e (s.withMem []) = .ok () s'
  := by
  obtain ⟨s, hrun, hzombies, hcur⟩ := exists_of_replay 0
    (P := fun s => s.th.zombies.guys = [0] ∧ s.th.curthread = some 1)
    [.fork 1, .yield, .schedule, .resume, .sleep 7, .schedule, .resume, .wakeup 7, .exit, .schedule]
    (by decide +kernel)
  exact ⟨s, hzombies, hcur, threads_partitioned hrun⟩

end ThreadSystem
