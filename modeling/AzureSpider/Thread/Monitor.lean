import AzureSpider.Thread.Thread
import Mathlib.Logic.Relation

/-!
# Objects that threads wait for

`P` and `lock_acquire` have one shape: they test the object in a loop around
`thread_sleep`, and take it once the test fails; `V` and `lock_release` change the object
and wake the sleepers.  An `Ops O` says how the code of one object with the state `O` does
this.  The routines run with interrupts off, so that a thread is switched away only inside
`thread_sleep`, or outside of them; the events of a run are what happens between two such
points.

Along every run, no thread sleeps on an object that is not blocked (`Reach.quiet`), and
whatever the takes and posts keep of the object and of their history holds
(`Reach.object`).
-/

open Routine

open Threads

/-- How the code uses an object with the state `O`. -/
structure Ops (O : Type) where
  /-- The address threads sleep on. -/
  addr : Addr
  /-- The checks a thread passes before it waits. -/
  entry : Tid → O → Bool
  /-- The test of the loop around `thread_sleep`. -/
  blocked : O → Bool
  /-- What a thread does after the loop; `none` when an assertion fails. -/
  take : Tid → O → Option O
  /-- What is done before the sleepers are woken, by a thread or by an interrupt handler;
  `none` when an assertion fails. -/
  post : Option Tid → O → Option O

/-- Where a thread is in the code. -/
inductive Pc where
  /-- In its own code. -/
  | user
  /-- Switched away inside `thread_yield`. -/
  | yielded
  /-- Switched away inside a `thread_sleep` that does not wait for the object. -/
  | sleeping
  /-- Switched away inside the `thread_sleep` of the loop. -/
  | waiting
  deriving DecidableEq, Repr

/-- A completed operation on the object. -/
inductive Record where
  | took (t : Tid)
  | posted (who : Option Tid)
  deriving DecidableEq, Repr

/-- The threads, the object, and the operations completed so far, the last one first. -/
structure Monitor (O : Type) where
  th : Threads
  pc : Tid → Pc
  obj : O
  hist : List Record

namespace Monitor

variable {O α : Type}

/-- Routines on the threads and the object. -/
abbrev Run (O α : Type) := Routine Errno ThreadPanic (Monitor O) α

/-- A routine of the thread system. -/
def onThreads (m : Threads.Run α) : Run O α := fun s =>
  match m s.th with
  | .ok a th => .ok a { s with th := th }
  | .err e th => .err e { s with th := th }
  | .panic p => .panic p

/-- Note where a thread is. -/
def setPc (t : Tid) (p : Pc) : Run O Unit :=
  modify fun s => { s with pc := Function.update s.pc t p }

/-- The loop around `thread_sleep`, up to the next switch or to the end of the operation. -/
def await (ops : Ops O) (t : Tid) : Run O Unit := do
  let s ← get
  if ops.blocked s.obj then
    onThreads (threadSleepOut ops.addr)
    setPc t .waiting
  else
    match ops.take t s.obj with
    | none => Routine.panic .object
    | some o =>
      modify fun s => { s with obj := o, hist := .took t :: s.hist }
      setPc t .user

/-- The operation that waits for the object. -/
def enter (ops : Ops O) (t : Tid) : Run O Unit := do
  let s ← get
  assert (ops.entry t s.obj) .object
  await ops t

/-- The operation that wakes the sleepers. -/
def signal (ops : Ops O) (who : Option Tid) : Run O Unit := do
  let s ← get
  match ops.post who s.obj with
  | none => Routine.panic .object
  | some o =>
    modify fun s => { s with obj := o, hist := .posted who :: s.hist }
    onThreads (threadWakeup ops.addr)

/-- The thread `t`, switched back to, goes on where it was. -/
def resume (ops : Ops O) (t : Tid) : Run O Unit := do
  let s ← get
  match s.pc t with
  | .user => pure ()
  | .yielded =>
    onThreads miSwitchIn
    setPc t .user
  | .sleeping =>
    onThreads threadSleepIn
    setPc t .user
  | .waiting =>
    onThreads threadSleepIn
    await ops t

/-- What can happen next. -/
inductive Event where
  /-- The running thread waits for the object. -/
  | enter (t : Tid)
  /-- The running thread, or an interrupt handler, posts the object. -/
  | signal (who : Option Tid)
  /-- The scheduler finds a ready thread. -/
  | schedule
  /-- A thread that was switched away goes on. -/
  | resume (t : Tid)
  | yield (t : Tid)
  /-- The running thread sleeps on an address other than the object's. -/
  | sleep (t : Tid) (addr : Addr)
  /-- Some code wakes the sleepers on some address. -/
  | wakeup (addr : Addr)
  | fork (t : Tid)
  | exit (t : Tid)
  deriving DecidableEq, Repr

/-- The thread `t` runs its own code. -/
def Running (t : Tid) (s : Monitor O) : Prop := s.th.curthread = some t ∧ s.pc t = .user

/-- The processor idles inside the scheduler. -/
def Idle (s : Monitor O) : Prop := s.th.curthread = none

/-- The event can happen: interrupts are taken by running threads and by the idle loop. -/
def Enabled (ops : Ops O) (s : Monitor O) : Event → Prop
  | .enter t => Running t s
  | .signal (some t) => Running t s
  | .signal none => (∃ t, Running t s) ∨ Idle s
  | .schedule => s.th.curthread = none ∧ s.th.runqueue.elems ≠ []
  | .resume t => s.th.curthread = some t ∧ s.pc t ≠ .user
  | .yield t => Running t s
  | .sleep t addr => Running t s ∧ addr ≠ ops.addr
  | .wakeup _ => (∃ t, Running t s) ∨ Idle s
  | .fork t => (∃ t', Running t' s ∧ t ≠ t')
      ∧ t ∉ s.th.sleepers.guys ∧ t ∉ s.th.runqueue.elems ∧ t ∉ s.th.zombies.guys
  | .exit t => Running t s

/-- What an event does. -/
def act (ops : Ops O) : Event → Run O Unit
  | .enter t => enter ops t
  | .signal who => signal ops who
  | .schedule => onThreads Threads.schedule
  | .resume t => resume ops t
  | .yield t => do
      setPc t .yielded
      onThreads threadYield
  | .sleep t addr => do
      setPc t .sleeping
      onThreads (threadSleepOut addr)
  | .wakeup addr => onThreads (threadWakeup addr)
  | .fork t => do
      setPc t .user
      let _ ← onThreads (attempt (threadFork t))
      pure ()
  | .exit _ => onThreads threadExit

/-- The state in which `kmalloc` will give the answers `mem`. -/
def withMem (mem : List Bool) (s : Monitor O) : Monitor O :=
  { s with th := { s.th with kmallocs := mem } }

/-- One step of a run, in which only the posts that `allow` admits happen. -/
def Step (ops : Ops O) (allow : Option Tid → O → Prop) (s s' : Monitor O) : Prop :=
  ∃ e mem, Enabled ops s e ∧ (∀ who, e = .signal who → allow who s.obj)
    ∧ act ops e (withMem mem s) = .ok () s'

/-- The states a run reaches. -/
abbrev Reach (ops : Ops O) (allow : Option Tid → O → Prop) : Monitor O → Monitor O → Prop :=
  Relation.ReflTransGen (Step ops allow)

/-- Two threads, of which the first runs, and an object nobody has used yet. -/
def twoThreads (o : O) : Monitor O where
  th :=
    { curthread := some 1
      sleepaddr := fun _ => none
      sleepers := ⟨[], 2⟩
      zombies := ⟨[], 2⟩
      runqueue := ⟨[2], 32⟩
      numthreads := 2
      kmallocs := [] }
  pc := fun _ => .user
  obj := o
  hist := []

/-! ### What one event can do -/

/-- What an event can do to the object, its history and the sleepers. -/
inductive Effect (ops : Ops O) (e : Event) (s s' : Monitor O) : Prop where
  /-- It does not concern the object. -/
  | other (hobj : s'.obj = s.obj) (hhist : s'.hist = s.hist)
      (hth : NoNewSleeper ops.addr s.th s'.th)
  /-- A thread goes to sleep on the blocked object. -/
  | slept (hobj : s'.obj = s.obj) (hhist : s'.hist = s.hist)
      (hblocked : ops.blocked s.obj = true)
  /-- A thread takes the object. -/
  | took (t : Tid) (hblocked : ops.blocked s.obj = false)
      (htake : ops.take t s.obj = some s'.obj) (hhist : s'.hist = .took t :: s.hist)
      (hth : NoNewSleeper ops.addr s.th s'.th)
  /-- The object is posted and the sleepers are woken. -/
  | posted (who : Option Tid) (he : e = .signal who)
      (hpost : ops.post who s.obj = some s'.obj) (hhist : s'.hist = .posted who :: s.hist)
      (hth : NoSleeper ops.addr s'.th)

variable {ops : Ops O} {e : Event} {s s' : Monitor O} {u : Unit}

theorem onThreads_ok {a : α} :
  onThreads m s = .ok a s' ↔ ∃ th, m s.th = .ok a th ∧ s' = { s with th := th }
  := by
  have hzoom : onThreads m s = zoom Monitor.th (fun th s => { s with th := th }) m s := by
    unfold onThreads zoom
    cases m s.th <;> rfl
  rw [hzoom, zoom_eq_ok]
  simp only [eq_comm (b := s')]

theorem setPc_ok {t : Tid} {p : Pc} :
  setPc t p s = .ok u s' ↔ s' = { s with pc := Function.update s.pc t p }
  := by
  rw [setPc, modify_eq_ok, eq_comm]

/-- A routine of the thread system that adds no sleeper does not concern the object. -/
theorem Effect.of_quiet {a : α} (hm : Quiet ops.addr m) (h : onThreads m s = .ok a s') :
  Effect ops e s s'
  := by
  obtain ⟨th, hth, rfl⟩ := onThreads_ok.mp h
  exact .other rfl rfl (hm.of_ok hth)

/-- The effect after a routine of the thread system that adds no sleeper. -/
theorem Effect.after_quiet {th : Threads} (hnew : NoNewSleeper ops.addr s.th th)
    (h : Effect ops e { s with th := th } s') :
  Effect ops e s s'
  := by
  cases h with
  | other hobj hhist hth => exact .other hobj hhist (hnew.trans hth)
  | slept hobj hhist hblocked => exact .slept hobj hhist hblocked
  | took t hblocked htake hhist hth => exact .took t hblocked htake hhist (hnew.trans hth)
  | posted who he hpost hhist hth => exact .posted who he hpost hhist hth

theorem await_effect {t : Tid} (h : await ops t s = .ok u s') :
  Effect ops e s s'
  := by
  rw [await, get_bind] at h
  cases hblocked : ops.blocked s.obj with
  | true =>
    simp only [hblocked, if_true, bind_eq_ok, onThreads_ok, setPc_ok] at h
    obtain ⟨_, _, ⟨th, -, rfl⟩, rfl⟩ := h
    exact .slept rfl rfl hblocked
  | false =>
    simp only [hblocked, Bool.false_eq_true, if_false] at h
    cases htake : ops.take t s.obj with
    | none => simp [htake] at h
    | some o =>
      simp only [htake, modify_bind, setPc_ok] at h
      subst h
      exact .took t hblocked htake rfl (NoNewSleeper.refl _)

theorem signal_effect {who : Option Tid} (h : signal ops who s = .ok u s') :
  Effect ops (.signal who) s s'
  := by
  rw [signal, get_bind] at h
  cases hpost : ops.post who s.obj with
  | none => simp [hpost] at h
  | some o =>
    simp only [hpost, modify_bind, onThreads_ok] at h
    obtain ⟨th, hth, rfl⟩ := h
    obtain ⟨a, q, ks, ha, -, -, -, rfl⟩ := threadWakeup_ok hth
    apply Effect.posted who rfl hpost rfl
    intro t ht
    simp only [ha, List.nil_append, List.mem_filter, decide_eq_true_eq] at ht
    apply ht.2

theorem resume_effect {t : Tid} (h : resume ops t s = .ok u s') :
  Effect ops e s s'
  := by
  rw [resume, get_bind] at h
  cases hpc : s.pc t with
  | user =>
    simp only [hpc, pure_eq_ok] at h
    obtain ⟨-, rfl⟩ := h
    exact .other rfl rfl (NoNewSleeper.refl _)
  | yielded =>
    simp only [hpc, bind_eq_ok, onThreads_ok, setPc_ok] at h
    obtain ⟨_, _, ⟨th, hth, rfl⟩, rfl⟩ := h
    exact .other rfl rfl (Quiet.miSwitchIn.of_ok hth)
  | sleeping =>
    simp only [hpc, bind_eq_ok, onThreads_ok, setPc_ok] at h
    obtain ⟨_, _, ⟨th, hth, rfl⟩, rfl⟩ := h
    exact .other rfl rfl (Quiet.threadSleepIn.of_ok hth)
  | waiting =>
    simp only [hpc, bind_eq_ok, onThreads_ok] at h
    obtain ⟨_, _, ⟨th, hth, rfl⟩, h⟩ := h
    apply Effect.after_quiet (Quiet.threadSleepIn.of_ok hth) (await_effect h)

/-- What an event that can happen does to the object, its history and the sleepers. -/
theorem act_effect (he : Enabled ops s e) (h : act ops e s = .ok u s') :
  Effect ops e s s'
  := by
  cases e with
  | enter t =>
    rw [act, enter, get_bind] at h
    simp only [bind_eq_ok, assert_eq_ok] at h
    obtain ⟨_, _, ⟨-, rfl⟩, h⟩ := h
    apply await_effect h
  | signal who => apply signal_effect h
  | schedule => apply Effect.of_quiet Quiet.schedule h
  | resume t => apply resume_effect h
  | yield t =>
    rw [act, setPc, modify_bind, onThreads_ok] at h
    obtain ⟨th, hth, rfl⟩ := h
    exact .other rfl rfl (Quiet.threadYield.of_ok hth)
  | sleep t addr =>
    rw [act, setPc, modify_bind, onThreads_ok] at h
    obtain ⟨th, hth, rfl⟩ := h
    exact .other rfl rfl ((Quiet.threadSleepOut he.2).of_ok hth)
  | wakeup addr =>
    obtain ⟨th, hth, rfl⟩ := onThreads_ok.mp h
    exact .other rfl rfl (Quiet.threadWakeup hth)
  | fork t =>
    rw [act, setPc, modify_bind] at h
    simp only [bind_eq_ok, onThreads_ok, pure_eq_ok] at h
    obtain ⟨_, _, ⟨th, hth, rfl⟩, -, rfl⟩ := h
    exact .other rfl rfl ((Routine.Respects.attempt (Quiet.threadFork t)).of_ok hth)
  | exit t => apply Effect.of_quiet Quiet.threadExit h

/-- What a step does to the object, its history and the sleepers. -/
theorem Step.effect {allow : Option Tid → O → Prop} (h : Step ops allow s s') :
  ∃ e, (∀ who, e = .signal who → allow who s.obj) ∧ Effect ops e s s'
  := by
  obtain ⟨e, mem, he, hallow, hact⟩ := h
  have he' : Enabled ops (withMem mem s) e := by
    cases e with
    | signal who =>
      cases who with
      | none | some => apply he
    | _ => apply he
  have hnew : NoNewSleeper ops.addr s.th (withMem mem s).th := NoNewSleeper.of_eq rfl rfl
  use e, hallow
  apply Effect.after_quiet hnew (act_effect he' hact)

/-! ### Runs -/

namespace Reach

variable {allow : Option Tid → O → Prop} {s₀ : Monitor O}

/-- No thread sleeps on an object that is not blocked: a post is never lost by a thread that
waits. -/
theorem quiet (h : Reach ops allow s₀ s)
    (h₀ : ops.blocked s₀.obj = false → NoSleeper ops.addr s₀.th) :
  ops.blocked s.obj = false → NoSleeper ops.addr s.th
  := by
  induction h with
  | refl => apply h₀
  | tail _ hstep ih =>
    obtain ⟨e, -, heffect⟩ := hstep.effect
    intro hblocked
    cases heffect with
    | other hobj hhist hth =>
      rw [hobj] at hblocked
      apply (ih hblocked).mono hth
    | slept hobj hhist hblocked' => simp [hobj, hblocked'] at hblocked
    | took t hfree htake hhist hth => apply (ih hfree).mono hth
    | posted who he hpost hhist hth => apply hth

/-- What the takes and the admitted posts keep of the object and of the history holds in
every state of a run. -/
theorem object (R : O → List Record → Prop) (h : Reach ops allow s₀ s) (h₀ : R s₀.obj s₀.hist)
    (htake : ∀ t o o' hist, R o hist → ops.blocked o = false → ops.take t o = some o' →
      R o' (.took t :: hist))
    (hpost : ∀ who o o' hist, R o hist → allow who o → ops.post who o = some o' →
      R o' (.posted who :: hist)) :
  R s.obj s.hist
  := by
  induction h with
  | refl => apply h₀
  | tail _ hstep ih =>
    obtain ⟨e, hallow, heffect⟩ := hstep.effect
    cases heffect with
    | other hobj hhist hth =>
      rw [hobj, hhist]
      apply ih
    | slept hobj hhist hblocked =>
      rw [hobj, hhist]
      apply ih
    | took t hfree ht hhist hth =>
      rw [hhist]
      apply htake t _ _ _ ih hfree ht
    | posted who he hp hhist hth =>
      rw [hhist]
      apply hpost who _ _ _ ih (hallow who he) hp

end Reach

end Monitor
