import AzureSpider.Errno
import AzureSpider.Kern.Table
import AzureSpider.Lib.Routine

/-!
# The thread system

The tables of `thread.c` and `scheduler.c`: the current thread, the sleepers, the zombies
and the run queue, and the routines that move threads between them.  The tables are lists
with the capacity their storage has; a table that has to grow asks `kmalloc`, and the
answers it will get are part of the state.

A context switch is cut at the call of the scheduler: `miSwitchOut` is `mi_switch` up to
there, `schedule` hands the processor to the next thread, and `miSwitchIn` is what that
thread does when it comes back.
-/

open Routine

/-- An address that threads sleep on, and a thread. -/
abbrev Addr := ℕ

/-- The name of a thread: the address of its structure. -/
abbrev Tid := ℕ

/-! ### The state -/

/-- The thread system. -/
structure Threads where
  curthread : Option Tid
  /-- `t_sleepaddr` of each thread. -/
  sleepaddr : Tid → Option Addr
  sleepers : Table Tid
  zombies : Table Tid
  runqueue : Queue Tid
  numthreads : ℕ
  /-- The answers of the calls of `kmalloc` to come; after them, `kmalloc` succeeds. -/
  kmallocs : List Bool

/-- The states `mi_switch` leaves a thread in. -/
inductive NextState where
  | ready | sleep | zomb
  deriving DecidableEq, Repr

/-- The assertions of the thread system. -/
inductive ThreadPanic where
  | noCurthread
  | switchFailed
  | wakeupFailed
  | zombieRunning
  | numthreads
  | cameBack
  | object
  deriving DecidableEq, Repr

namespace Threads

/-- The routines of the thread system. -/
abbrev Run (α : Type) := Routine Errno ThreadPanic Threads α

/-- The next answer of `kmalloc`. -/
def kmalloc : Run Bool := do
  let s ← get
  modify fun s => { s with kmallocs := s.kmallocs.tail }
  pure (s.kmallocs.headD true)

/-- Store a table for which `kmalloc` is asked for room, or return `ENOMEM`. -/
def store {β : Type} (table : Threads → Bool → Option β) (put : β → Threads → Threads) :
    Run Unit := do
  let mem ← kmalloc
  let s ← get
  match table s mem with
  | some b => modify (put b)
  | none => fail .enomem

/-- `make_runnable`. -/
def makeRunnable (t : Tid) : Run Unit :=
  store (fun s => s.runqueue.addtail t) fun q s => { s with runqueue := q }

/-- A call whose result is asserted to be `0`. -/
def asserted (m : Run Unit) (p : ThreadPanic) : Run Unit := do
  match ← attempt m with
  | .ok _ => pure ()
  | .error _ => Routine.panic p

/-- `array_add(sleepers, t)`. -/
def addSleeper (t : Tid) : Run Unit :=
  store (fun s => s.sleepers.add t) fun a s => { s with sleepers := a }

/-- `array_add(zombies, t)`. -/
def addZombie (t : Tid) : Run Unit :=
  store (fun s => s.zombies.add t) fun a s => { s with zombies := a }

/-- `mi_switch` up to the call of the scheduler. -/
def miSwitchOut (nextstate : NextState) : Run Unit := do
  let s ← get
  match s.curthread with
  | none => pure ()
  | some cur =>
    modify fun s => { s with curthread := none }
    asserted
      (match nextstate with
      | .ready => makeRunnable cur
      | .sleep => addSleeper cur
      | .zomb => addZombie cur)
      .switchFailed

/-- `scheduler`, when a thread is ready, and the switch to that thread. -/
def schedule : Run Unit := do
  let s ← get
  match s.runqueue.elems with
  | [] => pure ()
  | t :: rest =>
    modify fun s =>
      { s with curthread := some t, runqueue := { s.runqueue with elems := rest } }

/-- `exorcise`. -/
def exorcise : Run Unit := do
  let s ← get
  assert (∀ z ∈ s.zombies.guys, some z ≠ s.curthread) .zombieRunning
  modify fun s => { s with zombies := s.zombies.clear }

/-- `mi_switch` after the switch back. -/
def miSwitchIn : Run Unit := exorcise

/-- `thread_sleep` up to the call of the scheduler. -/
def threadSleepOut (addr : Addr) : Run Unit := do
  let s ← get
  match s.curthread with
  | none => Routine.panic .noCurthread
  | some cur =>
    modify fun s =>
      { s with sleepaddr := Function.update s.sleepaddr cur (some addr) }
    miSwitchOut .sleep

/-- `thread_sleep` after the switch back. -/
def threadSleepIn : Run Unit := do
  miSwitchIn
  let s ← get
  match s.curthread with
  | none => Routine.panic .noCurthread
  | some cur =>
    modify fun s => { s with sleepaddr := Function.update s.sleepaddr cur none }

/-- The loop of `thread_wakeup` from the index `i` on, with `n` sleepers left to look at. -/
def threadWakeupFrom (addr : Addr) : (n i : ℕ) → Run Unit
  | 0, _ => pure ()
  | n + 1, i => do
      let s ← get
      match s.sleepers.guys[i]? with
      | none => pure ()
      | some t =>
        if s.sleepaddr t = some addr then do
          -- the next sleeper moves into the place of the removed one
          modify fun s => { s with sleepers := s.sleepers.remove i }
          asserted (makeRunnable t) .wakeupFailed
          threadWakeupFrom addr n i
        else
          threadWakeupFrom addr n (i + 1)

/-- `thread_wakeup`. -/
def threadWakeup (addr : Addr) : Run Unit := do
  let s ← get
  threadWakeupFrom addr s.sleepers.guys.length 0

/-- `array_preallocate(sleepers, numthreads + 1)`. -/
def reserveSleepers : Run Unit :=
  store (fun s => s.sleepers.preallocate (s.numthreads + 1)) fun a s => { s with sleepers := a }

/-- `array_preallocate(zombies, numthreads + 1)`. -/
def reserveZombies : Run Unit :=
  store (fun s => s.zombies.preallocate (s.numthreads + 1)) fun a s => { s with zombies := a }

/-- `scheduler_preallocate(numthreads + 1)`. -/
def schedulerPreallocate : Run Unit :=
  store (fun s => s.runqueue.preallocate (s.numthreads + 1)) fun q s => { s with runqueue := q }

/-- `thread_fork` of the thread `t`, once its structure and its stack are allocated. -/
def threadFork (t : Tid) : Run Unit := do
  modify fun s => { s with sleepaddr := Function.update s.sleepaddr t none }
  reserveSleepers
  reserveZombies
  schedulerPreallocate
  makeRunnable t
  modify fun s => { s with numthreads := s.numthreads + 1 }

/-- `thread_exit` up to the call of the scheduler. -/
def threadExit : Run Unit := do
  let s ← get
  assert (0 < s.numthreads) .numthreads
  modify fun s => { s with numthreads := s.numthreads - 1 }
  miSwitchOut .zomb

/-- `thread_yield` up to the call of the scheduler. -/
def threadYield : Run Unit := miSwitchOut .ready

/-! ### What the routines change

Each routine that returns has changed only the tables named in its lemma. -/

variable {s s' : Threads} {u : Unit} {p : ThreadPanic} {m : Run Unit}

theorem asserted_ok :
  asserted m p s = .ok u s' ↔ m s = .ok () s'
  := by
  simp only [asserted, bind_eq_ok, attempt]
  cases m s with
  | ok | err | panic => simp

variable {nextstate : NextState}

/-- `mi_switch` puts the current thread on the table its next state says. -/
theorem miSwitchOut_ok {cur : Tid} (hcur : s.curthread = some cur)
    (h : miSwitchOut nextstate s = .ok u s') :
  match nextstate with
  | .ready => makeRunnable cur { s with curthread := none } = .ok () s'
  | .sleep => addSleeper cur { s with curthread := none } = .ok () s'
  | .zomb => addZombie cur { s with curthread := none } = .ok () s'
  := by
  simp only [miSwitchOut, get_bind, hcur, modify_bind, asserted_ok] at h
  cases nextstate with
  | ready | sleep | zomb => apply h

/-! ### Specifications -/

variable {E : Errno → Threads → Prop}

@[simp]
theorem wp_kmalloc :
  wp kmalloc s Q E
    ↔ Q (s.kmallocs.headD true) { s with kmallocs := s.kmallocs.tail }
  := by
  simp only [kmalloc, wp_bind, wp_get, wp_modify, wp_pure]

variable {β : Type} {table : Threads → Bool → Option β} {put : β → Threads → Threads}

/-- `store` puts the table that was made, or fails when there is none. -/
theorem store_spec :
  wp (store table put) s
    (fun _ s' => ∃ b,
      table { s with kmallocs := s.kmallocs.tail } (s.kmallocs.headD true) = some b
        ∧ s' = put b { s with kmallocs := s.kmallocs.tail })
    (fun _ s' => table { s with kmallocs := s.kmallocs.tail } (s.kmallocs.headD true) = none
      ∧ s' = { s with kmallocs := s.kmallocs.tail })
  := by
  simp only [store, wp_bind, wp_kmalloc, wp_get]
  split
  · rw [wp_modify]
    exact ⟨_, by assumption, rfl⟩
  · rw [wp_fail]
    exact ⟨by assumption, rfl⟩

theorem store_total
    (h : (table { s with kmallocs := s.kmallocs.tail } (s.kmallocs.headD true)).isSome) :
  wp (store table put) s (fun _ _ => True)
  := by
  apply wp_mono store_spec
  · intros
    trivial
  · rintro _ _ ⟨hnone, -⟩
    exact Option.isSome_iff_ne_none.mp h hnone

/-- What a call of `thread_fork` keeps, whether it succeeds or not. -/
structure ForkKept (t : Tid) (s s' : Threads) : Prop where
  curthread : s'.curthread = s.curthread
  sleepaddr : s'.sleepaddr = Function.update s.sleepaddr t none
  sleepers : s'.sleepers.guys = s.sleepers.guys
  zombies : s'.zombies.guys = s.zombies.guys
  sleepersMax : s.sleepers.max ≤ s'.sleepers.max
  zombiesMax : s.zombies.max ≤ s'.zombies.max

/-- A thread has been made. -/
structure Forked (t : Tid) (s s' : Threads) : Prop extends ForkKept t s s' where
  runqueue : s'.runqueue.elems = s.runqueue.elems ++ [t]
  numthreads : s'.numthreads = s.numthreads + 1
  sleepersRoom : s.numthreads + 1 ≤ s'.sleepers.max
  zombiesRoom : s.numthreads + 1 ≤ s'.zombies.max
  /-- `kmalloc` has not refused storage for the two arrays. -/
  memory : false ∉ s.kmallocs.take 2
  queue : ∃ q mem mem', s.runqueue.preallocate (s.numthreads + 1) mem = some q
    ∧ q.addtail t mem' = some s'.runqueue

/-- No thread has been made. -/
structure NotForked (t : Tid) (s s' : Threads) : Prop extends ForkKept t s s' where
  runqueue : s'.runqueue.elems = s.runqueue.elems
  numthreads : s'.numthreads = s.numthreads
  queue : s'.runqueue = s.runqueue
    ∨ ∃ mem, s.runqueue.preallocate (s.numthreads + 1) mem = some s'.runqueue

variable {Q : Unit → Threads → Prop}

theorem wlp_asserted (h : wp m s Q' E') (hQ : ∀ a s', Q' a s' → Q a s') :
  wlp (fun _ => True) (asserted m p) s Q E
  := by
  simp only [asserted, wlp_bind, wlp_attempt]
  apply wlp_mono (wlp_of_wp h)
  · exact hQ
  · intro _ _ _
    trivial

variable {addr : Addr}

/-- Of the threads `todo` behind `seen`, the sleepers on other addresses are left in place, and the
others are runnable; what each `q_addtail` keeps of the run queue is kept. -/
def Woken (addr : Addr) (seen todo : List Tid) (s s' : Threads) : Prop :=
  ∃ a q ks, a.guys = seen ++ todo.filter (fun t => s.sleepaddr t ≠ some addr)
    ∧ a.max = s.sleepers.max
    ∧ q.elems = s.runqueue.elems ++ todo.filter (fun t => s.sleepaddr t = some addr)
    ∧ (∀ P : Queue Tid → Prop, (∀ q b t mem, P q → q.addtail t mem = some b → P b) →
      P s.runqueue → P q)
    ∧ s' = { s with sleepers := a, runqueue := q, kmallocs := ks }

theorem threadWakeupFrom_spec :
    ∀ {todo seen : List Tid} {s : Threads}, s.sleepers.guys = seen ++ todo →
      wlp (fun _ => True) (threadWakeupFrom addr todo.length seen.length) s
        (fun _ s' => Woken addr seen todo s s')
  | [], seen, s, hs => ⟨s.sleepers, s.runqueue, s.kmallocs, hs, rfl, (List.append_nil _).symm,
      fun _ _ h => h, rfl⟩
  | t :: todo, seen, s, hs => by
      have ht : s.sleepers.guys[seen.length]? = some t := by
        rw [hs, List.getElem?_append_right (Nat.le_refl _)]
        simp
      simp only [threadWakeupFrom, List.length_cons, wlp_bind, wlp_get, ht, wlp_ite, wlp_modify]
      constructor
      · intro hwake
        apply wlp_asserted store_spec
        rintro _ _ ⟨q₁, hq₁, rfl⟩
        have herase : (s.sleepers.remove seen.length).guys = seen ++ todo := by
          simp [Table.remove, hs, List.eraseIdx_append_of_length_le]
        apply wlp_imp (threadWakeupFrom_spec herase)
        rintro _ _ ⟨a, q, ks, ha, hmax, hq, hqueue, rfl⟩
        refine ⟨a, q, ks, ?_, hmax, ?_, fun P hadd h => hqueue P hadd (hadd _ _ _ _ h hq₁), rfl⟩
        · simp [ha, hwake]
        · simp [hq, Queue.addtail_elems hq₁, hwake]
      · intro hwake
        have hlen : seen.length + 1 = (seen ++ [t]).length := by simp
        have hs' : s.sleepers.guys = (seen ++ [t]) ++ todo := by simp [hs]
        rw [hlen]
        apply wlp_imp (threadWakeupFrom_spec hs')
        rintro _ _ ⟨a, q, ks, ha, hmax, hq, hqueue, rfl⟩
        refine ⟨a, q, ks, ?_, hmax, ?_, hqueue, rfl⟩
        · simp [ha, hwake]
        · simp [hq, hwake]

/-- `thread_wakeup` makes exactly the sleepers on its address runnable. -/
theorem threadWakeup_ok (h : threadWakeup addr s = .ok u s') :
  Woken addr [] s.sleepers.guys s s'
  := by
  have hwoken := wlp_ok (threadWakeupFrom_spec (List.nil_append _).symm) h
  exact hwoken

/-- `thread_fork` makes a thread, or fails and leaves all threads where they are. -/
theorem threadFork_spec (t : Tid) :
  wp (threadFork t) s (fun _ s' => Forked t s s') (fun _ s' => NotForked t s s')
  := by
  simp only [threadFork, wp_bind, wp_modify]
  apply wp_mono store_spec
  · rintro _ _ ⟨a, ha, rfl⟩
    obtain ⟨haguys, haroom, hamax, hamem⟩ := Table.preallocate_spec ha
    apply wp_mono store_spec
    · rintro _ _ ⟨b, hb, rfl⟩
      obtain ⟨hbguys, hbroom, hbmax, hbmem⟩ := Table.preallocate_spec hb
      have hmem : false ∉ s.kmallocs.take 2 := by
        cases hks : s.kmallocs with
        | nil => simp
        | cons x rest =>
          simp only [hks, List.headD_cons, List.tail_cons] at hamem hbmem
          cases rest with
          | nil => simp [hamem]
          | cons y rest =>
            rw [List.headD_cons] at hbmem
            simp [hamem, hbmem]
      apply wp_mono store_spec
      · rintro _ _ ⟨q, hq, rfl⟩
        apply wp_mono store_spec
        · rintro _ _ ⟨q', hq', rfl⟩
          refine ⟨⟨rfl, rfl, haguys, hbguys, hamax, hbmax⟩, ?_, rfl, haroom, hbroom, hmem, q, _,
            _, hq, hq'⟩
          rw [Queue.addtail_elems hq', Queue.preallocate_elems hq]
        · rintro _ _ ⟨-, rfl⟩
          exact ⟨⟨rfl, rfl, haguys, hbguys, hamax, hbmax⟩, Queue.preallocate_elems hq, rfl,
            .inr ⟨_, hq⟩⟩
      · rintro _ _ ⟨-, rfl⟩
        exact ⟨⟨rfl, rfl, haguys, hbguys, hamax, hbmax⟩, rfl, rfl, .inl rfl⟩
    · rintro _ _ ⟨-, rfl⟩
      exact ⟨⟨rfl, rfl, haguys, rfl, hamax, Nat.le_refl _⟩, rfl, rfl, .inl rfl⟩
  · rintro _ _ ⟨-, rfl⟩
    exact ⟨⟨rfl, rfl, rfl, rfl, Nat.le_refl _, Nat.le_refl _⟩, rfl, rfl, .inl rfl⟩

/-! ### Threads can be made runnable -/

/-- There is memory, or room, to make `n` more threads runnable. -/
def Roomy (n : ℕ) (s : Threads) : Prop :=
  s.kmallocs = [] ∨ s.runqueue.elems.length + n < s.runqueue.size

/-- With room in the run queue, a thread is made runnable in the ring that is there. -/
theorem makeRunnable_roomy {n : ℕ} (h : Roomy (n + 1) s) (t : Tid) :
  ∃ q, makeRunnable t s = .ok () { s with runqueue := q, kmallocs := s.kmallocs.tail }
    ∧ Roomy n { s with runqueue := q, kmallocs := s.kmallocs.tail }
    ∧ (s.runqueue.elems.length + (n + 1) < s.runqueue.size → q.size = s.runqueue.size
      ∧ q.elems.length = s.runqueue.elems.length + 1)
  := by
  have hrun : ∀ {q}, s.runqueue.addtail t (s.kmallocs.headD true) = some q →
      makeRunnable t s = .ok () { s with runqueue := q, kmallocs := s.kmallocs.tail } := by
    intro q hq
    rw [makeRunnable, store, bind_ok (show kmalloc s = .ok _ _ from rfl), get_bind, hq]
    rfl
  by_cases hroom : s.runqueue.elems.length + (n + 1) < s.runqueue.size
  · have hadd := Queue.addtail_room (show s.runqueue.elems.length + 1 < s.runqueue.size by omega) t
      (s.kmallocs.headD true)
    refine ⟨_, hrun hadd, .inr ?_, fun _ => ⟨rfl, by simp⟩⟩
    simp only [List.length_append, List.length_cons, List.length_nil]
    omega
  · have hmem : s.kmallocs = [] := h.resolve_right hroom
    obtain ⟨q, hq⟩ := s.runqueue.addtail_mem t
    have hadd : s.runqueue.addtail t (s.kmallocs.headD true) = some q := by
      rw [hmem]
      exact hq
    refine ⟨q, hrun hadd, .inl ?_, fun h' => absurd h' hroom⟩
    simp [hmem]

/-- With room for all sleepers, `thread_wakeup` returns. -/
theorem threadWakeupFrom_roomy {n i : ℕ} (h : Roomy n s) :
  ∃ s', threadWakeupFrom addr n i s = .ok () s'
    ∧ (s.runqueue.elems.length + n < s.runqueue.size → s'.runqueue.size = s.runqueue.size)
  := by
  induction n generalizing i s with
  | zero => exact ⟨s, rfl, fun _ => rfl⟩
  | succ n ih =>
    simp only [threadWakeupFrom, get_bind]
    cases hguy : s.sleepers.guys[i]? with
    | none => exact ⟨s, rfl, fun _ => rfl⟩
    | some t =>
      by_cases hwake : s.sleepaddr t = some addr
      · have hremoved : Roomy (n + 1) { s with sleepers := s.sleepers.remove i } := h
        obtain ⟨q, hq, hroomy, hsize⟩ := makeRunnable_roomy hremoved t
        obtain ⟨s', hs', hsize'⟩ := ih (i := i) hroomy
        use s'
        constructor
        · simp only [if_pos hwake, modify_bind, bind_eq_ok, asserted_ok]
          exact ⟨(), _, hq, hs'⟩
        · intro hroom
          obtain ⟨hqsize, hqlen⟩ := hsize hroom
          have hrest : q.elems.length + n < q.size := by
            have hlen : q.elems.length = s.runqueue.elems.length + 1 := hqlen
            have hsz : q.size = s.runqueue.size := hqsize
            omega
          exact (hsize' hrest).trans hqsize
      · have hrest : Roomy n s := by
          rcases h with hmem | hroom
          · exact .inl hmem
          · exact .inr (by omega)
        obtain ⟨s', hs', hsize'⟩ := ih (i := i + 1) hrest
        use s'
        simp only [if_neg hwake]
        refine ⟨hs', fun hroom => hsize' ?_⟩
        omega

theorem wp_asserted (h : wp m s Q) :
  wp (asserted m p) s Q E
  := by
  simp only [asserted, wp_bind, wp_attempt]
  apply wp_sure h
  intro _ s' hs'
  simp only [wp_pure]
  exact hs'

/-- `mi_switch` returns when the current thread can be put where its next state says. -/
theorem miSwitchOut_total {cur : Tid} (hcur : s.curthread = some cur)
    (h : wp (match nextstate with
        | .ready => makeRunnable cur
        | .sleep => addSleeper cur
        | .zomb => addZombie cur) { s with curthread := none } Q) :
  wp (miSwitchOut nextstate) s Q E
  := by
  simp only [miSwitchOut, wp_bind, wp_get, hcur, wp_modify]
  apply wp_asserted h

/-! ### Sleepers on an address -/

/-- No sleeper sleeps on the address. -/
def NoSleeper (addr : Addr) (s : Threads) : Prop :=
  ∀ t ∈ s.sleepers.guys, s.sleepaddr t ≠ some addr

/-- Who sleeps on the address afterwards did so before. -/
def NoNewSleeper (addr : Addr) (s s' : Threads) : Prop :=
  ∀ t ∈ s'.sleepers.guys, s'.sleepaddr t = some addr →
    t ∈ s.sleepers.guys ∧ s.sleepaddr t = some addr

theorem NoSleeper.mono (h : NoSleeper addr s) (hnew : NoNewSleeper addr s s') :
  NoSleeper addr s'
  := by
  intro t ht haddr
  obtain ⟨ht', haddr'⟩ := hnew t ht haddr
  apply h t ht' haddr'

namespace NoNewSleeper

variable {addr : Addr}

theorem refl (s : Threads) :
  NoNewSleeper addr s s
  := fun _ ht haddr => ⟨ht, haddr⟩

theorem trans {s s' s'' : Threads} (h : NoNewSleeper addr s s') (h' : NoNewSleeper addr s' s'') :
  NoNewSleeper addr s s''
  := by
  intro t ht haddr
  obtain ⟨ht', haddr'⟩ := h' t ht haddr
  apply h t ht' haddr'

/-- Nobody new sleeps on the address when the sleepers and their addresses are the same. -/
theorem of_eq (hg : s'.sleepers.guys = s.sleepers.guys) (ha : s'.sleepaddr = s.sleepaddr) :
  NoNewSleeper addr s s'
  := by
  intro t ht haddr
  rw [hg] at ht
  rw [ha] at haddr
  exact ⟨ht, haddr⟩

/-- A thread that stops to sleep on an address adds no sleeper to it. -/
theorem of_update_none (t : Tid) (hg : s'.sleepers.guys = s.sleepers.guys)
    (ha : s'.sleepaddr = Function.update s.sleepaddr t none) :
  NoNewSleeper addr s s'
  := by
  intro t' ht' haddr
  rw [hg] at ht'
  rw [ha, Function.update_apply] at haddr
  split at haddr
  · simp at haddr
  · exact ⟨ht', haddr⟩

end NoNewSleeper

/-- Routines after which nobody new sleeps on the address. -/
abbrev Quiet {α : Type} (addr : Addr) (m : Run α) : Prop :=
  Routine.Respects (NoNewSleeper addr) m

namespace Quiet

variable {addr : Addr}

theorem miSwitchOut (h : nextstate ≠ .sleep) (s : Threads) :
  wlp (fun _ => True) (Threads.miSwitchOut nextstate) s (fun _ s' => NoNewSleeper addr s s')
    (fun _ s' => NoNewSleeper addr s s')
  := by
  simp only [Threads.miSwitchOut, wlp_bind, wlp_get]
  cases s.curthread with
  | none => exact NoNewSleeper.refl s
  | some cur =>
    cases nextstate with
    | ready =>
      apply wlp_asserted store_spec
      rintro _ _ ⟨q, -, rfl⟩
      exact NoNewSleeper.of_eq rfl rfl
    | sleep => exact absurd rfl h
    | zomb =>
      apply wlp_asserted store_spec
      rintro _ _ ⟨a, -, rfl⟩
      exact NoNewSleeper.of_eq rfl rfl

theorem threadYield :
  Quiet addr Threads.threadYield
  := Routine.Respects.of_wlp (miSwitchOut (by decide))

theorem threadExit :
  Quiet addr Threads.threadExit
  := by
  apply Routine.Respects.of_wlp
  intro s
  simp only [Threads.threadExit, wlp_bind, wlp_get, wlp_assert, wlp_modify]
  exact ⟨fun _ => miSwitchOut (by decide) _, fun _ => trivial⟩

theorem schedule :
  Quiet addr Threads.schedule
  := by
  apply Routine.Respects.of_wlp
  intro s
  simp only [Threads.schedule, wlp_bind, wlp_get]
  cases s.runqueue.elems with
  | nil => exact NoNewSleeper.refl s
  | cons t rest => exact NoNewSleeper.of_eq rfl rfl

theorem miSwitchIn :
  Quiet addr Threads.miSwitchIn
  := by
  apply Routine.Respects.of_wlp
  intro s
  simp only [Threads.miSwitchIn, exorcise, wlp_bind, wlp_get, wlp_assert, wlp_modify]
  exact ⟨fun _ => NoNewSleeper.of_eq rfl rfl, fun _ => trivial⟩

theorem threadSleepIn :
  Quiet addr Threads.threadSleepIn
  := by
  apply Routine.Respects.of_wlp
  intro s
  simp only [Threads.threadSleepIn, Threads.miSwitchIn, exorcise, wlp_bind, wlp_get, wlp_assert,
    wlp_modify]
  refine ⟨fun _ => ?_, fun _ => trivial⟩
  cases s.curthread with
  | none => trivial
  | some cur => exact NoNewSleeper.of_update_none cur rfl rfl

/-- Going to sleep on another address adds no sleeper to this one. -/
theorem threadSleepOut {addr' : Addr} (h : addr' ≠ addr) :
  Quiet addr (Threads.threadSleepOut addr')
  := by
  apply Routine.Respects.of_wlp
  intro s
  simp only [Threads.threadSleepOut, Threads.miSwitchOut, wlp_bind, wlp_get]
  cases hcur : s.curthread with
  | none => trivial
  | some cur =>
    simp only [wlp_bind, wlp_modify, wlp_get, hcur]
    apply wlp_asserted store_spec
    rintro _ _ ⟨a, ha, rfl⟩ t ht haddr
    simp only [Function.update_apply] at haddr
    split at haddr
    · simp only [Option.some.injEq] at haddr
      exact absurd haddr h
    · next hne =>
        simp only [(Table.add_spec ha).1, List.mem_append, List.mem_singleton, hne, or_false] at ht
        exact ⟨ht, haddr⟩

theorem threadWakeup {addr' : Addr} {u : Unit} {s s' : Threads}
    (h : Threads.threadWakeup addr' s = .ok u s') :
  NoNewSleeper addr s s'
  := by
  obtain ⟨a, q, ks, ha, -, -, -, rfl⟩ := threadWakeup_ok h
  intro t ht haddr
  rw [ha] at ht
  exact ⟨List.mem_of_mem_filter ht, haddr⟩

theorem threadFork (t : Tid) (s : Threads) :
  wlp (fun _ => True) (Threads.threadFork t) s (fun _ s' => NoNewSleeper addr s s')
    (fun _ s' => NoNewSleeper addr s s')
  := by
  apply wlp_of_wp
  apply wp_mono (threadFork_spec t) <;>
    exact fun _ _ hf => NoNewSleeper.of_update_none t hf.sleepers hf.sleepaddr

end Quiet

end Threads
