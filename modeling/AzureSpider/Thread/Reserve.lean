import AzureSpider.Thread.System
import AzureSpider.Kern.RingBuffer

/-!
# Room for the threads

`thread_fork` makes room in the sleepers, in the zombies and in the run queue for one more
thread than there are, so that a thread which goes to sleep, exits or becomes ready later needs
no memory.

For the sleepers this always works.  The room in the zombies is lost when `exorcise` empties an
array with room for more than 16 threads, since `array_setsize` then frees its storage; and it
does not count the zombies that nobody has collected yet.  The run queue is given one cell for
each thread, but its ring holds one thread less than it has cells.  Each of the three promises
holds along the runs that keep away from these cases.
-/

open Routine

open Threads

namespace ThreadSystem

variable {s s' : ThreadSystem} {u : Unit}

/-! ### The sleepers and the zombies -/

/-- Once a thread has been made, both arrays have room for all threads. -/
def Reserved (s : ThreadSystem) : Prop :=
  s.forked = true →
    s.th.numthreads ≤ s.th.sleepers.max ∧ s.th.numthreads ≤ s.th.zombies.max

/-- The steps that leave the room in the zombies: a thread collects the zombies only while
their array is small, and a thread exits only while there is room for it among the zombies that
are not collected yet. -/
def roomKept : Condition := fun s e _ =>
  match e with
  | .resume => ∀ t, s.th.curthread = some t → s.point t ≠ .start → s.th.zombies.max ≤ 16
  | .exit => s.forked = true → s.th.zombies.guys.length < s.th.zombies.max
  | _ => True

/-- The event puts a thread on one of the arrays. -/
def Event.inserts : Event → Prop
  | .sleep _ => True
  | .exit => True
  | _ => False

/-- What the comments of `thread_fork` and `mi_switch` promise of an event: it puts the thread on
its array whatever `kmalloc` answers, and the room is still there after it. -/
def Spared (s : ThreadSystem) (e : Event) : Prop :=
  (e.inserts → ∀ mem, ∃ s', act e (s.withMem mem) = .ok () s')
    ∧ ∀ mem s', act e (s.withMem mem) = .ok () s' → s'.Reserved

/-- What an event other than `thread_fork` does to the room. -/
structure RoomMoved (e : Event) (s s' : ThreadSystem) : Prop where
  forked : s'.forked = s.forked
  numthreads : s'.th.numthreads ≤ s.th.numthreads
  sleepers : s.th.sleepers.max ≤ s'.th.sleepers.max
  zombies : s.th.zombies.max ≤ s'.th.zombies.max
    ∨ e = .resume ∧ s'.th.zombies.max = s.th.zombies.clear.max
      ∧ ∃ t, s.th.curthread = some t ∧ s.point t ≠ .start

theorem RoomMoved.of_eq {e : Event} (hforked : s'.forked = s.forked)
    (hnum : s'.th.numthreads = s.th.numthreads) (hsleepers : s'.th.sleepers = s.th.sleepers)
    (hzombies : s'.th.zombies = s.th.zombies) :
  RoomMoved e s s'
  := by
  constructor
  · exact hforked
  · exact Nat.le_of_eq hnum
  · exact Nat.le_of_eq (congrArg Table.max hsleepers.symm)
  · exact .inl (Nat.le_of_eq (congrArg Table.max hzombies.symm))

theorem Happens.roomMoved {e : Event} (hfork : ∀ t, e ≠ .fork t) (h : Happens s e s') :
  RoomMoved e s s'
  := by
  cases h with
  | forked | notForked => exact absurd rfl (hfork _)
  | yielded | idled | scheduled | started => exact .of_eq rfl rfl rfl rfl
  | slept _ ha => exact ⟨rfl, Nat.le_refl _, (Table.add_spec ha).2, .inl (Nat.le_refl _)⟩
  | woken hth =>
    obtain ⟨a, q, ks, -, hmax, -, -, rfl⟩ := threadWakeup_ok hth
    exact ⟨rfl, Nat.le_refl _, Nat.le_of_eq hmax.symm, .inl (Nat.le_refl _)⟩
  | exited _ ha => exact ⟨rfl, Nat.sub_le _ _, Nat.le_refl _, .inl (Table.add_spec ha).2⟩
  | switchedIn hcur hstart =>
    exact ⟨rfl, Nat.le_refl _, Nat.le_refl _, .inr ⟨rfl, rfl, _, hcur, hstart⟩⟩

/-- A step that meets the condition keeps the room. -/
theorem Reserved.act {e : Event} {mem : List Bool} (h : s.Reserved) (he : s.Enabled e)
    (hallow : roomKept s e mem) (hact : act e (s.withMem mem) = .ok u s') :
  s'.Reserved
  := by
  have hact := he.happens hact
  by_cases hfork : ∃ t, e = .fork t
  · obtain ⟨t, rfl⟩ := hfork
    cases hact with
    | forked hf =>
      intro _
      have hnum := Nat.le_of_eq hf.numthreads
      exact ⟨Nat.le_trans hnum hf.sleepersRoom, Nat.le_trans hnum hf.zombiesRoom⟩
    | notForked hf =>
      intro hforked
      obtain ⟨hsleepers, hzombies⟩ := h hforked
      have hnum := Nat.le_of_eq hf.numthreads
      exact ⟨Nat.le_trans (Nat.le_trans hnum hsleepers) hf.sleepersMax,
        Nat.le_trans (Nat.le_trans hnum hzombies) hf.zombiesMax⟩
  · have hmoved := hact.roomMoved fun t ht => hfork ⟨t, ht⟩
    intro hforked
    obtain ⟨hsleepers, hzombies⟩ := h (hmoved.forked.symm.trans hforked)
    have hnum : s'.th.numthreads ≤ s.th.numthreads := hmoved.numthreads
    have hsmax : s.th.sleepers.max ≤ s'.th.sleepers.max := hmoved.sleepers
    refine ⟨by omega, ?_⟩
    rcases hmoved.zombies with hzmax | ⟨rfl, hclear, t, hcur, hstart⟩
    · have hzmax : s.th.zombies.max ≤ s'.th.zombies.max := hzmax
      omega
    · -- an array with room for at most 16 threads keeps its storage
      have hsmall := hallow t hcur hstart
      have hclear : s'.th.zombies.max = s.th.zombies.max :=
        hclear.trans (if_neg (Nat.not_lt.mpr hsmall))
      omega

theorem Reaches.reserved {b : Tid} (hrun : Reaches roomKept (boot b) s) :
  s.Reserved
  := by
  induction hrun with
  | refl =>
    intro hforked
    cases hforked
  | tail _ hstep ih =>
    obtain ⟨e, mem, he, hallow, hact⟩ := hstep
    exact ih.act he hallow hact

/-- The sleepers have room for the current thread. -/
theorem Placed.sleepers_lt (h : s.Placed) (hres : s.Reserved) (hforked : s.forked = true) {t : Tid}
    (hcur : s.th.curthread = some t) :
  s.th.sleepers.guys.length < s.th.sleepers.max
  := by
  have hnum := h.numthreads
  simp only [awake, hcur, Option.toList_some, List.length_append, List.length_singleton] at hnum
  have hroom := (hres hforked).1
  omega

/-- In every run whose steps keep the condition, both arrays have room for all threads from the
first successful `thread_fork` on, and the condition holds of exactly those events that need no
memory and leave the room. -/
theorem reserved_of_roomKept {b : Tid} (hrun : Reaches roomKept (boot b) s) :
  s.Reserved ∧ ∀ e, s.Enabled e → s.forked = true → (s.Spared e ↔ roomKept s e [])
  := by
  have hres := hrun.reserved
  have h := hrun.placed (boot_placed b)
  refine ⟨hres, fun e he hforked => ⟨fun hspared => ?_, fun hallow => ⟨?_, ?_⟩⟩⟩
  · cases e with
    | resume =>
      -- a large array would be freed
      intro t hcur hstart
      by_contra hlarge
      obtain ⟨s', hact⟩ := h.progress he
      have hafter := hspared.2 [] s' hact
      cases he.happens hact with
      | started hcur' hst =>
        obtain rfl := Option.some.inj (hcur.symm.trans hcur')
        exact hstart hst
      | switchedIn =>
        obtain ⟨-, hzombies⟩ := hafter hforked
        have hclear : s.th.zombies.clear.max = 0 := if_pos (Nat.not_le.mp hlarge)
        have hpos := h.numthreads_pos hcur
        have hzombies : s.th.numthreads ≤ s.th.zombies.clear.max := hzombies
        omega
    | exit =>
      intro _
      obtain ⟨s', hact⟩ := hspared.1 trivial [false]
      by_contra hfull
      cases he.happens hact with
      | exited hcur ha => cases (Table.add_eq_none (Nat.not_lt.mp hfull) _).symm.trans ha
    | fork | yield | sleep | wakeup | schedule => trivial
  · intro hins mem
    have hspec : wp (act e) (s.withMem mem) (fun _ _ => True) := by
      cases e with
      | sleep addr =>
        obtain ⟨t, hcur, -⟩ := he
        apply sleep_total (by exact hcur)
        apply Table.add_isSome
        exact h.sleepers_lt hres hforked hcur
      | exit =>
        obtain ⟨t, hcur, -⟩ := he
        apply exit_total (by exact hcur) (by exact h.numthreads_pos hcur)
        apply Table.add_isSome
        exact hallow hforked
      | _ => cases hins
    obtain ⟨_, s', hs', -⟩ := exists_ok hspec
    exact ⟨s', hs'⟩
  · intro mem s' hact
    exact hres.act he (by cases e <;> exact hallow) hact

/-- The boot thread makes a thread, which has not run yet. -/
theorem reserved_of_roomKept_forked :
  ∃ s : ThreadSystem, s.forked = true ∧ s.th.numthreads = 2
    ∧ s.Reserved ∧ ∀ e, s.Enabled e → s.forked = true → (s.Spared e ↔ roomKept s e [])
  := by
  have hreach : ∃ s, Reaches roomKept (boot 0) s ∧ s.forked = true ∧ s.th.numthreads = 2 := by
    refine ⟨_, .tail .refl ⟨.fork 1, [], ⟨⟨0, rfl, rfl⟩, by decide⟩, trivial, rfl⟩, rfl, rfl⟩
  obtain ⟨s, hrun, hforked, hnum⟩ := hreach
  exact ⟨s, hforked, hnum, reserved_of_roomKept hrun⟩

/-! ### The run queue and the zombies -/

/-- The ready threads and the current one are among the threads that `numthreads` counts. -/
theorem Placed.length_elems_lt (h : s.Placed) {t : Tid} (hcur : s.th.curthread = some t) :
  s.th.runqueue.elems.length < s.th.numthreads
  := by
  have hnum := h.numthreads
  simp only [awake, hcur, Option.toList_some, List.length_append, List.length_singleton] at hnum
  omega

/-- The room in the zombies is lost: with 17 threads, after one thread has come back from
`thread_yield`; and with one thread, when two others have exited.  A thread that exits then
panics. -/
theorem zombies_outgrow_room :
  (∃ s, Reaches anyStep (boot 0) s ∧ s.forked = true ∧ s.th.zombies.max < s.th.numthreads
      ∧ s.Enabled .exit ∧ act .exit (s.withMem [false]) = .panic .switchFailed)
    ∧ ∃ s, Reaches anyStep (boot 0) s ∧ s.forked = true ∧ s.th.numthreads = 1
      ∧ s.Enabled .exit ∧ act .exit (s.withMem [false]) = .panic .switchFailed
  := by
  constructor
  · -- the threads 0 and 1 have been switched away when 0 makes the others and yields to 1
    exact exists_of_replay 0 ([.fork 1, .yield, .schedule, .resume, .yield, .schedule, .resume]
      ++ (List.range' 2 15).map .fork ++ [.yield, .schedule, .resume]) (by decide +kernel)
  · exact exists_of_replay 0
      [.fork 1, .exit, .schedule, .resume, .fork 2, .exit, .schedule, .resume] (by decide +kernel)

/-! ### The run queue -/

/-- The run queue has a cell for each of `n` threads, and one that the ready threads leave
unused. -/
structure Celled (n : ℕ) (q : Queue Tid) : Prop where
  threads : n ≤ q.size
  ready : q.elems.length < q.size

namespace Celled

variable {n : ℕ} {q p : Queue Tid}

theorem addtail {t : Tid} {mem : Bool} (h : Celled n q) (hadd : q.addtail t mem = some p) :
  Celled n p
  := by
  obtain ⟨hready, hsize⟩ := Queue.addtail_lt h.ready hadd
  exact ⟨Nat.le_trans h.threads hsize, hready⟩

theorem preallocate {m : ℕ} {mem : Bool} (h : Celled n q) (hpre : q.preallocate m mem = some p) :
  Celled n p ∧ Celled m p
  := by
  obtain ⟨hneeded, hsize⟩ := Queue.preallocate_size (Nat.zero_lt_of_lt h.ready) hpre
  have hready : p.elems.length < p.size := by
    rw [Queue.preallocate_elems hpre]
    exact Nat.lt_of_lt_of_le h.ready hsize
  exact ⟨⟨Nat.le_trans h.threads hsize, hready⟩, ⟨hneeded, hready⟩⟩

end Celled

/-- Every step keeps a cell for each thread. -/
theorem Step.celled {allow : Condition} (hstep : Step allow s s')
    (h : Celled s.th.numthreads s.th.runqueue) :
  Celled s'.th.numthreads s'.th.runqueue
  := by
  obtain ⟨e, mem, he, -, hact⟩ := hstep
  cases he.happens hact with
  | forked hf =>
    obtain ⟨q, mem₁, mem₂, hpre, hadd⟩ := hf.queue
    rw [hf.numthreads]
    exact (h.preallocate hpre).2.addtail hadd
  | notForked hf =>
    rw [hf.numthreads]
    rcases hf.queue with hsame | ⟨mem₁, hpre⟩
    · rw [hsame]
      exact h
    · exact (h.preallocate hpre).1
  | yielded _ hq => exact h.addtail hq
  | idled | slept | started | switchedIn => exact h
  | woken hth =>
    obtain ⟨a, q, ks, -, -, -, hqueue, rfl⟩ := threadWakeup_ok hth
    exact hqueue _ (fun _ _ _ _ hq hadd => hq.addtail hadd) h
  | exited => exact ⟨Nat.le_trans (Nat.sub_le _ _) h.threads, h.ready⟩
  | scheduled _ hq =>
    have hready := h.ready
    rw [show s.th.runqueue.elems = _ from hq, List.length_cons] at hready
    exact ⟨h.threads, Nat.lt_of_succ_lt hready⟩

theorem Reaches.celled {b : Tid} {allow : Condition} (hrun : Reaches allow (boot b) s) :
  Celled s.th.numthreads s.th.runqueue
  := by
  induction hrun with
  | refl =>
    exact ⟨(by decide : 1 ≤ 32), (by decide : 0 < 32)⟩
  | tail _ hstep ih => exact hstep.celled ih

/-- The event makes threads ready. -/
def Event.readies : Event → Prop
  | .yield => True
  | .wakeup _ => True
  | _ => False

/-- In every state of every run, the ring of the run queue has room for all threads at once
exactly when it does not have as many cells as there are threads.  Then the current thread and
the sleepers become ready without memory, in the ring that is there. -/
theorem runqueue_hasRoom_iff {b : Tid} (hrun : Reaches anyStep (boot b) s) :
  (∃ r : RingBuffer Tid, r.Holds s.th.runqueue)
    ∧ (∀ r : RingBuffer Tid, r.Holds s.th.runqueue →
      (r.HasRoom s.th.numthreads ↔ s.th.numthreads ≠ s.th.runqueue.size))
    ∧ (s.th.numthreads ≠ s.th.runqueue.size → ∀ e : Event, e.readies → s.Enabled e → ∀ mem,
      ∃ s', act e (s.withMem mem) = .ok () s' ∧ s'.th.runqueue.size = s.th.runqueue.size)
  := by
  have h := hrun.placed (boot_placed b)
  have hcells := hrun.celled
  have hthreads := hcells.threads
  have hnum := h.numthreads
  simp only [awake, List.length_append] at hnum
  refine ⟨RingBuffer.exists_holds hcells.ready, ?_, ?_⟩
  · intro r hr
    rw [hr.hasRoom_iff (by omega)]
    omega
  · intro hne e hready he mem
    have hspec : wp (act e) (s.withMem mem)
        (fun _ s' => s'.th.runqueue.size = s.th.runqueue.size) := by
      cases e with
      | yield =>
        rcases he with ⟨t, hcur, -⟩ | hidle
        · have hlen := h.length_elems_lt hcur
          have hroom : s.th.runqueue.elems.length + 1 < s.th.runqueue.size := by omega
          apply wp_imp (yield_total (s := s.withMem mem) hcur (.inr hroom))
          intro _ s' hs'
          exact hs' hroom
        · exact wp_of_ok (yield_idle (by exact hidle)) rfl
      | wakeup addr =>
        have hroom : s.th.runqueue.elems.length + s.th.sleepers.guys.length
            < s.th.runqueue.size := by omega
        apply wp_imp (wakeup_total (s := s.withMem mem) (.inr hroom))
        intro _ s' hs'
        exact hs' hroom
      | _ => cases hready
    obtain ⟨_, s', hs', hsize⟩ := exists_ok hspec
    exact ⟨s', hs', hsize⟩

/-- With 33 threads the ring has grown to 64 cells, and the current thread yields without
memory. -/
theorem runqueue_hasRoom_iff_grown :
  ∃ s, Reaches anyStep (boot 0) s ∧ s.th.numthreads = 33 ∧ s.th.runqueue.size = 64
    ∧ (∀ r : RingBuffer Tid, r.Holds s.th.runqueue → r.HasRoom 33)
    ∧ ∃ s', act .yield (s.withMem [false]) = .ok () s' ∧ s'.th.runqueue.size = 64
  := by
  obtain ⟨s, hrun, hnum, hsize, he⟩ := exists_of_replay 0
    (P := fun s => s.th.numthreads = 33 ∧ s.th.runqueue.size = 64 ∧ s.Enabled .yield)
    ((List.range' 1 32).map .fork) (by decide +kernel)
  obtain ⟨-, hroom, hready⟩ := runqueue_hasRoom_iff hrun
  rw [hnum, hsize] at hroom hready
  exact ⟨s, hrun, hnum, hsize, fun r hr => (hroom r hr).mpr (by decide),
    hready (by decide) .yield trivial he [false]⟩

/-- With 32 threads, all of them ready or running, the ring has 32 cells and is full; the
current thread then panics in `thread_yield` when there is no memory. -/
theorem runqueue_outgrown :
  ∃ s, Reaches anyStep (boot 0) s ∧ s.th.numthreads = 32 ∧ s.th.runqueue.size = 32
    ∧ s.Enabled .yield ∧ act .yield (s.withMem [false]) = .panic .switchFailed
  := by
  exact exists_of_replay 0 ((List.range' 1 31).map .fork) (by decide +kernel)

end ThreadSystem
