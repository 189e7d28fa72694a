import AzureSpider.Lib.Interleave
import AzureSpider.Lib.Machine
import Mathlib.Algebra.BigOperators.Fin
import Mathlib.Algebra.Order.BigOperators.Group.Finset

/-!
# Interrupts of the LAMEbus

`lamebus_interrupt` looks at the slots that signal an interrupt and calls their handlers.  It counts
the dud interrupts: stray ones, and those of slots without a driver or without a handler.  The
count is cleared by an interrupt without duds, and too high a count is a panic.

A handler may let other threads run, which take interrupts of their own; the count is shared by
all calls.  The registers and the tables of the bus change at any time.
-/

open Machine

namespace Lamebus

/-! ### The model -/

/-- `LB_NSLOTS`. -/
def nslots : ℕ := 32

/-- The number of dud interrupts in a row that is too many. -/
def maxDuds : ℕ := 10000

/-- The bus, and the count of `lamebus_interrupt`. -/
structure Bus where
  /-- `ls_slotsinuse`. -/
  slotsinuse : ℕ
  /-- Whether `ls_irqfuncs` has a handler for a slot. -/
  irqfuncs : ℕ → Bool
  /-- The static variable of `lamebus_interrupt`. -/
  duds : ℤ
  panicked : Bool
  /-- How many dud interrupts there have been since the last interrupt without one. -/
  consecutive : ℕ
  /-- What this number was at each return of `lamebus_interrupt`. -/
  returned : List ℕ

/-- There are no more threads than pages for stacks in 508 megabytes. -/
def maxThreads : ℕ := 508 * 1024 * 1024 / 4096

abbrev Tid : Type := Fin maxThreads

/-- Where a thread is in `lamebus_interrupt`. -/
inductive Pc where
  | idle
  /-- Before the round of the loop for a slot, or after the loop. -/
  | scan (slot irqs dudsThisTime : ℕ)
  /-- In the handler of a slot. -/
  | handler (slot dudsThisTime : ℕ)
  deriving DecidableEq, Repr

/-- What a thread does next, with the value that it reads from `CTLREG_IRQS`. -/
inductive Act where
  | call (irqs : ℕ)
  | look
  | handled (irqs : ℕ)
  | finish
  deriving DecidableEq, Repr

/-- `duds++`. -/
def Bus.dud (s : Bus) : Bus :=
  { s with duds := i32 (s.duds + 1), consecutive := s.consecutive + 1 }

/-- `lamebus_interrupt` returns. -/
def Bus.returns (s : Bus) : Bus := { s with returned := s.consecutive :: s.returned }

/-- The end of an interrupt with or without duds. -/
def Bus.clear (s : Bus) (dudsThisTime : ℕ) : Bus :=
  if dudsThisTime = 0 then
    { s with duds := if s.duds > 0 then 0 else s.duds, consecutive := 0 }
  else
    s

/-- A round of the loop. -/
def lookAt (s : Bus) (slot irqs dudsThisTime : ℕ) : Bus × Pc :=
  if irqs &&& 2 ^ slot = 0 then (s, .scan (slot + 1) irqs dudsThisTime)
  else if s.slotsinuse &&& 2 ^ slot = 0 then (s.dud, .scan (slot + 1) irqs (dudsThisTime + 1))
  else if s.irqfuncs slot = false then (s.dud, .scan (slot + 1) irqs (dudsThisTime + 1))
  else (s, .handler slot dudsThisTime)

/-- The checks after the loop. -/
def finishAt (s : Bus) (slot irqs dudsThisTime : ℕ) : Bus × Pc :=
  if (s.clear dudsThisTime).duds > maxDuds then
    ({ s.clear dudsThisTime with panicked := true }, .scan slot irqs dudsThisTime)
  else
    ((s.clear dudsThisTime).returns, .idle)

/-- A step of `lamebus_interrupt`. -/
def act (s : Bus) : Pc → Act → Option (Bus × Pc)
  | .idle, .call irqs =>
    -- a stray interrupt returns at once
    if irqs = 0 then some (s.dud.returns, .idle) else some (s, .scan 0 irqs 0)
  | .scan slot irqs dudsThisTime, .look =>
    if slot < nslots then some (lookAt s slot irqs dudsThisTime) else none
  | .handler slot dudsThisTime, .handled irqs => some (s, .scan (slot + 1) irqs dudsThisTime)
  | .scan slot irqs dudsThisTime, .finish =>
    if slot < nslots then none else some (finishAt s slot irqs dudsThisTime)
  | _, _ => none

/-- Which steps a run may take. -/
abbrev Condition : Type := Bus → Act → Prop

/-- All of them. -/
def always : Condition := fun _ _ => True

/-- A stray interrupt comes when there is room in the count for it. -/
def roomForStray : Condition := fun s a => a = .call 0 → s.duds < maxDuds

/-- The steps of the threads, and the changes of the tables in between. -/
def moves (allow : Condition) : Moves Tid Bus Pc where
  own _ s l s' l' := s.panicked = false ∧ ∃ a, allow s a ∧ act s l a = some (s', l')
  env c s' := ∃ slotsinuse irqfuncs,
    s' = { c.shared with slotsinuse := slotsinuse, irqfuncs := irqfuncs }

/-- Before the first interrupt. -/
def init : Interleaved Tid Bus Pc where
  shared := ⟨0, fun _ => false, 0, false, 0, []⟩
  pc := fun _ => .idle

/-! ### The count -/

/-- The duds that a call has seen so far. -/
def Pc.seen : Pc → ℕ
  | .idle => 0
  | .scan _ _ dudsThisTime => dudsThisTime
  | .handler _ dudsThisTime => dudsThisTime

/-- A call sees at most one dud for each slot. -/
def Pc.Sound : Pc → Prop
  | .idle => True
  | .scan slot _ dudsThisTime => dudsThisTime ≤ slot ∧ slot ≤ nslots
  | .handler slot dudsThisTime => dudsThisTime ≤ slot ∧ slot < nslots

theorem Pc.Sound.seen_le {l : Pc} (h : l.Sound) :
  l.seen ≤ nslots
  := by
  cases l with
  | idle => exact Nat.zero_le _
  | scan slot irqs d => exact Nat.le_trans h.1 h.2
  | handler slot d => exact Nat.le_trans h.1 (Nat.le_of_lt h.2)

/-- What a step can do. -/
inductive Effect (s : Bus) (l : Pc) (a : Act) : Bus → Pc → Prop
  /-- Nothing is counted. -/
  | pass {l' : Pc} (hseen : l'.seen = l.seen) : Effect s l a s l'
  /-- A slot without a driver, or without a handler. -/
  | dud {l' : Pc} (hseen : l'.seen = l.seen + 1) : Effect s l a s.dud l'
  /-- A stray interrupt. -/
  | stray (hcall : a = .call 0) (hidle : l = .idle) : Effect s l a s.dud.returns .idle
  /-- Too many duds. -/
  | panic (hmany : s.duds > maxDuds) : Effect s l a { s with panicked := true } l
  /-- The end of an interrupt. -/
  | finish (hfew : (s.clear l.seen).duds ≤ maxDuds) :
      Effect s l a (s.clear l.seen).returns .idle

variable {s s' : Bus} {l l' : Pc} {a : Act}

theorem clear_of_duds {d : ℕ} (h : (s.clear d).duds > maxDuds) :
  s.clear d = s
  := by
  by_cases hd : d = 0
  · rw [Bus.clear, if_pos hd] at h
    simp only at h
    split_ifs at h
    · exact absurd h (by decide)
    · omega
  · exact if_neg hd

theorem lookAt_spec {slot : ℕ} (hslot : slot < nslots) (irqs d : ℕ) :
  Effect s (.scan slot irqs d) a (lookAt s slot irqs d).1 (lookAt s slot irqs d).2
    ∧ ((Pc.scan slot irqs d).Sound → (lookAt s slot irqs d).2.Sound)
  := by
  rw [lookAt]
  split_ifs
  · exact ⟨.pass rfl, fun h => ⟨Nat.le_succ_of_le h.1, hslot⟩⟩
  · exact ⟨.dud rfl, fun h => ⟨Nat.succ_le_succ h.1, hslot⟩⟩
  · exact ⟨.dud rfl, fun h => ⟨Nat.succ_le_succ h.1, hslot⟩⟩
  · exact ⟨.pass rfl, fun h => ⟨h.1, hslot⟩⟩

theorem finishAt_spec (slot irqs d : ℕ) :
  Effect s (.scan slot irqs d) a (finishAt s slot irqs d).1 (finishAt s slot irqs d).2
    ∧ ((Pc.scan slot irqs d).Sound → (finishAt s slot irqs d).2.Sound)
  := by
  rw [finishAt]
  split_ifs with hcount
  · have hclear := clear_of_duds hcount
    rw [hclear] at hcount ⊢
    exact ⟨.panic hcount, id⟩
  · exact ⟨.finish (Int.not_lt.mp hcount), fun _ => trivial⟩

/-- Every step has one of the effects. -/
theorem act_spec (h : act s l a = some (s', l')) :
  Effect s l a s' l' ∧ (l.Sound → l'.Sound)
  := by
  cases l with
  | idle =>
    cases a with
    | call irqs =>
      simp only [act] at h
      split_ifs at h with hzero
      · obtain ⟨rfl, rfl⟩ := Prod.mk.inj (Option.some.inj h)
        exact ⟨.stray (by rw [hzero]) rfl, id⟩
      · obtain ⟨rfl, rfl⟩ := Prod.mk.inj (Option.some.inj h)
        exact ⟨.pass rfl, fun _ => ⟨Nat.le_refl 0, Nat.zero_le _⟩⟩
    | look | handled | finish => cases h
  | scan slot irqs d =>
    cases a with
    | call irqs => cases h
    | look =>
      simp only [act] at h
      split_ifs at h with hslot
      have hspec := lookAt_spec (s := s) (a := .look) hslot irqs d
      rwa [Option.some.inj h] at hspec
    | handled irqs => cases h
    | finish =>
      simp only [act] at h
      split_ifs at h
      have hspec := finishAt_spec (s := s) (a := .finish) slot irqs d
      rwa [Option.some.inj h] at hspec
  | handler slot d =>
    cases a with
    | call | look => cases h
    | handled irqs =>
      simp only [act] at h
      obtain ⟨rfl, rfl⟩ := Prod.mk.inj (Option.some.inj h)
      exact ⟨.pass rfl, fun h => ⟨Nat.le_succ_of_le h.1, h.2⟩⟩
    | finish => cases h

/-! ### Runs -/

section Runs

variable {c c' : Interleaved Tid Bus Pc}

/-- The duds that the calls in progress have seen. -/
def pending (pc : Tid → Pc) : ℕ := ∑ t, (pc t).seen

/-- One thread moves on. -/
theorem pending_update (pc : Tid → Pc) (t : Tid) (l : Pc) :
  pending (Function.update pc t l) + (pc t).seen = pending pc + l.seen
  := by
  have hupdate : ∀ u, (Function.update pc t l u).seen
      = Function.update (fun u => (pc u).seen) t l.seen u := by
    intro u
    exact Function.apply_update (fun _ => Pc.seen) pc t l u
  unfold pending
  simp only [hupdate]
  rw [Finset.sum_update_of_mem (Finset.mem_univ t), Finset.sdiff_singleton_eq_erase,
    ← Finset.add_sum_erase Finset.univ (fun u => (pc u).seen) (Finset.mem_univ t)]
  omega

theorem sum_le_mul {n k : ℕ} {f : Fin n → ℕ} (h : ∀ t, f t ≤ k) :
  ∑ t, f t ≤ n * k
  := by
  have hsum := Finset.sum_le_card_nsmul Finset.univ f k fun t _ => h t
  rwa [Finset.card_univ, Fintype.card_fin, smul_eq_mul] at hsum

theorem pending_le {pc : Tid → Pc} (h : ∀ t, (pc t).Sound) :
  pending pc ≤ maxThreads * nslots
  := sum_le_mul fun t => (h t).seen_le

/-- The count is right, and no call has returned with too high a count. -/
structure Counted (c : Interleaved Tid Bus Pc) : Prop where
  sound : ∀ t, (c.pc t).Sound
  duds : c.shared.duds = c.shared.consecutive
  bound : c.shared.consecutive ≤ maxDuds + pending c.pc
  returned : ∀ k ∈ c.shared.returned, k ≤ maxDuds

theorem counted_init :
  Counted init
  := by
  constructor
  · intro t
    trivial
  · rfl
  · exact Nat.zero_le _
  · intro k hk
    cases hk

/-- The count does not overflow. -/
theorem Counted.dud (h : Counted c) :
  c.shared.dud.duds = c.shared.dud.consecutive
  := by
  have hbound := h.bound
  have hpending := pending_le h.sound
  have hduds := h.duds
  simp only [maxDuds, nslots, maxThreads] at hbound hpending
  simp only [Bus.dud]
  rw [hduds, i32_of_mem (by omega) (by omega)]
  rfl

theorem Counted.clear (h : Counted c) (d : ℕ) :
  (c.shared.clear d).duds = (c.shared.clear d).consecutive
  := by
  rw [Bus.clear]
  split
  · have hduds := h.duds
    simp only
    split
    · rfl
    · omega
  · exact h.duds

/-- A step of a thread keeps the count right. -/
theorem Counted.own {t : Tid} {s : Bus} {l : Pc} {a : Act} (h : Counted c)
    (hallow : roomForStray c.shared a) (hact : act c.shared (c.pc t) a = some (s, l)) :
  Counted ⟨s, Function.update c.pc t l⟩
  := by
  obtain ⟨heffect, hsound⟩ := act_spec hact
  have hsum := pending_update c.pc t l
  have hbound := h.bound
  have hsound' : ∀ u, (Function.update c.pc t l u).Sound := by
    intro u
    rw [Function.update_apply]
    split_ifs
    · exact hsound (h.sound t)
    · exact h.sound u
  cases heffect with
  | pass | panic => exact ⟨hsound', h.duds, by dsimp only; omega, h.returned⟩
  | dud hseen =>
    refine ⟨hsound', h.dud, ?_, h.returned⟩
    simp only [Bus.dud]
    omega
  | stray hcall hidle =>
    have hroom := hallow hcall
    have hduds := h.duds
    have hfew : c.shared.consecutive + 1 ≤ maxDuds := by omega
    refine ⟨hsound', h.dud, ?_, ?_⟩
    · exact Nat.le_trans hfew (Nat.le_add_right _ _)
    · intro k hk
      rcases List.mem_cons.mp hk with rfl | hk
      · exact hfew
      · exact h.returned k hk
  | finish hfew =>
    have hduds := h.clear (c.pc t).seen
    have hfew' : (c.shared.clear (c.pc t).seen).consecutive ≤ maxDuds := by omega
    refine ⟨hsound', hduds, ?_, ?_⟩
    · exact Nat.le_trans hfew' (Nat.le_add_right _ _)
    · intro k hk
      rcases List.mem_cons.mp hk with rfl | hk
      · exact hfew'
      · apply h.returned k
        rw [Bus.clear] at hk
        split at hk
        · exact hk
        · exact hk

theorem Counted.step (h : Counted c) (hstep : (moves roomForStray).Step c c') :
  Counted c'
  := by
  cases hstep with
  | own t hown =>
    obtain ⟨-, a, hallow, hact⟩ := hown
    exact h.own hallow hact
  | env henv =>
    obtain ⟨slotsinuse, irqfuncs, rfl⟩ := henv
    exact { h with }

theorem Counted.reaches (hrun : (moves roomForStray).Reaches init c) :
  Counted c
  := by
  induction hrun with
  | refl => exact counted_init
  | tail _ hstep ih => exact ih.step hstep

/-- The bus after a number of stray interrupts, and nothing else. -/
def strays : ℕ → Bus
  | 0 => init.shared
  | k + 1 => (strays k).dud.returns

theorem strays_eq (k : ℕ) :
  (strays k).panicked = false ∧ (strays k).consecutive = k
  := by
  induction k with
  | zero => exact ⟨rfl, rfl⟩
  | succ k ih => exact ⟨ih.1, congrArg (· + 1) ih.2⟩

theorem duds_strays {k : ℕ} (hk : k < 2 ^ 31) :
  (strays k).duds = k
  := by
  induction k with
  | zero => rfl
  | succ k ih =>
    show i32 ((strays k).duds + 1) = _
    rw [ih (by omega), i32_of_mem (by omega) (by omega)]
    rfl

theorem mem_returned_strays (k : ℕ) :
  k + 1 ∈ (strays (k + 1)).returned
  := by
  have hlast : (strays k).consecutive + 1 ∈ (strays (k + 1)).returned := List.mem_cons_self
  rwa [(strays_eq k).2] at hlast

theorem reaches_strays {allow : Condition} {k : ℕ} (h : ∀ j < k, allow (strays j) (.call 0)) :
  (moves allow).Reaches init ⟨strays k, init.pc⟩
  := by
  induction k with
  | zero => exact .refl
  | succ k ih =>
    have hrun := ih fun j hj => h j (Nat.lt_succ_of_lt hj)
    have hown : (moves allow).own ⟨0, by decide⟩ (strays k) (init.pc ⟨0, by decide⟩)
        (strays (k + 1)) (init.pc ⟨0, by decide⟩) :=
      ⟨(strays_eq k).1, .call 0, h k (Nat.lt_succ_self k), rfl⟩
    have hstep := hrun.move _ hown
    rwa [Function.update_eq_self] at hstep

/-- When no stray interrupt comes at the limit, no call returns after more than 10000 dud
interrupts in a row; the variable is their number, it is 10000 at most when no call is in progress,
and an interrupt with duds that finds more is a panic. -/
theorem returned_le (hrun : (moves roomForStray).Reaches init c) :
  (∀ k ∈ c.shared.returned, k ≤ maxDuds)
    ∧ c.shared.duds = c.shared.consecutive
    ∧ ((∀ t, c.pc t = .idle) → c.shared.consecutive ≤ maxDuds)
    ∧ ∀ t irqs dudsThisTime, c.pc t = .scan nslots irqs dudsThisTime → 0 < dudsThisTime →
      maxDuds < c.shared.consecutive →
      act c.shared (c.pc t) .finish = some ({ c.shared with panicked := true }, c.pc t)
  := by
  have hcounted := Counted.reaches hrun
  have hduds := hcounted.duds
  refine ⟨hcounted.returned, hduds, ?_, ?_⟩
  · intro hidle
    have hzero : pending c.pc = 0 := by
      apply Finset.sum_eq_zero
      intro t _
      rw [hidle t]
      rfl
    have hbound := hcounted.bound
    omega
  · intro t irqs d hpc hd hmany
    have hclear : c.shared.clear d = c.shared := if_neg hd.ne'
    rw [hpc]
    simp only [act, finishAt, hclear, Nat.lt_irrefl, if_false]
    rw [if_pos (by omega)]

/-- As many stray interrupts as there is room for. -/
theorem returned_le_strays :
  (moves roomForStray).Reaches init ⟨strays 10000, init.pc⟩
    ∧ (strays 10000).duds = (strays 10000).consecutive
  := by
  have hrun : (moves roomForStray).Reaches init ⟨strays 10000, init.pc⟩ := by
    apply reaches_strays
    intro j hj _
    rw [duds_strays (by omega)]
    simp only [maxDuds]
    omega
  exact ⟨hrun, (returned_le hrun).2.1⟩

/-- A stray interrupt more, and the call returns all the same. -/
theorem stray_returns_above :
  (moves always).Reaches init ⟨strays 10001, init.pc⟩ ∧ 10001 ∈ (strays 10001).returned
  := by
  constructor
  · exact reaches_strays fun _ _ => trivial
  · exact mem_returned_strays 10000

end Runs

end Lamebus
