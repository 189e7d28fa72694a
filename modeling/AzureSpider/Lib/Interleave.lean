import Mathlib.Logic.Function.Basic
import Mathlib.Logic.Relation

/-!
# Threads that take turns

A system of threads has a state `σ` that they share, and for every thread of `ι` a place in its
code, of the type `κ`, which comes with the variables of its own.  A step of the system is a
step of one thread, or one of its surroundings, such as an interrupt; in between, every thread
may be at any place.

What holds of the shared state, and what each thread relies on at its place, holds in every
state that a run reaches, when each step keeps it for the thread that makes it and for all
others (`Keeps.reaches`).
-/

variable {ι σ κ : Type}

/-- What the threads share, and where each of them is. -/
structure Interleaved (ι σ κ : Type) where
  shared : σ
  pc : ι → κ

/-- The steps of the threads, and those of their surroundings. -/
structure Moves (ι σ κ : Type) where
  own : ι → σ → κ → σ → κ → Prop
  env : Interleaved ι σ κ → σ → Prop

namespace Moves

variable [DecidableEq ι] {m : Moves ι σ κ}

/-- One step of the system. -/
inductive Step (m : Moves ι σ κ) (c : Interleaved ι σ κ) : Interleaved ι σ κ → Prop
  | own (t : ι) {s : σ} {l : κ} (h : m.own t c.shared (c.pc t) s l) :
      Step m c ⟨s, Function.update c.pc t l⟩
  | env {s : σ} (h : m.env c s) : Step m c ⟨s, c.pc⟩

/-- The states that a run reaches. -/
abbrev Reaches (m : Moves ι σ κ) : Interleaved ι σ κ → Interleaved ι σ κ → Prop :=
  Relation.ReflTransGen m.Step

/-- `G` holds of the shared state, and `L` is what each thread relies on. -/
structure Holds (G : σ → Prop) (L : ι → σ → κ → Prop) (c : Interleaved ι σ κ) : Prop where
  shared : G c.shared
  local' : ∀ t, L t c.shared (c.pc t)

/-- Every step keeps what holds of the shared state and what the threads rely on. -/
structure Keeps (m : Moves ι σ κ) (G : σ → Prop) (L : ι → σ → κ → Prop) : Prop where
  own : ∀ {c : Interleaved ι σ κ} {t : ι} {s : σ} {l : κ}, Holds G L c →
    m.own t c.shared (c.pc t) s l → G s ∧ L t s l ∧ ∀ u, u ≠ t → L u s (c.pc u)
  env : ∀ {c : Interleaved ι σ κ} {s : σ}, Holds G L c → m.env c s →
    G s ∧ ∀ u, L u s (c.pc u)

variable {G : σ → Prop} {L : ι → σ → κ → Prop} {c c' : Interleaved ι σ κ}

theorem Keeps.step (h : m.Keeps G L) (hc : Holds G L c) (hstep : m.Step c c') :
  Holds G L c'
  := by
  cases hstep with
  | own t hown =>
    obtain ⟨hshared, hself, hother⟩ := h.own hc hown
    use hshared
    intro u
    by_cases hu : u = t
    · subst hu
      simpa using hself
    · simpa [Function.update_of_ne hu] using hother u hu
  | env henv => exact ⟨(h.env hc henv).1, (h.env hc henv).2⟩

/-- Along every run. -/
theorem Keeps.reaches (h : m.Keeps G L) (hc : Holds G L c) (hrun : m.Reaches c c') :
  Holds G L c'
  := by
  induction hrun with
  | refl => exact hc
  | tail _ hstep ih => exact h.step ih hstep

/-- A step of one thread, at the end of a run. -/
theorem Reaches.move {s : σ} {pc : ι → κ} (h : m.Reaches c ⟨s, pc⟩) (t : ι) {s' : σ} {l : κ}
    (hown : m.own t s (pc t) s' l) :
  m.Reaches c ⟨s', Function.update pc t l⟩
  := h.tail (.own t hown)

/-- A step of the surroundings, at the end of a run. -/
theorem Reaches.happen {s : σ} {pc : ι → κ} (h : m.Reaches c ⟨s, pc⟩) {s' : σ}
    (henv : m.env ⟨s, pc⟩ s') :
  m.Reaches c ⟨s', pc⟩
  := h.tail (.env henv)

end Moves
