import Mathlib.Tactic.Common

/-!
# Routines that fail and panic

`Routine ε π σ α` is the type of routines on a state `σ` that return a value of `α`, or an
error of `ε`, or panic for a reason of `π`.  A routine that returns an error keeps the
changes it made to the state; after a panic there is no state.

`wp m s Q E` states that `m`, started in `s`, does not panic, that a value and a state it
returns satisfy `Q`, and that an error and a state it returns satisfy `E`.
-/

/-- What a routine ends with. -/
inductive Outcome (ε π σ α : Type) where
  | ok (a : α) (s : σ)
  | err (e : ε) (s : σ)
  | panic (p : π)

namespace Outcome

variable {ε π σ α : Type}

/-- Whether what is returned passes a test. -/
def test (good : α → σ → Bool) (bad : ε → σ → Bool) : Outcome ε π σ α → Bool
  | ok a s => good a s
  | err e s => bad e s
  | panic _ => false

variable {o : Outcome ε π σ α}

/-! How a routine ends can be tested. -/

instance {P : α → σ → Prop} [∀ a, DecidablePred (P a)] : Decidable (∃ a s, o = .ok a s ∧ P a s) :=
  decidable_of_iff (o.test (fun a s => P a s) (fun _ _ => false) = true) (by
    cases o <;> simp [test])

instance {a : α} {P : σ → Prop} [DecidableEq α] [DecidablePred P] :
    Decidable (∃ s, o = .ok a s ∧ P s) :=
  decidable_of_iff (o.test (fun a' s => a' = a ∧ P s) (fun _ _ => false) = true) (by
    cases o <;> simp [test])

instance {e : ε} {P : σ → Prop} [DecidableEq ε] [DecidablePred P] :
    Decidable (∃ s, o = .err e s ∧ P s) :=
  decidable_of_iff (o.test (fun _ _ => false) (fun e' s => e' = e ∧ P s) = true) (by
    cases o <;> simp [test])

instance {a : α} [DecidableEq α] : Decidable (∃ s, o = .ok a s) :=
  decidable_of_iff (∃ s, o = .ok a s ∧ True) (by simp)

instance {e : ε} [DecidableEq ε] : Decidable (∃ s, o = .err e s) :=
  decidable_of_iff (∃ s, o = .err e s ∧ True) (by simp)

/-- The reason of a panic. -/
def reason : Outcome ε π σ α → Option π
  | ok _ _ => none
  | err _ _ => none
  | panic p => some p

theorem reason_eq_some {p : π} :
  o.reason = some p ↔ o = .panic p
  := by
  cases o <;> simp [reason]

instance {p : π} [DecidableEq π] : Decidable (o = .panic p) := decidable_of_iff _ reason_eq_some

end Outcome

/-- A routine on the state `σ`. -/
def Routine (ε π σ α : Type) : Type := σ → Outcome ε π σ α

namespace Routine

variable {ε π σ α β : Type}

/-- The routine that returns a value. -/
def return' (a : α) : Routine ε π σ α := fun s => .ok a s

/-- One routine after another. -/
def andThen (m : Routine ε π σ α) (f : α → Routine ε π σ β) : Routine ε π σ β :=
  fun s =>
    match m s with
    | .ok a s' => f a s'
    | .err e s' => .err e s'
    | .panic p => .panic p

instance : Monad (Routine ε π σ) where
  pure := return'
  bind := andThen

/-- The state. -/
def get : Routine ε π σ σ := fun s => .ok s s

/-- Change the state. -/
def modify (f : σ → σ) : Routine ε π σ Unit := fun s => .ok () (f s)

/-- Return an error. -/
def fail (e : ε) : Routine ε π σ α := fun s => .err e s

/-- Panic. -/
def panic (p : π) : Routine ε π σ α := fun _ => .panic p

/-- Panic unless a condition holds. -/
def assert (c : Prop) [Decidable c] (p : π) : Routine ε π σ Unit :=
  if c then return' () else panic p

/-- Run a routine and hand back its value or its error. -/
def attempt (m : Routine ε π σ α) : Routine ε π σ (Except ε α) :=
  fun s =>
    match m s with
    | .ok a s' => .ok (.ok a) s'
    | .err e s' => .ok (.error e) s'
    | .panic p => .panic p

/-- The body for the indices `i`, `i + 1`, …, `i + n - 1` in turn, each with the value the
one before it returned. -/
def loop : (n i : ℕ) → (ℕ → β → Routine ε π σ β) → β → Routine ε π σ β
  | 0, _, _, b => return' b
  | n + 1, i, body, b => andThen (body i b) (loop n (i + 1) body)

/-- A routine on a part of the state. -/
def zoom {τ : Type} (part : σ → τ) (put : τ → σ → σ) (m : Routine ε π τ α) : Routine ε π σ α :=
  fun s =>
    match m (part s) with
    | .ok a t => .ok a (put t s)
    | .err e t => .err e (put t s)
    | .panic p => .panic p

/-- A routine on a part of the state that has panics of its own. -/
def embed {π' τ : Type} (part : σ → τ) (put : τ → σ → σ) (reason : π' → π)
    (m : Routine ε π' τ α) : Routine ε π σ α :=
  fun s =>
    match m (part s) with
    | .ok a t => .ok a (put t s)
    | .err e t => .err e (put t s)
    | .panic p => .panic (reason p)

/-- A routine on the first of two states. -/
def onFst {τ : Type} (m : Routine ε π σ α) : Routine ε π (σ × τ) α :=
  zoom Prod.fst (fun s st => (s, st.2)) m

/-- A routine on the second of two states. -/
def onSnd {τ : Type} (m : Routine ε π τ α) : Routine ε π (σ × τ) α :=
  zoom Prod.snd (fun t st => (st.1, t)) m

/-- A routine with a second state of its own, which it is handed and hands back. -/
def withState {τ : Type} (t : τ) (m : Routine ε π (σ × τ) α) : Routine ε π σ (Except ε α × τ) :=
  fun s =>
    match m (s, t) with
    | .ok a s' => .ok (.ok a, s'.2) s'.1
    | .err e s' => .ok (.error e, s'.2) s'.1
    | .panic p => .panic p

/-- `m` does not panic from `s`; its values satisfy `Q` and its errors `E`.  Without `E` it does not
fail. -/
def wp (m : Routine ε π σ α) (s : σ) (Q : α → σ → Prop) (E : ε → σ → Prop := fun _ _ => False) :
    Prop :=
  match m s with
  | .ok a s' => Q a s'
  | .err e s' => E e s'
  | .panic _ => False

/-- `m` panics from `s` only for a reason in `P`; its values satisfy `Q` and its errors `E`. -/
def wlp (P : π → Prop) (m : Routine ε π σ α) (s : σ) (Q : α → σ → Prop)
    (E : ε → σ → Prop := fun _ _ => False) : Prop :=
  match m s with
  | .ok a s' => Q a s'
  | .err e s' => E e s'
  | .panic p => P p

/-! ### Rules -/

variable {m : Routine ε π σ α} {s : σ} {Q : α → σ → Prop} {E : ε → σ → Prop} {P : π → Prop}

/-- A routine does not panic when there is no reason to. -/
theorem wp_iff_wlp :
  wp m s Q E ↔ wlp (fun _ => False) m s Q E
  := by
  unfold wp wlp
  cases m s with
  | ok | err | panic => rfl

@[simp]
theorem wp_pure (a : α) :
  wp (pure a : Routine ε π σ α) s Q E ↔ Q a s
  := Iff.rfl

theorem wlp_bind (f : α → Routine ε π σ β) {Q : β → σ → Prop} :
  wlp P (m >>= f) s Q E ↔ wlp P m s (fun a s' => wlp P (f a) s' Q E) E
  := by
  simp only [wlp, bind, andThen]
  cases m s with
  | ok | err | panic => rfl

@[simp]
theorem wp_bind (f : α → Routine ε π σ β) {Q : β → σ → Prop} :
  wp (m >>= f) s Q E ↔ wp m s (fun a s' => wp (f a) s' Q E) E
  := by
  simp only [wp_iff_wlp, wlp_bind]

@[simp]
theorem wp_get {Q : σ → σ → Prop} :
  wp (get : Routine ε π σ σ) s Q E ↔ Q s s
  := Iff.rfl

@[simp]
theorem wp_modify (f : σ → σ) {Q : Unit → σ → Prop} :
  wp (modify f : Routine ε π σ Unit) s Q E ↔ Q () (f s)
  := Iff.rfl

@[simp]
theorem wp_fail (e : ε) :
  wp (fail e : Routine ε π σ α) s Q E ↔ E e s
  := Iff.rfl

@[simp]
theorem wp_assert (c : Prop) [Decidable c] (p : π) {Q : Unit → σ → Prop} :
  wp (assert c p : Routine ε π σ Unit) s Q E ↔ c ∧ Q () s
  := by
  by_cases hc : c
  · simp [wp, assert, hc, return']
  · simp [wp, assert, hc, panic]

theorem wlp_attempt {Q : Except ε α → σ → Prop} :
  wlp P (attempt m) s Q E ↔ wlp P m s (fun a => Q (.ok a)) (fun e => Q (.error e))
  := by
  simp only [wlp, attempt]
  cases m s with
  | ok | err | panic => rfl

@[simp]
theorem wp_attempt {Q : Except ε α → σ → Prop} :
  wp (attempt m) s Q E ↔ wp m s (fun a => Q (.ok a)) (fun e => Q (.error e))
  := by
  simp only [wp_iff_wlp, wlp_attempt]

variable {τ : Type}

theorem wlp_zoom {m : Routine ε π τ α} (part : σ → τ) (put : τ → σ → σ) :
  wlp P (zoom part put m) s Q E
    ↔ wlp P m (part s) (fun a t => Q a (put t s)) (fun e t => E e (put t s))
  := by
  simp only [wlp, zoom]
  cases m (part s) with
  | ok | err | panic => rfl

@[simp]
theorem wp_zoom {m : Routine ε π τ α} (part : σ → τ) (put : τ → σ → σ) :
  wp (zoom part put m) s Q E
    ↔ wp m (part s) (fun a t => Q a (put t s)) (fun e t => E e (put t s))
  := by
  simp only [wp_iff_wlp, wlp_zoom]

@[simp]
theorem wp_onFst {s : σ × τ} {Q : α → σ × τ → Prop} {E : ε → σ × τ → Prop} :
  wp (onFst m) s Q E
    ↔ wp m s.1 (fun a s' => Q a (s', s.2)) (fun e s' => E e (s', s.2))
  := wp_zoom _ _

@[simp]
theorem wp_onSnd {m : Routine ε π τ α} {s : σ × τ} {Q : α → σ × τ → Prop} {E : ε → σ × τ → Prop} :
  wp (onSnd m) s Q E
    ↔ wp m s.2 (fun a t => Q a (s.1, t)) (fun e t => E e (s.1, t))
  := wp_zoom _ _

theorem wlp_withState {t : τ} {m : Routine ε π (σ × τ) α} {Q : Except ε α × τ → σ → Prop} :
  wlp P (withState t m) s Q E
    ↔ wlp P m (s, t) (fun a s' => Q (.ok a, s'.2) s'.1) (fun e s' => Q (.error e, s'.2) s'.1)
  := by
  simp only [wlp, withState]
  cases m (s, t) with
  | ok | err | panic => rfl

@[simp]
theorem wp_withState {t : τ} {m : Routine ε π (σ × τ) α} {Q : Except ε α × τ → σ → Prop} :
  wp (withState t m) s Q E
    ↔ wp m (s, t) (fun a s' => Q (.ok a, s'.2) s'.1) (fun e s' => Q (.error e, s'.2) s'.1)
  := by
  simp only [wp_iff_wlp, wlp_withState]

variable {m' : Routine ε π σ α}

theorem wlp_ite {c : Prop} [Decidable c] :
  wlp P (if c then m else m') s Q E ↔ (c → wlp P m s Q E) ∧ (¬ c → wlp P m' s Q E)
  := by
  by_cases hc : c
  · simp [hc]
  · simp [hc]

theorem wp_ite {c : Prop} [Decidable c] :
  wp (if c then m else m') s Q E ↔ (c → wp m s Q E) ∧ (¬ c → wp m' s Q E)
  := by
  simp only [wp_iff_wlp, wlp_ite]

variable {Q' : α → σ → Prop} {E' : ε → σ → Prop}

/-- The postconditions may be weakened, and more panics admitted. -/
theorem wlp_weaken {P' : π → Prop} (h : wlp P m s Q E) (hP : ∀ p, P p → P' p)
    (hQ : ∀ a s', Q a s' → Q' a s') (hE : ∀ e s', E e s' → E' e s') :
  wlp P' m s Q' E'
  := by
  unfold wlp at h ⊢
  cases hm : m s with
  | ok a s' =>
    rw [hm] at h
    apply hQ a s' h
  | err e s' =>
    rw [hm] at h
    apply hE e s' h
  | panic p =>
    rw [hm] at h
    apply hP p h

/-- The postconditions may be weakened. -/
theorem wp_mono (h : wp m s Q E) (hQ : ∀ a s', Q a s' → Q' a s') (hE : ∀ e s', E e s' → E' e s') :
  wp m s Q' E'
  := by
  rw [wp_iff_wlp] at h ⊢
  exact wlp_weaken h (fun _ hp => hp) hQ hE

/-- The postcondition of the values may be weakened. -/
theorem wp_imp (h : wp m s Q E) (hQ : ∀ a s', Q a s' → Q' a s') :
  wp m s Q' E
  := wp_mono h hQ (fun _ _ he => he)

/-- A run whose specification admits no error needs no postcondition for errors. -/
theorem wp_sure (h : wp m s Q) (hQ : ∀ a s', Q a s' → Q' a s') :
  wp m s Q' E'
  := wp_mono h hQ (fun _ _ he => he.elim)

variable {s' : σ} {a : α}

/-- A specification speaks about the value a run is known to return. -/
theorem wp_ok (h : wp m s Q E) (hm : m s = .ok a s') :
  Q a s'
  := by
  simpa [wp, hm] using h

/-- A run that is known to return meets what its value and state satisfy. -/
theorem wp_of_ok (hm : m s = .ok a s') (h : Q a s') :
  wp m s Q E
  := by
  simpa [wp, hm] using h

variable {e : ε}

/-- A specification speaks about the error a run is known to return. -/
theorem wp_err (h : wp m s Q E) (hm : m s = .err e s') :
  E e s'
  := by
  simpa [wp, hm] using h

/-- A run that is known to fail meets what its error and state satisfy. -/
theorem wp_of_err (hm : m s = .err e s') (h : E e s') :
  wp m s Q E
  := by
  simpa [wp, hm] using h

/-- A run with a specification returns a value or an error. -/
theorem wp_cases (h : wp m s Q E) :
  (∃ a s', m s = .ok a s' ∧ Q a s') ∨ ∃ e s', m s = .err e s' ∧ E e s'
  := by
  unfold wp at h
  cases hm : m s with
  | ok a s' =>
    rw [hm] at h
    exact .inl ⟨a, s', rfl, h⟩
  | err e s' =>
    rw [hm] at h
    exact .inr ⟨e, s', rfl, h⟩
  | panic p =>
    rw [hm] at h
    cases h

/-- Two specifications of one run hold together. -/
theorem wp_and (h : wp m s Q E) (h' : wp m s Q' E') :
  wp m s (fun a s' => Q a s' ∧ Q' a s') (fun e s' => E e s' ∧ E' e s')
  := by
  rcases wp_cases h with ⟨a, s', hm, hQ⟩ | ⟨e, s', hm, hE⟩
  · exact wp_of_ok hm ⟨hQ, wp_ok h' hm⟩
  · exact wp_of_err hm ⟨hE, wp_err h' hm⟩

/-- A routine that does the same from a state has the same specification there. -/
theorem wp_of_eq (hm : m s = m' s') (h : wp m' s' Q E) :
  wp m s Q E
  := by
  unfold wp at h ⊢
  rwa [hm]

/-- A run whose errors are excluded returns a value. -/
theorem exists_ok_of (h : wp m s Q E) (hno : ∀ e s', ¬ E e s') :
  ∃ a s', m s = .ok a s' ∧ Q a s'
  := by
  rcases wp_cases h with hok | ⟨e, s', -, hE⟩
  · exact hok
  · exact absurd hE (hno e s')

/-- A run whose specification admits no error returns a value. -/
theorem exists_ok (h : wp m s Q) :
  ∃ a s', m s = .ok a s' ∧ Q a s'
  := exists_ok_of h fun _ _ hfalse => hfalse

/-- A run whose specification admits no value returns an error. -/
theorem exists_err (h : wp m s (fun _ _ => False) E) :
  ∃ e s', m s = .err e s' ∧ E e s'
  := by
  rcases wp_cases h with ⟨a, s', -, hfalse⟩ | herr
  · exact hfalse.elim
  · exact herr

variable {p : π}

/-- A routine with a specification does not panic. -/
theorem wp_not_panic (h : wp m s Q E) :
  m s ≠ .panic p
  := by
  intro hm
  simp [wp, hm] at h

@[simp]
theorem get_bind (f : σ → Routine ε π σ β) :
  (get >>= f) s = f s s
  := rfl

@[simp]
theorem modify_bind (g : σ → σ) (f : Unit → Routine ε π σ β) :
  (modify g >>= f) s = f () (g s)
  := rfl

theorem assert_bind {c : Prop} [Decidable c] (hc : c) (p : π) (f : Unit → Routine ε π σ β) :
  (assert c p >>= f) s = f () s
  := by
  rw [assert, if_pos hc]
  rfl

variable {f : α → Routine ε π σ β}

/-- A sequence goes on where its first routine has led. -/
theorem bind_ok (h : m s = .ok a s') :
  (m >>= f) s = f a s'
  := by
  simp only [bind, andThen, h]

/-- An error of the first routine is the error of the sequence. -/
theorem bind_err (h : m s = .err e s') :
  (m >>= f) s = .err e s'
  := by
  simp only [bind, andThen, h]

/-- What follows a routine only matters where the routine leads. -/
theorem bind_congr {f g : α → Routine ε π σ β} (hfirst : m s = m' s)
    (h : ∀ a s', m s = .ok a s' → f a s' = g a s') :
  (m >>= f) s = (m' >>= g) s
  := by
  simp only [bind, andThen, ← hfirst]
  cases hm : m s with
  | ok a s' => exact h a s' hm
  | err | panic => rfl

theorem attempt_congr (h : m s = m' s) :
  attempt m s = attempt m' s
  := by
  rw [attempt, attempt, h]

variable {b : β}

/-- A sequence returns a value when its first routine does, and the rest after it. -/
theorem bind_eq_ok {s'' : σ} :
  (m >>= f) s = .ok b s'' ↔ ∃ a s', m s = .ok a s' ∧ f a s' = .ok b s''
  := by
  simp only [bind, andThen]
  cases m s with
  | ok | err | panic => simp

@[simp]
theorem pure_eq_ok {a b : α} :
  (pure a : Routine ε π σ α) s = .ok b s' ↔ a = b ∧ s = s'
  := by
  simp [pure, return']

@[simp]
theorem get_eq_ok {t s' : σ} :
  (get : Routine ε π σ σ) s = .ok t s' ↔ s = t ∧ s = s'
  := by
  simp [get]

@[simp]
theorem modify_eq_ok {f : σ → σ} {u : Unit} :
  (modify f : Routine ε π σ Unit) s = .ok u s' ↔ f s = s'
  := by
  simp [modify]

@[simp]
theorem fail_eq_ok :
  (fail e : Routine ε π σ α) s = .ok a s' ↔ False
  := by
  simp [fail]

@[simp]
theorem panic_eq_ok :
  (panic p : Routine ε π σ α) s = .ok a s' ↔ False
  := by
  simp [panic]

@[simp]
theorem assert_eq_ok {c : Prop} [Decidable c] {u : Unit} :
  (assert c p : Routine ε π σ Unit) s = .ok u s' ↔ c ∧ s = s'
  := by
  by_cases hc : c
  · simp [assert, hc, return']
  · simp [assert, hc, panic]

theorem zoom_eq_ok {m : Routine ε π τ α} {part : σ → τ} {put : τ → σ → σ} :
  zoom part put m s = .ok a s' ↔ ∃ t, m (part s) = .ok a t ∧ put t s = s'
  := by
  simp only [zoom]
  cases m (part s) with
  | ok | err | panic => simp

/-- An attempt hands back the value, or the error. -/
theorem attempt_eq_ok {r : Except ε α} :
  attempt m s = .ok r s'
    ↔ (∃ a, m s = .ok a s' ∧ r = .ok a) ∨ (∃ e, m s = .err e s' ∧ r = .error e)
  := by
  simp only [attempt]
  cases m s with
  | ok | err => simp [eq_comm, and_comm]
  | panic p => simp

theorem withState_eq_ok {t : τ} {m : Routine ε π (σ × τ) α} {r : Except ε α × τ} :
  withState t m s = .ok r s'
    ↔ (∃ a t', m (s, t) = .ok a (s', t') ∧ r = (.ok a, t'))
      ∨ (∃ e t', m (s, t) = .err e (s', t') ∧ r = (.error e, t'))
  := by
  simp only [withState]
  cases m (s, t) with
  | ok a st =>
    obtain ⟨s₁, t₁⟩ := st
    simp [eq_comm, and_comm]
  | err e st =>
    obtain ⟨s₁, t₁⟩ := st
    simp [eq_comm, and_comm]
  | panic p => simp

/-! A panic of a part is a panic of the whole. -/

theorem bind_panic (h : m s = .panic p) :
  (m >>= f) s = .panic p
  := by
  simp only [bind, andThen, h]

theorem zoom_panic {m : Routine ε π τ α} {part : σ → τ} {put : τ → σ → σ}
    (h : m (part s) = .panic p) :
  zoom part put m s = .panic p
  := by
  simp only [zoom, h]

theorem withState_panic {t : τ} {m : Routine ε π (σ × τ) α} (h : m (s, t) = .panic p) :
  withState t m s = .panic p
  := by
  simp only [withState, h]

/-! ### Routines that may panic -/

theorem wlp_pure (a : α) :
  wlp P (pure a : Routine ε π σ α) s Q E ↔ Q a s
  := Iff.rfl

theorem wlp_get {Q : σ → σ → Prop} :
  wlp P (get : Routine ε π σ σ) s Q E ↔ Q s s
  := Iff.rfl

theorem wlp_modify (f : σ → σ) {Q : Unit → σ → Prop} :
  wlp P (modify f : Routine ε π σ Unit) s Q E ↔ Q () (f s)
  := Iff.rfl

theorem wlp_fail (e : ε) :
  wlp P (fail e : Routine ε π σ α) s Q E ↔ E e s
  := Iff.rfl

theorem wlp_panic (p : π) :
  wlp P (panic p : Routine ε π σ α) s Q E ↔ P p
  := Iff.rfl

theorem wlp_assert (c : Prop) [Decidable c] (p : π) {Q : Unit → σ → Prop} :
  wlp P (assert c p : Routine ε π σ Unit) s Q E ↔ (c → Q () s) ∧ (¬ c → P p)
  := by
  by_cases hc : c
  · simp [wlp, assert, hc, return']
  · simp [wlp, assert, hc, panic]

theorem wlp_mono (h : wlp P m s Q E) (hQ : ∀ a s', Q a s' → Q' a s')
    (hE : ∀ e s', E e s' → E' e s') :
  wlp P m s Q' E'
  := wlp_weaken h (fun _ hp => hp) hQ hE

theorem wlp_imp (h : wlp P m s Q E) (hQ : ∀ a s', Q a s' → Q' a s') :
  wlp P m s Q' E
  := wlp_mono h hQ fun _ _ he => he

/-- More panics are admitted. -/
theorem wlp_panics {P' : π → Prop} (hP : ∀ p, P p → P' p) (h : wlp P m s Q E) :
  wlp P' m s Q E
  := wlp_weaken h hP (fun _ _ hq => hq) (fun _ _ he => he)

/-- What a run returns is known besides what it satisfies. -/
theorem wlp_run (h : wlp P m s Q E) :
  wlp P m s (fun a s' => m s = .ok a s' ∧ Q a s') (fun e s' => m s = .err e s' ∧ E e s')
  := by
  unfold wlp at h ⊢
  cases hm : m s with
  | ok a s' =>
    rw [hm] at h
    exact ⟨rfl, h⟩
  | err e s' =>
    rw [hm] at h
    exact ⟨rfl, h⟩
  | panic p =>
    rw [hm] at h
    exact h

/-- Panics and errors apart, all that matters is what a run returns. -/
theorem wlp_returns (h : ∀ a s', m s = .ok a s' → Q a s') :
  wlp (fun _ => True) m s Q (fun _ _ => True)
  := by
  unfold wlp
  cases hm : m s with
  | ok a s' => exact h a s' hm
  | err | panic => trivial

theorem wlp_embed {π' τ : Type} {m : Routine ε π' τ α} {part : σ → τ} {put : τ → σ → σ}
    {reason : π' → π} :
  wlp P (embed part put reason m) s Q E
    ↔ wlp (fun p => P (reason p)) m (part s) (fun a t => Q a (put t s))
        (fun e t => E e (put t s))
  := by
  simp only [wlp, embed]
  cases m (part s) with
  | ok | err | panic => rfl

theorem wlp_of_eq (hm : m s = m' s') (h : wlp P m' s' Q E) :
  wlp P m s Q E
  := by
  unfold wlp at h ⊢
  rwa [hm]

theorem wlp_of_err (hm : m s = .err e s') (h : E e s') :
  wlp P m s Q E
  := by
  unfold wlp
  rwa [hm]

theorem wlp_of_panic (hm : m s = .panic p) (h : P p) :
  wlp P m s Q E
  := by
  unfold wlp
  rwa [hm]

/-- A routine that does not panic panics for no reason. -/
theorem wlp_of_wp (h : wp m s Q E) :
  wlp P m s Q E
  := wlp_panics (fun _ hfalse => hfalse.elim) (wp_iff_wlp.mp h)

theorem wlp_ok (h : wlp P m s Q E) (hm : m s = .ok a s') :
  Q a s'
  := by
  simpa [wlp, hm] using h

theorem wlp_err (h : wlp P m s Q E) (hm : m s = .err e s') :
  E e s'
  := by
  simpa [wlp, hm] using h

theorem wlp_reason (h : wlp P m s Q E) (hm : m s = .panic p) :
  P p
  := by
  simpa [wlp, hm] using h

/-- Every run of `m` that returns a value or an error relates its states by `R`. -/
def Respects (R : σ → σ → Prop) (m : Routine ε π σ α) : Prop :=
  ∀ s, (∀ a s', m s = .ok a s' → R s s') ∧ (∀ e s', m s = .err e s' → R s s')

namespace Respects

variable {R : σ → σ → Prop}

theorem of_ok (h : Respects R m) (hm : m s = .ok a s') :
  R s s'
  := (h s).1 a s' hm

/-- What all runs of a routine satisfy. -/
theorem of_wlp (h : ∀ s, wlp (fun _ => True) m s (fun _ s' => R s s') (fun _ s' => R s s')) :
  Respects R m
  := by
  intro s
  constructor
  · intro a s' hm
    apply wlp_ok (h s) hm
  · intro e s' hm
    apply wlp_err (h s) hm

theorem attempt (h : ∀ s, wlp (fun _ => True) m s (fun _ s' => R s s') (fun _ s' => R s s')) :
  Respects R (Routine.attempt m)
  := of_wlp fun s => wlp_attempt.mpr (h s)

end Respects

variable {body : ℕ → β → Routine ε π σ β}

theorem wp_loop_zero {i : ℕ} {Q : β → σ → Prop} :
  wp (loop 0 i body b) s Q E ↔ Q b s
  := Iff.rfl

theorem wp_loop_succ {n i : ℕ} {Q : β → σ → Prop} :
  wp (loop (n + 1) i body b) s Q E
    ↔ wp (body i b) s (fun b' s' => wp (loop n (i + 1) body b') s' Q E) E
  := wp_bind (loop n (i + 1) body)

theorem loop_succ (n i : ℕ) (body : ℕ → β → Routine ε π σ β) (b : β) :
  loop (n + 1) i body b = body i b >>= loop n (i + 1) body
  := rfl

theorem loop_one (i : ℕ) (body : ℕ → β → Routine ε π σ β) (b : β) :
  loop 1 i body b = body i b
  := by
  funext s
  simp only [loop, andThen]
  cases body i b s with
  | ok | err | panic => rfl

/-- The rule for loops whose rounds may panic. -/
theorem wlp_loop (Inv : ℕ → β → σ → Prop) :
    ∀ {n i : ℕ} {b : β} {s : σ}, Inv i b s →
      (∀ j b s, i ≤ j → j < i + n → Inv j b s → wlp P (body j b) s (Inv (j + 1)) E) →
      wlp P (loop n i body b) s (Inv (i + n)) E
  | 0, i, b, s, h, _ => (wlp_pure b).mpr h
  | n + 1, i, b, s, h, hbody => by
      rw [loop_succ, wlp_bind]
      apply wlp_imp (hbody i b s (Nat.le_refl i) (by omega) h)
      intro b' s' h'
      have hi : i + (n + 1) = i + 1 + n := by omega
      rw [hi]
      apply wlp_loop Inv h'
      intro j b s hj hj' hInv
      apply hbody j b s (by omega) (by omega) hInv

theorem wlp_loop_run {n : ℕ} (Inv : ℕ → β → σ → Prop) (hinit : Inv 0 b s)
    (hbody : ∀ j b s, j < n → Inv j b s → wlp P (body j b) s (Inv (j + 1)) E) :
  wlp P (loop n 0 body b) s (Inv n) E
  := by
  have hrun : wlp P (loop n 0 body b) s (Inv (0 + n)) E := by
    apply wlp_loop Inv hinit
    intro j b s _ hj hInv
    apply hbody j b s (by omega) hInv
  rwa [Nat.zero_add] at hrun

/-- The rule for loops: an invariant that every round keeps holds at the end. -/
theorem wp_loop {n i : ℕ} (Inv : ℕ → β → σ → Prop) (hinit : Inv i b s)
    (hbody : ∀ j b s, i ≤ j → j < i + n → Inv j b s → wp (body j b) s (Inv (j + 1)) E) :
  wp (loop n i body b) s (Inv (i + n)) E
  := by
  simp only [wp_iff_wlp] at hbody ⊢
  apply wlp_loop Inv hinit hbody

/-- The rule for a loop that counts from zero. -/
theorem wp_loop_run {n : ℕ} (Inv : ℕ → β → σ → Prop) (hinit : Inv 0 b s)
    (hbody : ∀ j b s, j < n → Inv j b s → wp (body j b) s (Inv (j + 1)) E) :
  wp (loop n 0 body b) s (Inv n) E
  := by
  simp only [wp_iff_wlp] at hbody ⊢
  apply wlp_loop_run Inv hinit hbody

-- A specification is taken apart by the rules, not by running the routine.
attribute [irreducible] wp

end Routine
