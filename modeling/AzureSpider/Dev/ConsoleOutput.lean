import AzureSpider.Dev.Console
import Mathlib.Data.Set.Card

/-!
# What the console prints

The semaphore `cs_wsem` is a token: it is in the semaphore, or with the thread that has waited
for it, or with the device, which is busy with a character (`Sound.token`).  A character that is
printed by polling takes the device in between and leaves the token where it is.  So `lser_write`
never finds the device busy, and every character is written once, in the order in which its
thread has handed it to `putch`.
-/

open Routine

namespace Console

variable {s s' : Console} {t u : Tid} {pc pc' : Pc} {who : Option Tid} {ch : ℕ}

/-! ### What the threads rely on -/

/-- The characters of a thread, or of the interrupt handlers, in a record. -/
def charsOf (who : Option Tid) (l : List (Option Tid × ℕ)) : List ℕ :=
  (l.filter fun p => p.1 = who).map Prod.snd

theorem charsOf_append_self (l : List (Option Tid × ℕ)) :
  charsOf who (l ++ [(who, ch)]) = charsOf who l ++ [ch]
  := by
  simp [charsOf]

theorem charsOf_append_of_ne {who' : Option Tid} (l : List (Option Tid × ℕ)) (h : who' ≠ who) :
  charsOf who (l ++ [(who', ch)]) = charsOf who l
  := by
  simp [charsOf, h]

/-- What the device does, as the driver knows it: it sends a character or has sent one, when it
is busy, and else it does nothing. -/
def Phase (s : Console) : Prop :=
  match s.lsWbusy with
  | true => (s.dev.sending ≠ none ∧ s.dev.wirq = false) ∨ (s.dev.sending = none ∧ s.dev.wirq = true)
  | false => s.dev.sending = none ∧ s.dev.wirq = false

/-- What holds of the console. -/
structure Sound (s : Console) : Prop where
  token : s.csWsem + (if s.lsWbusy = true then 1 else 0) + (if s.writer = none then 0 else 1) = 1
  phase : s.Phase
  handlers : charsOf none s.written = charsOf none s.handed

/-- The character that a thread has handed to `putch` and not yet written. -/
def Pc.pending : Pc → List ℕ
  | .putch ch => [ch]
  | .send ch => [ch]
  | _ => []

/-- The thread is between `P(cs_wsem)` and `lser_write`. -/
def Pc.Sends : Pc → Prop
  | .send _ => True
  | _ => False

theorem Pc.exists_of_sends (h : pc.Sends) :
  ∃ ch, pc = .send ch
  := by
  cases pc with
  | send ch => exact ⟨ch, rfl⟩
  | idle | putch | getch | read => cases h

/-- What a thread relies on. -/
structure Relies (t : Tid) (s : Console) (pc : Pc) : Prop where
  writer : s.writer = some t ↔ pc.Sends
  order : charsOf (some t) s.written ++ pc.pending = charsOf (some t) s.handed

theorem sound_init :
  init.shared.Sound
  := by
  constructor
  · rfl
  · exact ⟨rfl, rfl⟩
  · rfl

theorem relies_init (t : Tid) :
  Relies t init.shared (init.pc t)
  := by
  constructor
  · simp [init, Pc.Sends]
  · rfl

/-! ### What the functions do -/

/-- The console after a polled character: the write interrupt is active when the device was
busy. -/
def polled (s : Console) (who : Option Tid) (ch : ℕ) : Console :=
  { s with
    dev := ⟨none, s.lsWbusy, s.dev.received⟩
    written := s.written ++ [(who, ch)]
    handed := s.handed ++ [(who, ch)] }

/-- The loops of `lser_writepolled` end. -/
theorem lserWritepolled_eq (h : s.Phase) :
  lserWritepolled who ch s = .ok ()
    { s with
      dev := ⟨none, s.lsWbusy, s.dev.received⟩
      written := s.written ++ [(who, ch)] }
  := by
  obtain ⟨⟨sending, wirq, received⟩, busy, _⟩ := s
  cases busy with
  | true =>
    rcases h with ⟨hsending, hwirq⟩ | ⟨hsending, hwirq⟩
    · dsimp only at hsending hwirq
      obtain ⟨x, rfl⟩ := Option.ne_none_iff_exists'.mp hsending
      subst hwirq
      rfl
    · dsimp only at hsending hwirq
      subst hsending hwirq
      rfl
  | false =>
    obtain ⟨hsending, hwirq⟩ := h
    dsimp only at hsending hwirq
    subst hsending hwirq
    rfl

theorem putchPolled_eq (h : s.Phase) :
  putchPolled who ch s = .ok () (s.polled who ch)
  := lserWritepolled_eq (s := { s with handed := s.handed ++ [(who, ch)] }) h

/-- What a thread can do. -/
inductive Effect (t : Tid) (s : Console) : Pc → Console → Pc → Prop
  | hand (ch : ℕ) :
      Effect t s .idle { s with handed := s.handed ++ [(some t, ch)] } (.putch ch)
  | polled (ch : ℕ) : Effect t s .idle (s.polled (some t) ch) .idle
  | getch : Effect t s .idle s .getch
  | take {ch : ℕ} (hfree : s.csWsem ≠ 0) :
      Effect t s (.putch ch) { s with csWsem := s.csWsem - 1, writer := some t } (.send ch)
  | write {ch : ℕ} (hclear : s.lsWbusy = false) :
      Effect t s (.send ch) { s with
        lsWbusy := true
        dev := ⟨some ch, s.dev.wirq, s.dev.received⟩
        written := s.written ++ [(some t, ch)]
        writer := none } .idle
  | takeRead (hfree : s.csRsem ≠ 0) :
      Effect t s .getch { s with csRsem := s.csRsem - 1 } .read
  | read : Effect t s .read { s with returned := s.returned ++ [s.csGotchar] } .idle

theorem step_effect (t : Tid) (call : Call) (pc : Pc) (hphase : s.Phase) :
  wlp (fun _ => True) (step t call pc) s (fun pc' s' => Effect t s pc s' pc') (fun _ _ => True)
  := by
  cases pc with
  | idle =>
    cases call with
    | putch ch => exact .hand ch
    | putchOff ch =>
      rw [step, wlp_bind]
      exact wlp_of_wp (wp_of_ok (putchPolled_eq hphase) (.polled ch))
    | getch => exact .getch
  | putch ch =>
    simp only [step, pWsem, wlp_bind, wlp_get, wlp_ite, wlp_fail, wlp_modify, wlp_pure]
    exact ⟨fun _ => trivial, .take⟩
  | send ch =>
    simp only [step, csSend, lserWrite, writeChar, wlp_bind, wlp_get, wlp_assert, wlp_modify,
      wlp_pure]
    exact ⟨.write, fun _ => trivial⟩
  | getch =>
    simp only [step, pRsem, wlp_bind, wlp_get, wlp_ite, wlp_fail, wlp_modify, wlp_pure]
    exact ⟨fun _ => trivial, .takeRead⟩
  | read => exact .read

/-- The console after `con_input`. -/
def input (s : Console) (ch : ℕ) : Console :=
  { s with csGotchar := ch, csRsem := s.csRsem + 1, typed := s.typed ++ [ch] }

/-- The console after the part of `lser_irq` on the write interrupt. -/
def cleared (s : Console) : Console :=
  { s with
    dev := ⟨s.dev.sending, false, none⟩
    lsWbusy := if s.dev.wirq = true then false else s.lsWbusy
    csWsem := if s.dev.wirq = true then s.csWsem + 1 else s.csWsem }

theorem lserIrq_eq :
  lserIrq s = .ok () (match s.dev.received with
    | none => s.cleared
    | some ch => s.cleared.input ch)
  := by
  obtain ⟨⟨sending, wirq, received⟩, _⟩ := s
  cases wirq with
  | true =>
    cases received with
    | none | some => rfl
  | false =>
    cases received with
    | none | some => rfl

/-! ### What a step keeps -/

theorem Sound.polled (h : s.Sound) (who : Option Tid) (ch : ℕ) :
  (s.polled who ch).Sound
  := by
  constructor
  · exact h.token
  · unfold Phase Console.polled
    cases hbusy : s.lsWbusy with
    | true => exact .inr ⟨rfl, rfl⟩
    | false => exact ⟨rfl, rfl⟩
  · simp only [Console.polled]
    by_cases hwho : who = none
    · subst hwho
      rw [charsOf_append_self, charsOf_append_self, h.handlers]
    · rw [charsOf_append_of_ne _ hwho, charsOf_append_of_ne _ hwho, h.handlers]

/-- A polled character of someone else. -/
theorem Relies.polled (h : Relies u s pc) (hwho : who ≠ some u) (ch : ℕ) :
  Relies u (s.polled who ch) pc
  := by
  constructor
  · exact h.writer
  · simp only [Console.polled]
    rw [charsOf_append_of_ne _ hwho, charsOf_append_of_ne _ hwho, h.order]

theorem Effect.sound (he : Effect t s pc s' pc') (h : s.Sound) (hown : Relies t s pc) :
  s'.Sound
  := by
  have htoken := h.token
  cases he with
  | hand ch =>
    constructor
    · exact h.token
    · exact h.phase
    · dsimp only
      rw [charsOf_append_of_ne _ (by simp), h.handlers]
  | polled ch => exact h.polled _ ch
  | getch => exact h
  | take hfree =>
    constructor
    · simp only [reduceCtorEq, if_false]
      omega
    · exact h.phase
    · exact h.handlers
  | write hclear =>
    have hwriter : s.writer = some t := hown.writer.mpr trivial
    have hphase := h.phase
    unfold Phase at hphase
    rw [hclear] at hphase
    constructor
    · simp only [if_true]
      rw [hclear, hwriter] at htoken
      simpa using htoken
    · exact .inl ⟨by simp, hphase.2⟩
    · dsimp only
      rw [charsOf_append_of_ne _ (by simp), h.handlers]
  | takeRead | read => exact { h with }

theorem Effect.own (he : Effect t s pc s' pc') (hown : Relies t s pc) :
  Relies t s' pc'
  := by
  have horder := hown.order
  cases he with
  | hand ch =>
    constructor
    · exact hown.writer
    · simp only [Pc.pending, List.append_nil] at horder ⊢
      rw [charsOf_append_self, horder]
  | polled ch =>
    constructor
    · exact hown.writer
    · simp only [Pc.pending, List.append_nil, Console.polled] at horder ⊢
      rw [charsOf_append_self, charsOf_append_self, horder]
  | getch | takeRead | read => exact ⟨hown.writer, hown.order⟩
  | take hfree =>
    constructor
    · simp [Pc.Sends]
    · exact hown.order
  | write hclear =>
    constructor
    · simp [Pc.Sends]
    · simp only [Pc.pending, List.append_nil] at horder ⊢
      rw [charsOf_append_self, horder]

theorem Effect.other (he : Effect t s pc s' pc') (h : s.Sound) (hown : Relies t s pc) {k : Pc}
    (hother : Relies u s k) (hne : u ≠ t) :
  Relies u s' k
  := by
  have htu : (some t : Option Tid) ≠ some u := by
    intro htu
    exact hne (Option.some.inj htu).symm
  cases he with
  | hand ch =>
    constructor
    · exact hother.writer
    · dsimp only
      rw [charsOf_append_of_ne _ htu, hother.order]
  | polled ch => exact hother.polled htu ch
  | getch => exact hother
  | take hfree =>
    have hnone : s.writer = none := by
      have htoken := h.token
      by_contra hsome
      rw [if_neg hsome] at htoken
      omega
    constructor
    · rw [← hother.writer, hnone]
      simp [htu]
    · exact hother.order
  | write hclear =>
    have hwriter : s.writer = some t := hown.writer.mpr trivial
    constructor
    · rw [← hother.writer, hwriter]
      simp [htu]
    · dsimp only
      rw [charsOf_append_of_ne _ htu, hother.order]
  | takeRead | read => exact ⟨hother.writer, hother.order⟩

theorem Sound.cleared (h : s.Sound) :
  s.cleared.Sound
  := by
  have hphase := h.phase
  have htoken := h.token
  obtain ⟨⟨sending, wirq, received⟩, busy, _⟩ := s
  cases wirq with
  | false =>
    constructor
    · exact h.token
    · exact h.phase
    · exact h.handlers
  | true =>
    cases busy with
    | false => cases hphase.2
    | true =>
      have hsending : sending = none := by
        rcases hphase with ⟨-, hwirq⟩ | ⟨hsending, -⟩
        · cases hwirq
        · exact hsending
      constructor
      · simpa [Console.cleared] using htoken
      · exact ⟨hsending, rfl⟩
      · exact h.handlers

/-- The device has sent its character. -/
theorem Sound.sent (h : s.Sound) (hsending : s.dev.sending ≠ none) :
  Sound { s with dev := ⟨none, true, s.dev.received⟩ }
  := by
  have hphase := h.phase
  constructor
  · exact h.token
  · unfold Phase at hphase ⊢
    dsimp only
    cases hbusy : s.lsWbusy with
    | true => exact .inr ⟨rfl, rfl⟩
    | false =>
      rw [hbusy] at hphase
      exact absurd hphase.1 hsending
  · exact h.handlers

theorem sent_eq (hsending : s.dev.sending ≠ none) :
  sent s = .ok () { s with dev := ⟨none, true, s.dev.received⟩ }
  := by
  obtain ⟨ch, hch⟩ := Option.ne_none_iff_exists'.mp hsending
  simp only [sent, get_bind, hch]
  rfl

/-- Whatever happens besides the threads. -/
theorem Sound.event {e : Event} (h : s.Sound) (he : event e s = .ok () s') :
  s'.Sound ∧ ∀ u k, Relies u s k → Relies u s' k
  := by
  cases e with
  | sent =>
    have hsent : Console.sent s = .ok () s' := he
    by_cases hsending : s.dev.sending = none
    · simp [Console.sent, hsending] at hsent
    · rw [sent_eq hsending] at hsent
      cases hsent
      exact ⟨h.sent hsending, fun _ _ hu => ⟨hu.writer, hu.order⟩⟩
  | receive ch =>
    cases he
    exact ⟨{ h with }, fun _ _ hu => ⟨hu.writer, hu.order⟩⟩
  | irq =>
    have hirq : lserIrq s = .ok () s' := he
    rw [lserIrq_eq] at hirq
    cases hreceived : s.dev.received with
    | none =>
      rw [hreceived] at hirq
      cases hirq
      exact ⟨h.cleared, fun _ _ hu => ⟨hu.writer, hu.order⟩⟩
    | some ch =>
      rw [hreceived] at hirq
      cases hirq
      exact ⟨{ h.cleared with }, fun _ _ hu => ⟨hu.writer, hu.order⟩⟩
  | putch ch =>
    have hpolled : putchPolled none ch s = .ok () s' := he
    rw [putchPolled_eq h.phase] at hpolled
    cases hpolled
    exact ⟨h.polled none ch, fun _ _ hu => hu.polled (by simp) ch⟩

/-! ### Runs -/

theorem keeps_sound (allow : Condition) :
  (moves allow).Keeps Sound Relies
  := by
  constructor
  · rintro c t s l hc ⟨call, hstep⟩
    have he := wlp_ok (step_effect t call _ hc.shared.phase) hstep
    exact ⟨he.sound hc.shared (hc.local' t), he.own (hc.local' t),
      fun u => he.other hc.shared (hc.local' t) (hc.local' u)⟩
  · rintro c s hc ⟨e, -, hevent⟩
    obtain ⟨hsound, hrelies⟩ := hc.shared.event hevent
    exact ⟨hsound, fun u => hrelies u _ (hc.local' u)⟩

variable {c : Interleaved Tid Console Pc}

/-- The token is with a thread exactly when the thread is between `P(cs_wsem)` and
`lser_write`. -/
theorem ncard_sends (h : ∀ t, Relies t c.shared (c.pc t)) :
  {t | (c.pc t).Sends}.ncard = if c.shared.writer = none then 0 else 1
  := by
  cases hwriter : c.shared.writer with
  | none =>
    have hempty : {t | (c.pc t).Sends} = ∅ := by
      ext t
      simp [← (h t).writer, hwriter]
    rw [hempty, Set.ncard_empty, if_pos rfl]
  | some u =>
    have hsingle : {t | (c.pc t).Sends} = {u} := by
      ext t
      simp [← (h t).writer, hwriter, eq_comm]
    rw [hsingle, Set.ncard_singleton, if_neg (by simp)]

/-- A thread that is between `P(cs_wsem)` and `lser_write` finds the device clear. -/
theorem Sound.clear_of_writer (h : s.Sound) (hwriter : s.writer = some t) :
  s.lsWbusy = false
  := by
  have htoken := h.token
  rw [hwriter] at htoken
  cases hbusy : s.lsWbusy with
  | false => rfl
  | true => simp [hbusy] at htoken

/-- The interrupt posts the semaphore. -/
theorem exists_posted_of_wirq (hwirq : c.shared.dev.wirq = true) :
  ∃ s', (moves anyEvent).Reaches c ⟨s', c.pc⟩ ∧ s'.csWsem ≠ 0
  := by
  have hstep : ∀ {s'}, lserIrq c.shared = .ok () s' → (moves anyEvent).Reaches c ⟨s', c.pc⟩ :=
    fun hirq => Relation.ReflTransGen.single (.env ⟨.irq, trivial, hirq⟩)
  have hposted : c.shared.cleared.csWsem ≠ 0 := by
    simp [cleared, hwirq]
  cases hreceived : c.shared.dev.received with
  | none =>
    use c.shared.cleared
    refine ⟨hstep ?_, hposted⟩
    rw [lserIrq_eq, hreceived]
  | some ch =>
    use c.shared.cleared.input ch
    refine ⟨hstep ?_, hposted⟩
    rw [lserIrq_eq, hreceived]

/-- A device that is busy posts the semaphore in the end. -/
theorem exists_posted_of_busy (hs : c.shared.Sound) (hbusy : c.shared.lsWbusy = true) :
  ∃ s', (moves anyEvent).Reaches c ⟨s', c.pc⟩ ∧ s'.csWsem ≠ 0
  := by
  have hphase := hs.phase
  unfold Phase at hphase
  rw [hbusy] at hphase
  rcases hphase with ⟨hsending, -⟩ | ⟨-, hwirq⟩
  · have hsent : (moves anyEvent).Step c ⟨{ c.shared with
        dev := ⟨none, true, c.shared.dev.received⟩ }, c.pc⟩ :=
      .env ⟨.sent, trivial, sent_eq hsending⟩
    obtain ⟨s', hreach, hposted⟩ := exists_posted_of_wirq (c := ⟨{ c.shared with
      dev := ⟨none, true, c.shared.dev.received⟩ }, c.pc⟩) rfl
    exact ⟨s', Relation.ReflTransGen.head hsent hreach, hposted⟩
  · exact exists_posted_of_wirq hwirq

/-- A thread that has the token writes its character. -/
theorem Sound.lserWrite_eq (h : s.Sound) (hwriter : s.writer = some t) (ch : ℕ) :
  step t .getch (.send ch) s = .ok .idle { s with
    lsWbusy := true
    dev := ⟨some ch, s.dev.wirq, s.dev.received⟩
    written := s.written ++ [(some t, ch)]
    writer := none }
  := by
  have hclear := h.clear_of_writer hwriter
  simp only [step, csSend, lserWrite, writeChar, bind_eq_ok, get_eq_ok,
    assert_eq_ok, modify_eq_ok, pure_eq_ok]
  exact ⟨(), _, ⟨(), _, ⟨_, _, ⟨rfl, rfl⟩, (), _, ⟨hclear, rfl⟩, (), _, rfl, rfl⟩, rfl⟩, trivial,
    rfl⟩

theorem exists_written (hc : Moves.Holds Sound Relies c) (hpc : c.pc t = .send ch) :
  ∃ s', (moves anyEvent).Step c ⟨s', Function.update c.pc t .idle⟩ ∧ s'.lsWbusy = true
  := by
  have hwriter := (hc.local' t).writer.mpr (by rw [hpc]; trivial)
  have hwrite := hc.shared.lserWrite_eq hwriter ch
  rw [← hpc] at hwrite
  exact ⟨_, .own t ⟨.getch, hwrite⟩, rfl⟩

/-- The semaphore is posted in the end, wherever the token is. -/
theorem exists_posted (hc : Moves.Holds Sound Relies c) (ht : ¬ (c.pc t).Sends) :
  ∃ c', (moves anyEvent).Reaches c c' ∧ c'.shared.csWsem ≠ 0 ∧ c'.pc t = c.pc t
  := by
  have htoken := hc.shared.token
  cases hbusy : c.shared.lsWbusy with
  | true =>
    obtain ⟨s', hreach, hposted⟩ := exists_posted_of_busy hc.shared hbusy
    exact ⟨_, hreach, hposted, rfl⟩
  | false =>
    cases hwriter : c.shared.writer with
    | none =>
      rw [hbusy, hwriter] at htoken
      refine ⟨c, .refl, ?_, rfl⟩
      intro hzero
      simp [hzero] at htoken
    | some u =>
      have hsends := (hc.local' u).writer.mp hwriter
      have hne : t ≠ u := by
        rintro rfl
        exact ht hsends
      obtain ⟨ch, hpc⟩ := Pc.exists_of_sends hsends
      obtain ⟨s₁, hstep, hbusy₁⟩ := exists_written hc hpc
      have hsound₁ := ((keeps_sound anyEvent).step hc hstep).shared
      obtain ⟨s', hreach, hposted⟩ := exists_posted_of_busy hsound₁ hbusy₁
      refine ⟨_, Relation.ReflTransGen.head hstep hreach, hposted, ?_⟩
      exact Function.update_of_ne hne _ _

/-- A thread that has handed a character to `putch` writes it in the end. -/
theorem exists_returned (hc : Moves.Holds Sound Relies c) (t : Tid) :
  ∃ c', (moves anyEvent).Reaches c c' ∧ (c'.pc t).pending = []
  := by
  have hsend : ∀ {c : Interleaved Tid Console Pc} {ch : ℕ}, Moves.Holds Sound Relies c →
      c.pc t = .send ch → ∃ c', (moves anyEvent).Reaches c c' ∧ (c'.pc t).pending = [] := by
    intro c ch hc hpc
    obtain ⟨s', hstep, -⟩ := exists_written hc hpc
    refine ⟨_, Relation.ReflTransGen.single hstep, ?_⟩
    dsimp only
    rw [Function.update_self]
    rfl
  cases hpc : c.pc t with
  | idle | getch | read => exact ⟨c, .refl, by rw [hpc]; rfl⟩
  | send ch => exact hsend hc hpc
  | putch ch =>
    obtain ⟨c₁, hreach₁, hposted, hpc₁⟩ := exists_posted (t := t) hc (by rw [hpc]; exact id)
    have htake : step t .getch (c₁.pc t) c₁.shared = .ok (.send ch)
        { c₁.shared with csWsem := c₁.shared.csWsem - 1, writer := some t } := by
      rw [hpc₁, hpc]
      simp [step, pWsem, hposted, bind_eq_ok]
    have hstep : (moves anyEvent).Step c₁ _ := .own t ⟨.getch, htake⟩
    have hc₂ := (keeps_sound anyEvent).reaches hc (hreach₁.tail hstep)
    obtain ⟨c₃, hreach₃, hdone⟩ := hsend hc₂ (Function.update_self _ _ _)
    exact ⟨c₃, (hreach₁.tail hstep).trans hreach₃, hdone⟩

/-- The protocol of the console: `lser_write` is not entered while the device is busy, there is
one token, every character is written once, in the order in which its thread has handed it to
`putch`, and `putch` can return: by polling at once, and with interrupts in the end. -/
theorem transmit_protocol (hrun : (moves anyEvent).Reaches init c) :
  (∀ t ch, c.pc t = .send ch → c.shared.lsWbusy = false)
  ∧ c.shared.csWsem + (if c.shared.lsWbusy = true then 1 else 0) + {t | (c.pc t).Sends}.ncard = 1
  ∧ (∀ t, charsOf (some t) c.shared.written ++ (c.pc t).pending = charsOf (some t) c.shared.handed)
  ∧ charsOf none c.shared.written = charsOf none c.shared.handed
  ∧ (∀ who ch, ∃ s', putchPolled who ch c.shared = .ok () s')
  ∧ (∀ t, ∃ c', (moves anyEvent).Reaches c c' ∧ (c'.pc t).pending = [])
  := by
  have hholds := (keeps_sound anyEvent).reaches ⟨sound_init, relies_init⟩ hrun
  have hsound := hholds.shared
  refine ⟨?_, ?_, ?_, hsound.handlers, ?_, exists_returned hholds⟩
  · intro t ch hpc
    apply hsound.clear_of_writer (t := t)
    apply (hholds.local' t).writer.mpr
    rw [hpc]
    trivial
  · rw [ncard_sends hholds.local']
    exact hsound.token
  · intro t
    exact (hholds.local' t).order
  · intro who ch
    exact ⟨_, putchPolled_eq hsound.phase⟩

/-- An interrupt handler prints while the device is busy with the character of a thread. -/
theorem transmit_protocol_polled :
  ∃ c, (moves anyEvent).Reaches init c ∧ c.shared.written = [(some 0, 65), (none, 66)]
    ∧ c.shared.csWsem + (if c.shared.lsWbusy = true then 1 else 0)
      + {t | (c.pc t).Sends}.ncard = 1
  := by
  have hhand : (moves anyEvent).Reaches init _ := Moves.Reaches.move .refl 0 ⟨.putch 65, rfl⟩
  have htake := hhand.move 0 ⟨.getch, rfl⟩
  have hwrite := htake.move 0 ⟨.getch, rfl⟩
  have hrun := hwrite.happen ⟨.putch 66, trivial, rfl⟩
  exact ⟨_, hrun, rfl, (transmit_protocol hrun).2.1⟩

end Console
