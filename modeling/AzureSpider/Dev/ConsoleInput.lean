import AzureSpider.Dev.ConsoleOutput

/-!
# What the console reads

`cs_rsem` counts the characters that have been typed, but `cs_gotchar` keeps only the last one.
When a character is typed before the one before it has been read, `getch` returns the later one
twice; when every character is typed after the one before it has been read, none is lost.
-/

namespace Console

variable {c c' : Interleaved Tid Console Pc} {t : Tid}

/-- A character has been typed that no `getch` has returned. -/
def Unread (c : Interleaved Tid Console Pc) : Prop :=
  c.shared.csRsem ≠ 0 ∨ ∃ t, c.pc t = .read

/-- A character is handed to `con_input` only when those before it have been read. -/
def oneAtATime : Condition := fun c e =>
  match e with
  | .irq => c.shared.dev.received ≠ none → ¬ Unread c
  | _ => True

/-- All characters have been returned but the last one, which may be yet to be read by one
thread. -/
structure Kept (c : Interleaved Tid Console Pc) : Prop where
  count : c.shared.csRsem ≤ 1
  waiting : c.shared.csRsem ≠ 0 → ∀ t, c.pc t ≠ .read
  reader : ∀ t u, c.pc t = .read → c.pc u = .read → t = u
  unread : Unread c → c.shared.typed = c.shared.returned ++ [c.shared.csGotchar]
  read : ¬ Unread c → c.shared.typed = c.shared.returned

theorem kept_init :
  Kept init
  := by
  constructor
  · exact Nat.zero_le 1
  · intro h
    exact absurd rfl h
  · intro t u ht
    cases ht
  · rintro (h | ⟨t, ht⟩)
    · exact absurd rfl h
    · cases ht
  · intro _
    rfl

/-- The parts of the console that have to do with input. -/
structure SameInput (s s' : Console) : Prop where
  csRsem : s'.csRsem = s.csRsem
  csGotchar : s'.csGotchar = s.csGotchar
  typed : s'.typed = s.typed
  returned : s'.returned = s.returned

/-- A step that has nothing to do with input. -/
theorem Kept.same (h : Kept c) (hsame : SameInput c.shared c'.shared)
    (hpc : ∀ t, c'.pc t = .read ↔ c.pc t = .read) :
  Kept c'
  := by
  have hunread : Unread c' ↔ Unread c := by
    unfold Unread
    simp only [hsame.csRsem, hpc]
  constructor
  · rw [hsame.csRsem]
    exact h.count
  · rw [hsame.csRsem]
    intro hne t
    rw [Ne, hpc]
    exact h.waiting hne t
  · intro t u ht hu
    exact h.reader t u ((hpc t).mp ht) ((hpc u).mp hu)
  · rw [hunread, hsame.typed, hsame.returned, hsame.csGotchar]
    exact h.unread
  · rw [hunread, hsame.typed, hsame.returned]
    exact h.read

theorem update_eq_read_iff {pc : Tid → Pc} {k : Pc} (hk : k ≠ .read) (hpc : pc t ≠ .read)
    (u : Tid) :
  Function.update pc t k u = .read ↔ pc u = .read
  := by
  by_cases hu : u = t
  · subst hu
    simp [hk, hpc]
  · simp [hu]

/-- A thread takes a character that has been typed. -/
theorem Kept.take (h : Kept c) (hfree : c.shared.csRsem ≠ 0) :
  Kept ⟨{ c.shared with csRsem := c.shared.csRsem - 1 }, Function.update c.pc t .read⟩
  := by
  have hnone := h.waiting hfree
  have hcount := h.count
  have hread : ∀ u, Function.update c.pc t .read u = .read → u = t := by
    intro u hu
    by_contra hne
    rw [Function.update_of_ne hne] at hu
    exact hnone u hu
  constructor
  · dsimp only
    omega
  · intro hne
    dsimp only at hne
    omega
  · intro u v hu hv
    rw [hread u hu, hread v hv]
  · intro _
    exact h.unread (.inl hfree)
  · intro hnot
    exact absurd (.inr ⟨t, Function.update_self _ _ _⟩) hnot

/-- A thread returns the character that it has taken. -/
theorem Kept.returns (h : Kept c) (hpc : c.pc t = .read) :
  Kept ⟨{ c.shared with returned := c.shared.returned ++ [c.shared.csGotchar] },
    Function.update c.pc t .idle⟩
  := by
  have hzero : c.shared.csRsem = 0 := by
    by_contra hne
    exact h.waiting hne t hpc
  have hnone : ∀ u, Function.update c.pc t .idle u ≠ .read := by
    intro u hu
    by_cases hne : u = t
    · subst hne
      rw [Function.update_self] at hu
      cases hu
    · rw [Function.update_of_ne hne] at hu
      exact hne (h.reader u t hu hpc)
  constructor
  · exact h.count
  · intro hne
    exact absurd hzero hne
  · intro u v hu
    exact absurd hu (hnone u)
  · rintro (hne | ⟨u, hu⟩)
    · exact absurd hzero hne
    · exact absurd hu (hnone u)
  · intro _
    exact h.unread (.inr ⟨t, hpc⟩)

/-- A character is typed, and those before it have been read. -/
theorem Kept.input (h : Kept c) (hread : ¬ Unread c) {s : Console}
    (hsame : SameInput c.shared s) (ch : ℕ) :
  Kept ⟨s.input ch, c.pc⟩
  := by
  have hnone : ∀ t, c.pc t ≠ .read := fun t ht => hread (.inr ⟨t, ht⟩)
  have hzero : s.csRsem = 0 := by
    rw [hsame.csRsem]
    by_contra hne
    exact hread (.inl hne)
  constructor
  · simp [Console.input, hzero]
  · intro _ t
    exact hnone t
  · intro t u ht
    exact absurd ht (hnone t)
  · intro _
    simp only [Console.input]
    rw [hsame.typed, hsame.returned, h.read hread]
  · intro hnot
    exact absurd (.inl (Nat.succ_ne_zero _)) hnot

theorem Kept.own {s : Console} {pc pc' : Pc} (h : Kept c) (hpc : c.pc t = pc)
    (he : Effect t c.shared pc s pc') :
  Kept ⟨s, Function.update c.pc t pc'⟩
  := by
  cases he with
  | takeRead hfree => exact h.take hfree
  | read => exact h.returns hpc
  | hand | polled | getch | take | write =>
    exact h.same ⟨rfl, rfl, rfl, rfl⟩ (update_eq_read_iff (by simp) (by simp [hpc]))

theorem Kept.event {s : Console} {e : Event} (h : Kept c) (hphase : c.shared.Phase)
    (hallow : oneAtATime c e) (he : event e c.shared = .ok () s) :
  Kept ⟨s, c.pc⟩
  := by
  cases e with
  | sent =>
    have hsent : Console.sent c.shared = .ok () s := he
    by_cases hsending : c.shared.dev.sending = none
    · simp [Console.sent, hsending] at hsent
    · rw [sent_eq hsending] at hsent
      cases hsent
      exact h.same ⟨rfl, rfl, rfl, rfl⟩ (fun _ => Iff.rfl)
  | receive ch =>
    cases he
    exact h.same ⟨rfl, rfl, rfl, rfl⟩ (fun _ => Iff.rfl)
  | putch ch =>
    have hpolled : putchPolled none ch c.shared = .ok () s := he
    rw [putchPolled_eq hphase] at hpolled
    cases hpolled
    exact h.same ⟨rfl, rfl, rfl, rfl⟩ (fun _ => Iff.rfl)
  | irq =>
    have hirq : lserIrq c.shared = .ok () s := he
    rw [lserIrq_eq] at hirq
    cases hreceived : c.shared.dev.received with
    | none =>
      rw [hreceived] at hirq
      cases hirq
      exact h.same ⟨rfl, rfl, rfl, rfl⟩ (fun _ => Iff.rfl)
    | some ch =>
      rw [hreceived] at hirq
      cases hirq
      have hread : ¬ Unread c := hallow (by simp [hreceived])
      have hsame : SameInput c.shared c.shared.cleared := ⟨rfl, rfl, rfl, rfl⟩
      exact h.input hread hsame ch

/-- Along every run in which characters are typed one at a time. -/
theorem Reaches.kept (hrun : (moves oneAtATime).Reaches init c) :
  Kept c
  := by
  induction hrun with
  | refl => exact kept_init
  | @tail b c hrun hstep ih =>
    have hholds := (keeps_sound oneAtATime).reaches ⟨sound_init, relies_init⟩ hrun
    cases hstep with
    | own t hown =>
      obtain ⟨call, hstep⟩ := hown
      have he := Routine.wlp_ok (step_effect t call _ hholds.shared.phase) hstep
      exact ih.own rfl he
    | env henv =>
      obtain ⟨e, hallow, hevent⟩ := henv
      exact ih.event hholds.shared.phase hallow hevent

/-- When characters are typed one at a time, the characters that `getch` returns, in the order
in which its calls end, are characters that have been typed, each of them once and in the order
in which they have been typed. -/
theorem returned_sublist_typed (hrun : (moves oneAtATime).Reaches init c) :
  c.shared.returned.Sublist c.shared.typed
  := by
  have hkept := Reaches.kept hrun
  by_cases hunread : Unread c
  · rw [hkept.unread hunread]
    exact List.sublist_append_left _ _
  · rw [hkept.read hunread]

/-- Two characters are typed, each of which is read before the next. -/
theorem returned_sublist_typed_two :
  ∃ c, (moves oneAtATime).Reaches init c ∧ c.shared.typed = [65, 66]
    ∧ c.shared.returned.Sublist c.shared.typed ∧ c.shared.returned = [65, 66]
  := by
  have hreceive : (moves oneAtATime).Reaches init _ :=
    Moves.Reaches.happen .refl ⟨.receive 65, trivial, rfl⟩
  have hirq := hreceive.happen ⟨.irq, fun _ => by simp [Unread], rfl⟩
  have hcall := hirq.move 0 ⟨.getch, rfl⟩
  have htake := hcall.move 0 ⟨.getch, rfl⟩
  have hread := htake.move 0 ⟨.getch, rfl⟩
  have hreceive' := hread.happen ⟨.receive 66, trivial, rfl⟩
  have hirq' := hreceive'.happen ⟨.irq, fun _ => by simp [Unread], rfl⟩
  have hcall' := hirq'.move 0 ⟨.getch, rfl⟩
  have htake' := hcall'.move 0 ⟨.getch, rfl⟩
  have hrun := htake'.move 0 ⟨.getch, rfl⟩
  exact ⟨_, hrun, rfl, returned_sublist_typed hrun, rfl⟩

/-- Two characters are typed before `getch` is called: the second one is returned twice. -/
theorem getch_returns_twice :
  ∃ c, (moves anyEvent).Reaches init c ∧ c.shared.typed = [65, 66]
    ∧ c.shared.returned = [66, 66] ∧ ¬ c.shared.returned.Sublist c.shared.typed
  := by
  have hfirst : (moves anyEvent).Reaches init _ :=
    Moves.Reaches.happen .refl ⟨.receive 65, trivial, rfl⟩
  have hirq := hfirst.happen ⟨.irq, trivial, rfl⟩
  have hsecond := hirq.happen ⟨.receive 66, trivial, rfl⟩
  have hirq' := hsecond.happen ⟨.irq, trivial, rfl⟩
  have hcall := hirq'.move 0 ⟨.getch, rfl⟩
  have htake := hcall.move 0 ⟨.getch, rfl⟩
  have hread := htake.move 0 ⟨.getch, rfl⟩
  have hcall' := hread.move 0 ⟨.getch, rfl⟩
  have htake' := hcall'.move 0 ⟨.getch, rfl⟩
  have hrun := htake'.move 0 ⟨.getch, rfl⟩
  exact ⟨_, hrun, rfl, rfl, by decide⟩

end Console
