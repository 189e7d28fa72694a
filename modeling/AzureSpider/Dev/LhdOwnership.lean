import AzureSpider.Dev.LhdThreads

/-!
# Each request of a disk gets its own data

The semaphore `lh_clear` is a token: the thread that has it is the only one that uses the
registers, the buffer on the card and the result (`Sound.token`).  At every place of its code
such a thread knows what the disk does (`Device`), so that the result and the data that it reads
are those of the operation that it has started, and no operation is started while another one is
in progress.
-/

open Machine Routine

namespace LhdSoftc

variable {s s' : LhdSoftc} {t u : Tid} {pc pc' : Pc} {r : Request}

/-! ### What the threads rely on -/

/-- The thread is between `P(lh_clear)` and `V(lh_clear)`. -/
def Pc.Uses : Pc → Prop
  | .idle => False
  | .loop _ => False
  | .returned _ _ => False
  | _ => True

/-- The sector of the round of the loop. -/
def Request.current (r : Request) : ℕ := u32 (r.sector + r.i)

/-- The operations that have been started are those of the first `n` rounds, in order. -/
def Request.InOrder (r : Request) (n : ℕ) : Prop :=
  r.sectors = (List.range n).map fun k => u32 (r.sector + k)

/-- How far the request of a thread is. -/
def Pc.InOrder : Pc → Prop
  | .idle => True
  | .loop r => r.i ≤ r.len ∧ r.InOrder r.i
  | .cleared r => r.i < r.len ∧ r.InOrder r.i
  | .loaded r => r.i < r.len ∧ r.InOrder r.i
  | .aimed r => r.i < r.len ∧ r.InOrder r.i
  | .started r => r.i < r.len ∧ r.InOrder (r.i + 1)
  | .done r => r.i < r.len ∧ r.InOrder (r.i + 1)
  | .got r _ => r.i < r.len ∧ r.InOrder (r.i + 1)
  | .leaving r result =>
    r.i < r.len ∧ (r.InOrder (r.i + 1) ∨ (result ≠ none ∧ r.InOrder r.i))
  | .returned r result => (result = none → r.InOrder r.len) ∧ ∃ n ≤ r.len, r.InOrder n

/-- The operation that a request has started last has completed with a result, and the buffer on
the card is as it was then. -/
def Completed (s : LhdSoftc) (r : Request) (result : Option Errno) : Prop :=
  ∃ e ∈ s.completions, e.op = r.op ∧ e.sector = r.current ∧ Lhd.codeToErrno e.status = result
    ∧ s.buf = e.buf

/-- What the disk does while a thread is at a place. -/
def Device (s : LhdSoftc) : Pc → Prop
  | .cleared _ => s.stat = .idle ∧ s.lhDone = 0
  | .loaded _ => s.stat = .idle ∧ s.lhDone = 0
  | .aimed r => s.stat = .idle ∧ s.lhDone = 0 ∧ s.sect = r.current
  | .started r => r.op = s.started ∧ s.sect = r.current
      ∧ ((∃ write, s.stat = .working write ∧ s.lhDone = 0 ∧ ∀ e ∈ s.completions, e.op < s.started)
        ∨ (∃ status, s.stat = .complete status ∧ s.lhDone = 0
          ∧ s.Completed r (Lhd.codeToErrno status))
        ∨ (s.stat = .idle ∧ s.lhDone = 1 ∧ s.Completed r s.lhResult))
  | .done r => s.stat = .idle ∧ s.lhDone = 0 ∧ s.Completed r s.lhResult
  | .got r result => s.stat = .idle ∧ s.lhDone = 0 ∧ s.Completed r result
  | .leaving _ _ => s.stat = .idle ∧ s.lhDone = 0
  | _ => True

/-- What holds of the disk. -/
structure Sound (s : LhdSoftc) : Prop where
  token : s.lhClear + (if s.user = none then 0 else 1) = 1
  quiet : s.user = none → s.stat = .idle ∧ s.lhDone = 0
  started : ∀ e ∈ s.completions, e.op ≤ s.started
  once : (s.completions.map LhdCompletion.op).Nodup

/-- What a thread relies on. -/
structure Relies (t : Tid) (s : LhdSoftc) (pc : Pc) : Prop where
  user : s.user = some t ↔ pc.Uses
  device : s.Device pc
  order : pc.InOrder

section Init

variable (disk : ℕ → Buf 512 UInt8) (buf : Buf 512 UInt8) (dBlocks : ℕ)

theorem sound_init :
  (init disk buf dBlocks).shared.Sound
  := by
  constructor
  · rfl
  · intro _
    exact ⟨rfl, rfl⟩
  · simp [init]
  · simp [init]

theorem relies_init (t : Tid) :
  Relies t (init disk buf dBlocks).shared ((init disk buf dBlocks).pc t)
  := by
  constructor
  · simp [init, Pc.Uses]
  · trivial
  · trivial

end Init

/-! ### What a thread does -/

/-- What a step of a thread can do. -/
inductive Effect (t : Tid) (s : LhdSoftc) : Pc → LhdSoftc → Pc → Prop
  | quiet {pc pc' : Pc} (huses : pc'.Uses ↔ pc.Uses) (hdevice : s.Device pc → s.Device pc')
      (horder : pc.InOrder → pc'.InOrder) : Effect t s pc s pc'
  | take {r : Request} (hlt : r.i < r.len) (hfree : s.lhClear ≠ 0) :
      Effect t s (.loop r) { s with lhClear := s.lhClear - 1, user := some t } (.cleared r)
  | load {r : Request} (uio : Uio) (buf : Buf 512 UInt8) :
      Effect t s (.cleared r) { s with buf := buf } (.loaded { r with uio := uio })
  | aim {r : Request} : Effect t s (.loaded r) { s with sect := r.current } (.aimed r)
  | start {r : Request} (write : Bool) :
      Effect t s (.aimed r) { s with stat := .working write, started := s.started + 1 }
        (.started { r with op := s.started + 1, sectors := r.sectors ++ [s.sect] })
  | done {r : Request} (hfree : s.lhDone ≠ 0) :
      Effect t s (.started r) { s with lhDone := s.lhDone - 1 } (.done r)
  | unload {r : Request} (uio : Uio) (buf : Buf 512 UInt8) (result : Option Errno) :
      Effect t s (.got r none) { s with buf := buf } (.leaving { r with uio := uio } result)
  | leave {r : Request} (result : Option Errno) {pc' : Pc} (huses : ¬ pc'.Uses)
      (horder : (Pc.leaving r result).InOrder → pc'.InOrder) :
      Effect t s (.leaving r result) { s with lhClear := s.lhClear + 1, user := none } pc'

theorem moveBuf_moves (uio : Uio) (s : LhdSoftc) :
  wlp (fun _ => True) (moveBuf uio) s
    (fun p s' => (p.1 = none ∧ ∃ buf, s' = { s with buf := buf }) ∨ (p.1 ≠ none ∧ s' = s))
    (fun _ _ => True)
  := by
  simp only [moveBuf, wlp_bind, wlp_get]
  cases Uio.uiomove s.buf 0 512 uio with
  | ok buf u => exact .inl ⟨rfl, buf, rfl⟩
  | err e u => exact .inr ⟨by simp, rfl⟩
  | panic p => trivial

theorem begin'_effect (uio : Uio) (huses : ¬ pc.Uses) :
  wlp (fun _ => True) (begin' uio) s (fun pc' s' => Effect t s pc s' pc') (fun _ _ => True)
  := by
  -- nothing has been started yet
  have hnone : ∀ {sector len : ℕ} {e : Errno},
      Effect t s pc s (Pc.returned ⟨uio, sector, len, 0, 0, []⟩ (some e)) := by
    intro sector len e
    exact .quiet (iff_of_false (by simp [Pc.Uses]) huses) (fun _ => trivial)
      fun _ => ⟨by simp, 0, Nat.zero_le _, rfl⟩
  simp only [begin', wlp_bind, wlp_get, wlp_ite, wlp_pure]
  refine ⟨fun _ => hnone, fun _ => ⟨fun _ => hnone, fun _ => ?_⟩⟩
  exact .quiet (iff_of_false (by simp [Pc.Uses]) huses) (fun _ => trivial)
    fun _ => ⟨Nat.zero_le _, rfl⟩

theorem step_effect (t : Tid) (uio : Uio) (pc : Pc) (s : LhdSoftc) :
  wlp (fun _ => True) (step t uio pc) s (fun pc' s' => Effect t s pc s' pc') (fun _ _ => True)
  := by
  cases pc with
  | idle | returned => exact begin'_effect uio (by simp [Pc.Uses])
  | loop r =>
    simp only [step, head, pClear, wlp_ite, wlp_bind, wlp_get, wlp_modify, wlp_pure, wlp_fail]
    refine ⟨fun hlt => ⟨fun _ => trivial, fun hfree => .take hlt hfree⟩, fun hlt => ?_⟩
    refine .quiet (iff_of_false (by simp [Pc.Uses]) (by simp [Pc.Uses])) (fun _ => trivial) ?_
    rintro ⟨hle, horder⟩
    have hlen : r.i = r.len := by omega
    rw [hlen] at horder
    exact ⟨fun _ => horder, r.len, Nat.le_refl _, horder⟩
  | cleared r =>
    simp only [step, load, wlp_ite, wlp_bind, wlp_pure]
    refine ⟨fun _ => ?_, fun _ => .quiet Iff.rfl id id⟩
    apply wlp_imp (moveBuf_moves r.uio s)
    rintro ⟨_ | e, uio⟩ s' (⟨hresult, buf, rfl⟩ | ⟨hresult, rfl⟩)
    · exact .load uio buf
    · exact absurd rfl hresult
    · cases hresult
    · refine .quiet (iff_of_true trivial trivial) id ?_
      rintro ⟨hlt, horder⟩
      exact ⟨hlt, .inr ⟨by simp, horder⟩⟩
  | loaded r => exact .aim
  | aimed r => exact .start _
  | started r =>
    simp only [step, pDone, wlp_ite, wlp_bind, wlp_get, wlp_modify, wlp_pure, wlp_fail]
    exact ⟨fun _ => trivial, fun hfree => .done hfree⟩
  | done r => exact .quiet Iff.rfl id id
  | got r result =>
    simp only [step, unload, wlp_ite, wlp_bind, wlp_pure]
    constructor
    · rintro ⟨rfl, -⟩
      apply wlp_imp (moveBuf_moves r.uio s)
      rintro ⟨result, uio⟩ s' (⟨-, buf, rfl⟩ | ⟨-, rfl⟩)
      · exact .unload uio buf result
      · exact .unload uio s'.buf result
    · intro _
      refine .quiet Iff.rfl ?_ ?_
      · rintro ⟨hidle, hdone, -⟩
        exact ⟨hidle, hdone⟩
      · rintro ⟨hlt, horder⟩
        exact ⟨hlt, .inl horder⟩
  | leaving r result =>
    simp only [step, leave, vClear, wlp_ite, wlp_bind, wlp_modify, wlp_pure]
    constructor
    · intro hresult
      apply Effect.leave result (by simp [Pc.Uses])
      rintro ⟨hlt, horder | ⟨hne, -⟩⟩
      · exact ⟨hlt, horder⟩
      · exact absurd hresult hne
    · intro hresult
      apply Effect.leave result (by simp [Pc.Uses])
      rintro ⟨hlt, horder | ⟨-, horder⟩⟩
      · exact ⟨fun hnone => absurd hnone hresult, r.i + 1, hlt, horder⟩
      · exact ⟨fun hnone => absurd hnone hresult, r.i, Nat.le_of_lt hlt, horder⟩

/-! ### What a step keeps -/

/-- The disk is free to be taken only when no thread uses it. -/
theorem Sound.user_eq_none (h : s.Sound) (hfree : s.lhClear ≠ 0) :
  s.user = none
  := by
  have htoken := h.token
  by_contra hsome
  rw [if_neg hsome] at htoken
  omega

theorem Effect.sound (he : Effect t s pc s' pc') (h : s.Sound) (hown : Relies t s pc) :
  s'.Sound
  := by
  have htoken := h.token
  have hdevice := hown.device
  cases he with
  | quiet => exact h
  | take hlt hfree =>
    refine { h with token := ?_, quiet := ?_ }
    · simp only [reduceCtorEq, if_false]
      omega
    · intro hnone
      cases hnone
  | load | aim | unload => exact { h with }
  | start write =>
    refine { h with quiet := fun hnone => ?_, started := fun e he => ?_ }
    · cases (hown.user.mpr trivial).symm.trans hnone
    · exact Nat.le_succ_of_le (h.started e he)
  | done hfree =>
    refine { h with quiet := fun hnone => ?_ }
    cases (hown.user.mpr trivial).symm.trans hnone
  | leave result huses horder =>
    rw [hown.user.mpr trivial] at htoken
    exact { h with token := by simpa using htoken, quiet := fun _ => hdevice }

/-- The list of the sectors after one more operation. -/
theorem Request.InOrder.succ {op : ℕ} (h : r.InOrder r.i) :
  Request.InOrder { r with op := op, sectors := r.sectors ++ [r.current] } (r.i + 1)
  := by
  unfold InOrder at h ⊢
  dsimp only
  rw [List.range_succ, List.map_append, h]
  rfl

/-- A thread that does not use the disk relies on nothing but that. -/
theorem relies_of_not_uses (huses : ¬ pc.Uses) (horder : pc.InOrder) (huser : s.user ≠ some u) :
  Relies u s pc
  := by
  constructor
  · exact iff_of_false huser huses
  · cases pc with
    | idle | loop | returned => trivial
    | _ => exact absurd trivial huses
  · exact horder

theorem Effect.own (he : Effect t s pc s' pc') (h : s.Sound) (hown : Relies t s pc) :
  Relies t s' pc'
  := by
  have hdevice := hown.device
  have horder := hown.order
  cases he with
  | quiet huses hdevice' horder' =>
    exact ⟨hown.user.trans huses.symm, hdevice' hdevice, horder' horder⟩
  | take hlt hfree =>
    constructor
    · simp [Pc.Uses]
    · exact h.quiet (h.user_eq_none hfree)
    · exact ⟨hlt, horder.2⟩
  | load uio buf => exact ⟨hown.user, hdevice, horder⟩
  | aim => exact ⟨hown.user, ⟨hdevice.1, hdevice.2, rfl⟩, horder⟩
  | start write =>
    obtain ⟨-, hdone, hsect⟩ := hdevice
    constructor
    · exact hown.user
    · refine ⟨rfl, hsect, .inl ⟨write, rfl, hdone, ?_⟩⟩
      intro e he
      exact Nat.lt_succ_of_le (h.started e he)
    · rw [hsect]
      exact ⟨horder.1, horder.2.succ⟩
  | done hfree =>
    obtain ⟨-, -, ⟨_, -, hdone, -⟩ | ⟨_, -, hdone, -⟩ | ⟨hidle, hdone, hcompleted⟩⟩ := hdevice
    · exact absurd hdone hfree
    · exact absurd hdone hfree
    · constructor
      · exact hown.user
      · refine ⟨hidle, ?_, hcompleted⟩
        simp [hdone]
      · exact horder
  | unload uio buf result =>
    constructor
    · exact hown.user
    · exact ⟨hdevice.1, hdevice.2.1⟩
    · exact ⟨horder.1, .inl horder.2⟩
  | leave result huses horder' => exact relies_of_not_uses huses (horder' horder) (by simp)

/-- Only one thread uses the disk. -/
theorem Relies.not_uses (h : Relies t s pc) (huses : pc.Uses) (h' : Relies u s pc') (hne : u ≠ t) :
  ¬ pc'.Uses
  := by
  intro huses'
  have ht := h.user.mpr huses
  have hu := h'.user.mpr huses'
  rw [ht] at hu
  exact hne (Option.some.inj hu).symm

theorem Effect.other (he : Effect t s pc s' pc') (h : s.Sound) (hown : Relies t s pc) {k : Pc}
    (hother : Relies u s k) (hne : u ≠ t) :
  Relies u s' k
  := by
  have hsome : (some t : Option Tid) ≠ some u := by
    intro htu
    exact hne (Option.some.inj htu).symm
  -- unless the thread uses the disk, or takes it, it changes nothing
  have hwhile : pc.Uses → s'.user = s.user ∨ s'.user = none → Relies u s' k := by
    intro huses huser
    have huses' := hown.not_uses huses hother hne
    apply relies_of_not_uses huses' hother.order
    rcases huser with huser | huser
    · rw [huser, Ne, hother.user]
      exact huses'
    · rw [huser]
      simp
  cases he with
  | quiet => exact hother
  | take hlt hfree =>
    have huses : ¬ k.Uses := by
      rw [← hother.user, h.user_eq_none hfree]
      simp
    exact relies_of_not_uses huses hother.order hsome
  | load | aim | start | done | unload => exact hwhile trivial (.inl rfl)
  | leave => exact hwhile trivial (.inr rfl)

section

variable {c : Interleaved Tid LhdSoftc Pc} (hc : Moves.Holds Sound Relies c)
include hc

/-- An operation in progress is that of a thread which has started it. -/
theorem exists_started (hstat : c.shared.stat ≠ .idle) :
  ∃ t r, c.shared.user = some t ∧ c.pc t = .started r ∧ c.shared.Device (.started r)
  := by
  cases huser : c.shared.user with
  | none => exact absurd (hc.shared.quiet huser).1 hstat
  | some t =>
    have hrelies := hc.local' t
    have huses := hrelies.user.mp huser
    have hdevice := hrelies.device
    use t
    cases hpc : c.pc t <;> rw [hpc] at huses hdevice
    case started r => exact ⟨r, rfl, rfl, hdevice⟩
    case idle | loop | returned => exact huses.elim
    all_goals exact absurd hdevice.1 hstat

/-- A change of the disk by itself concerns only the thread that uses it. -/
theorem relies_of_device (huser : c.shared.user = some t) (hsame : s'.user = c.shared.user)
    (hdevice : s'.Device (c.pc t)) (u : Tid) :
  Relies u s' (c.pc u)
  := by
  by_cases hu : u = t
  · subst hu
    constructor
    · rw [hsame]
      exact (hc.local' u).user
    · exact hdevice
    · exact (hc.local' u).order
  · have huses := (hc.local' t).user.mp huser
    have huses' := (hc.local' t).not_uses huses (hc.local' u) hu
    apply relies_of_not_uses huses' (hc.local' u).order
    rw [hsame, Ne, (hc.local' u).user]
    exact huses'

theorem complete_keeps {status : LhdStatus} (h : complete status c.shared = .ok () s') :
  s'.Sound ∧ ∀ u, Relies u s' (c.pc u)
  := by
  simp only [complete, get_bind] at h
  cases hstat : c.shared.stat with
  | idle | complete =>
    rw [hstat] at h
    cases h
  | working write =>
    simp only [hstat, modify_eq_ok] at h
    obtain ⟨t, r, huser, hpc, hdevice⟩ := exists_started hc (by simp [hstat])
    obtain ⟨hop, hsect, ⟨_, -, hdone, hnew⟩ | ⟨_, hcomplete, -⟩ | ⟨hidle, -⟩⟩ := hdevice
    · subst h
      constructor
      · refine { hc.shared with quiet := ?_, started := ?_, once := ?_ }
        · intro hnone
          cases huser.symm.trans hnone
        · intro e he
          rcases List.mem_append.mp he with he | he
          · exact hc.shared.started e he
          · rw [List.mem_singleton.mp he]
        · rw [List.map_append]
          apply List.nodup_append.mpr ⟨hc.shared.once, by simp, ?_⟩
          intro n hn m hm
          obtain ⟨e, he, rfl⟩ := List.mem_map.mp hn
          simp only [List.map_cons, List.map_nil, List.mem_singleton] at hm
          rw [hm]
          exact Nat.ne_of_lt (hnew e he)
      · apply relies_of_device hc huser (by rfl)
        rw [hpc]
        have hlast : (⟨c.shared.started, c.shared.sect, status, if status = .ok ∧ write = false
            then c.shared.disk c.shared.sect else c.shared.buf⟩ : LhdCompletion)
            ∈ c.shared.completions ++ [_] := List.mem_append_right _ (List.mem_singleton.mpr rfl)
        exact ⟨hop, hsect, .inr (.inl ⟨status, rfl, hdone, _, hlast, hop.symm, hsect, rfl, rfl⟩)⟩
    · rw [hstat] at hcomplete
      cases hcomplete
    · rw [hstat] at hidle
      cases hidle

theorem irq_keeps (h : irq c.shared = .ok () s') :
  s'.Sound ∧ ∀ u, Relies u s' (c.pc u)
  := by
  simp only [irq, get_bind] at h
  cases hstat : c.shared.stat with
  | idle | working =>
    rw [hstat] at h
    cases h
    exact ⟨hc.shared, hc.local'⟩
  | complete status =>
    simp only [hstat, iodone, modify_bind, modify_eq_ok] at h
    obtain ⟨t, r, huser, hpc, hdevice⟩ := exists_started hc (by simp [hstat])
    obtain ⟨hop, hsect, ⟨_, hworking, -⟩ | ⟨_, hcomplete, hdone, hcompleted⟩ | ⟨hidle, -⟩⟩ :=
      hdevice
    · rw [hstat] at hworking
      cases hworking
    · subst h
      rw [hstat] at hcomplete
      cases hcomplete
      constructor
      · refine { hc.shared with quiet := fun hnone => ?_ }
        cases huser.symm.trans hnone
      · apply relies_of_device hc huser (by rfl)
        rw [hpc]
        refine ⟨hop, hsect, .inr (.inr ⟨rfl, ?_, hcompleted⟩)⟩
        simp [hdone]
    · rw [hstat] at hidle
      cases hidle

end

/-! ### Runs -/

theorem keeps_sound :
  moves.Keeps Sound Relies
  := by
  constructor
  · rintro c t s l hc ⟨uio, hstep⟩
    have he := wlp_ok (step_effect t uio _ _) hstep
    exact ⟨he.sound hc.shared (hc.local' t), he.own hc.shared (hc.local' t),
      fun u => he.other hc.shared (hc.local' t) (hc.local' u)⟩
  · rintro c s hc ⟨e, hevent⟩
    cases e with
    | complete status => exact complete_keeps hc hevent
    | irq => exact irq_keeps hc hevent

/-- Along every run: one thread at a time is between `P(lh_clear)` and `V(lh_clear)`; no operation
is started while another is in progress; `lh_done` is `0` when `lh_clear` is `1`; the result that
a thread reads, and the buffer on the card that it reads, are those of the operation that it has
started, of which there is one; and the sectors of a request are processed in order, all of them
if it succeeds. -/
theorem requests_exclusive {disk : ℕ → Buf 512 UInt8} {buf : Buf 512 UInt8} {dBlocks : ℕ}
    {c : Interleaved Tid LhdSoftc Pc} (hrun : moves.Reaches (init disk buf dBlocks) c) :
  (∀ t u, (c.pc t).Uses → (c.pc u).Uses → t = u)
  ∧ (∀ t r, c.pc t = .aimed r → c.shared.stat = .idle)
  ∧ (c.shared.lhClear = 1 → c.shared.lhDone = 0)
  ∧ (∀ t r, c.pc t = .done r → c.shared.Completed r c.shared.lhResult)
  ∧ (∀ t r result, c.pc t = .got r result → c.shared.Completed r result)
  ∧ (c.shared.completions.map LhdCompletion.op).Nodup
  ∧ (∀ t, (c.pc t).InOrder)
  := by
  have hholds := keeps_sound.reaches
    ⟨sound_init disk buf dBlocks, relies_init disk buf dBlocks⟩ hrun
  have hdevice : ∀ {t pc}, c.pc t = pc → c.shared.Device pc := by
    intro t pc hpc
    have hdevice := (hholds.local' t).device
    rw [hpc] at hdevice
    exact hdevice
  refine ⟨?_, ?_, ?_, ?_, ?_, hholds.shared.once, fun t => (hholds.local' t).order⟩
  · intro t u ht hu
    by_contra hne
    exact (hholds.local' t).not_uses ht (hholds.local' u) (Ne.symm hne) hu
  · intro t r hpc
    exact (hdevice hpc).1
  · intro hclear
    have htoken := hholds.shared.token
    rw [hclear] at htoken
    apply (hholds.shared.quiet _).2
    by_contra hsome
    rw [if_neg hsome] at htoken
    cases htoken
  · intro t r hpc
    exact (hdevice hpc).2.2
  · intro t r result hpc
    exact (hdevice hpc).2.2

/-- Two threads want the sector `1`, and one of them has read it. -/
theorem requests_exclusive_two :
  ∃ c r r', moves.Reaches (init (fun _ _ => 0) (fun _ => 0) 8) c ∧ c.pc 0 = .got r none
    ∧ c.pc 1 = .loop r' ∧ r.current = 1 ∧ c.shared.Completed r none ∧ ∀ t, (c.pc t).Uses → t = 0
  := by
  have hcall : ∀ t, step t (Uio.mkKuio (fun _ : Fin 512 => 0) 512 512 .read) .idle
      (init (fun _ _ => 0) (fun _ => 0) 8).shared = .ok (.loop
        ⟨Uio.mkKuio (fun _ : Fin 512 => 0) 512 512 .read, 1, 1, 0, 0, []⟩)
        (init (fun _ _ => 0) (fun _ => 0) 8).shared := by
    simp [step, begin', Uio.mkKuio, init, toU32, u32]
  let u := Uio.mkKuio (fun _ : Fin 512 => 0) 0 0 .read
  have hbegin : moves.Reaches (init (fun _ _ => 0) (fun _ => 0) 8) _ :=
    Moves.Reaches.move .refl 0 ⟨_, hcall 0⟩
  have hother := hbegin.move 1 ⟨_, hcall 1⟩
  have hhead := hother.move 0 ⟨u, rfl⟩
  have hload := hhead.move 0 ⟨u, rfl⟩
  have haim := hload.move 0 ⟨u, rfl⟩
  have hstart := haim.move 0 ⟨u, rfl⟩
  have hcomplete := hstart.happen ⟨.complete .ok, rfl⟩
  have hirq := hcomplete.happen ⟨.irq, rfl⟩
  have hdone := hirq.move 0 ⟨u, rfl⟩
  have hrun := hdone.move 0 ⟨u, rfl⟩
  have hexclusive := requests_exclusive hrun
  exact ⟨_, _, _, hrun, rfl, rfl, rfl, hexclusive.2.2.2.2.1 0 _ _ rfl,
    fun t huses => hexclusive.1 t 0 huses trivial⟩

end LhdSoftc
