import AzureSpider.Dev.Emufs

/-!
# The counts of the vnodes of emufs

`Sound` is what holds of the vnodes at every moment, and `Relies` what a thread relies on at its
place in the code: who holds the lock of the device, who drops the last reference to a vnode,
and that nobody can get a reference to a vnode whose handle is being closed.
-/

open Routine

namespace Emufs

variable {s s' : Emufs} {t u : Tid} {a : Choice} {pc pc' : Pc} {v : ℕ} {ev : EmuVnode}

/-! ### What the threads rely on -/

/-- The vnodes in `ef_vnodes` have different handles and are referred to, the count of a vnode
is the number of references to it, one of which may be being dropped, and a vnode that is not in
`ef_vnodes` has no references and has been closed. -/
structure Sound (s : Emufs) : Prop where
  nodup : s.efVnodes.Nodup
  made : ∀ v ∈ s.efVnodes, v < s.vnodes.length
  handles : ∀ {v w : ℕ} {ev ew : EmuVnode}, v ∈ s.efVnodes → w ∈ s.efVnodes →
    s.vnodes[v]? = some ev → s.vnodes[w]? = some ew → ev.handle = ew.handle → v = w
  counted : ∀ {v : ℕ} {ev : EmuVnode}, s.vnodes[v]? = some ev →
    ev.refcount = ev.handed + (if ev.dropper = none then 0 else 1)
  positive : ∀ {v : ℕ} {ev : EmuVnode}, v ∈ s.efVnodes → s.vnodes[v]? = some ev → 0 < ev.refcount
  gone : ∀ {v : ℕ} {ev : EmuVnode}, v ∉ s.efVnodes → s.vnodes[v]? = some ev →
    ev.handed = 0 ∧ ev.closed = true

/-- The places where a thread holds `e_lock`. -/
def Pc.locks : Pc → Bool
  | .found _ => true
  | .closing _ => true
  | .closed _ => true
  | _ => false

/-- The vnode to which a thread drops the last reference. -/
def Pc.drops : Pc → Option ℕ
  | .reclaim v => some v
  | .closing v => some v
  | .closed v => some v
  | .kill v => some v
  | _ => none

/-- What is known of the vnode at a place. -/
def Place (s : Emufs) : Pc → Prop
  | .found v => v ∈ s.efVnodes
  | .reclaim v => v ∈ s.efVnodes
  | .closing v => v ∈ s.efVnodes ∧ ∀ ev, s.vnodes[v]? = some ev → ev.handed = 0
  | .closed v => v ∈ s.efVnodes ∧ ∀ ev, s.vnodes[v]? = some ev → ev.handed = 0 ∧ ev.closed = true
  | .kill v => v ∉ s.efVnodes
  | _ => True

/-- What a thread relies on. -/
structure Relies (t : Tid) (s : Emufs) (pc : Pc) : Prop where
  lock : s.eLock = some t ↔ pc.locks = true
  dropper : ∀ {v : ℕ} {ev : EmuVnode}, s.vnodes[v]? = some ev →
    (ev.dropper = some t ↔ pc.drops = some v)
  made : ∀ {v : ℕ}, pc.drops = some v → v < s.vnodes.length
  place : Place s pc

theorem sound_init :
  init.shared.Sound
  := by
  constructor <;> simp [init]

theorem relies_init (t : Tid) :
  Relies t init.shared (init.pc t)
  := by
  constructor <;> simp [init, Pc.locks, Pc.drops, Place]

/-! ### Changes of a vnode -/

variable {f : EmuVnode → EmuVnode}

/-- A vnode after a change. -/
theorem getElem?_modify_some {l : List EmuVnode} {w : ℕ} {ew : EmuVnode}
    (h : (l.modify v f)[w]? = some ew) :
  ∃ ev, l[w]? = some ev ∧ ((v = w ∧ ew = f ev) ∨ (v ≠ w ∧ ew = ev))
  := by
  rw [List.getElem?_modify, Option.map_eq_map, Option.map_eq_some_iff] at h
  obtain ⟨ev, hev, rfl⟩ := h
  use ev, hev
  by_cases hv : v = w
  · left
    exact ⟨hv, by rw [if_pos hv]⟩
  · right
    exact ⟨hv, by rw [if_neg hv]⟩

/-- The vnodes after a new one. -/
theorem getElem?_concat_some {l : List EmuVnode} {a ew : EmuVnode} {w : ℕ}
    (h : (l ++ [a])[w]? = some ew) :
  l[w]? = some ew ∨ (w = l.length ∧ ew = a)
  := by
  rcases Nat.lt_trichotomy w l.length with hlt | rfl | hgt
  · rw [List.getElem?_append_left hlt] at h
    exact .inl h
  · rw [List.getElem?_concat_length] at h
    exact .inr ⟨rfl, (Option.some.inj h).symm⟩
  · rw [List.getElem?_eq_none (by simp; omega)] at h
    cases h

variable {o : Option Tid}

/-- A change of one vnode and of the owner of the lock. -/
theorem Sound.touch (h : s.Sound)
    (hf : ∀ ev, s.vnodes[v]? = some ev → (f ev).handle = ev.handle
      ∧ (f ev).refcount = (f ev).handed + (if (f ev).dropper = none then 0 else 1)
      ∧ (v ∈ s.efVnodes → 0 < (f ev).refcount)
      ∧ (v ∉ s.efVnodes → (f ev).handed = 0 ∧ (f ev).closed = true)) :
  Sound ⟨s.vnodes.modify v f, s.efVnodes, o⟩
  := by
  have hhandle : ∀ {w : ℕ} {ew : EmuVnode}, (s.vnodes.modify v f)[w]? = some ew →
      ∃ ev, s.vnodes[w]? = some ev ∧ ew.handle = ev.handle := by
    intro w ew hw
    obtain ⟨ev, hev, ⟨rfl, rfl⟩ | ⟨-, rfl⟩⟩ := getElem?_modify_some hw
    · exact ⟨ev, hev, (hf ev hev).1⟩
    · exact ⟨_, hev, rfl⟩
  constructor
  · exact h.nodup
  · intro w hw
    rw [List.length_modify]
    exact h.made w hw
  · intro w w' ew ew' hmem hmem' hw hw' heq
    obtain ⟨ev, hev, hh⟩ := hhandle hw
    obtain ⟨ev', hev', hh'⟩ := hhandle hw'
    apply h.handles hmem hmem' hev hev'
    rw [← hh, ← hh', heq]
  · intro w ew hw
    obtain ⟨ev, hev, ⟨rfl, rfl⟩ | ⟨-, rfl⟩⟩ := getElem?_modify_some hw
    · exact (hf ev hev).2.1
    · exact h.counted hev
  · intro w ew hmem hw
    obtain ⟨ev, hev, ⟨rfl, rfl⟩ | ⟨-, rfl⟩⟩ := getElem?_modify_some hw
    · exact (hf ev hev).2.2.1 hmem
    · exact h.positive hmem hev
  · intro w ew hmem hw
    obtain ⟨ev, hev, ⟨rfl, rfl⟩ | ⟨-, rfl⟩⟩ := getElem?_modify_some hw
    · exact (hf ev hev).2.2.2 hmem
    · exact h.gone hmem hev

/-- A change that a thread does not notice. -/
theorem Relies.touch (h : Relies u s pc) (hlock : o = some u ↔ s.eLock = some u)
    (hdropper : ∀ ev, s.vnodes[v]? = some ev → ((f ev).dropper = some u ↔ ev.dropper = some u))
    (hplace : pc.locks = true → ∀ ev, s.vnodes[v]? = some ev → ev.handed = 0 →
      (f ev).handed = 0 ∧ (ev.closed = true → (f ev).closed = true)) :
  Relies u ⟨s.vnodes.modify v f, s.efVnodes, o⟩ pc
  := by
  constructor
  · exact hlock.trans h.lock
  · intro w ew hw
    obtain ⟨ev, hev, ⟨rfl, rfl⟩ | ⟨-, rfl⟩⟩ := getElem?_modify_some hw
    · exact (hdropper ev hev).trans (h.dropper hev)
    · exact h.dropper hev
  · rw [List.length_modify]
    exact h.made
  · have hp := h.place
    cases pc with
    | closing w =>
      constructor
      · exact hp.1
      · intro ew hw
        obtain ⟨ev, hev, ⟨rfl, rfl⟩ | ⟨-, rfl⟩⟩ := getElem?_modify_some hw
        · exact (hplace rfl ev hev (hp.2 ev hev)).1
        · exact hp.2 _ hev
    | closed w =>
      constructor
      · exact hp.1
      · intro ew hw
        obtain ⟨ev, hev, ⟨rfl, rfl⟩ | ⟨-, rfl⟩⟩ := getElem?_modify_some hw
        · obtain ⟨hhanded, hclosed⟩ := hp.2 ev hev
          obtain ⟨hhanded', hclosed'⟩ := hplace rfl ev hev hhanded
          exact ⟨hhanded', hclosed' hclosed⟩
        · exact hp.2 _ hev
    | idle | opened | found | failed | reclaim | kill => exact hp

/-- Two threads do not hold the lock. -/
theorem Relies.not_locks (h : Relies t s pc) (hpc : pc.locks = true) (h' : Relies u s pc')
    (hne : u ≠ t) :
  pc'.locks = false
  := by
  by_contra hlocks
  rw [Bool.not_eq_false] at hlocks
  have ht := h.lock.mpr hpc
  have hu := h'.lock.mpr hlocks
  rw [ht] at hu
  exact hne (Option.some.inj hu).symm

/-! ### What a step does -/

/-- The hardware closes a handle, after at most ten errors. -/
def Closes (code : ℕ → EmuResult) : Prop :=
  ∃ i ≤ 10, code i = .success ∧ ∀ j < i, code j = .media ∨ code j = .unknown

/-- A reclaim finds the count that `vnode_decref` has found, and the hardware closes what it is
asked to close. -/
def inTime : Condition := fun s pc a =>
  match pc with
  | .reclaim v => ∀ ev, s.vnodes[v]? = some ev → ev.refcount = 1
  | .closing _ => Closes a.close
  | _ => True

/-- What a step in time can do. -/
inductive Effect (t : Tid) (s : Emufs) : Pc → Emufs → Pc → Prop
  | quiet {pc pc' : Pc} (hlocks : pc.locks = false) (hdrops : pc.drops = none)
      (hlocks' : pc'.locks = false) (hdrops' : pc'.drops = none) (hplace : Place s pc') :
      Effect t s pc s pc'
  | find {handle v : ℕ} (hfree : s.eLock = none) (hv : v ∈ s.efVnodes) :
      Effect t s (.opened handle) { s with eLock := some t } (.found v)
  | make {handle : ℕ}
      (hnew : ∀ v ∈ s.efVnodes, ∀ ev, s.vnodes[v]? = some ev → ev.handle ≠ handle) :
      Effect t s (.opened handle) ⟨s.vnodes ++ [⟨handle, 1, 1, none, false⟩],
        s.efVnodes ++ [s.vnodes.length], s.eLock⟩ .idle
  | load {v : ℕ} :
      Effect t s (.found v) ⟨s.vnodes.modify v fun ev =>
        { ev with refcount := ev.refcount + 1, handed := ev.handed + 1 }, s.efVnodes, none⟩ .idle
  | incref {v : ℕ} (href : ∀ ev, s.vnodes[v]? = some ev → ev.handed ≠ 0) :
      Effect t s .idle ⟨s.vnodes.modify v fun ev =>
        { ev with refcount := ev.refcount + 1, handed := ev.handed + 1 }, s.efVnodes,
        s.eLock⟩ .idle
  | decref {v : ℕ} (href : ∀ ev, s.vnodes[v]? = some ev → ev.handed ≠ 0)
      (hcount : ∀ ev, s.vnodes[v]? = some ev → 1 < ev.refcount) :
      Effect t s .idle ⟨s.vnodes.modify v fun ev =>
        { ev with refcount := ev.refcount - 1, handed := ev.handed - 1 }, s.efVnodes,
        s.eLock⟩ .idle
  | last {v : ℕ} {ev : EmuVnode} (hev : s.vnodes[v]? = some ev) (href : ev.handed ≠ 0)
      (hcount : ev.refcount = 1) :
      Effect t s .idle ⟨s.vnodes.modify v fun ev =>
        { ev with handed := ev.handed - 1, dropper := some t }, s.efVnodes, s.eLock⟩ (.reclaim v)
  | check {v : ℕ} (hfree : s.eLock = none)
      (hcount : ∀ ev, s.vnodes[v]? = some ev → ev.refcount = 1) :
      Effect t s (.reclaim v) { s with eLock := some t } (.closing v)
  | close {v : ℕ} :
      Effect t s (.closing v) ⟨s.vnodes.modify v fun ev => { ev with closed := true }, s.efVnodes,
        s.eLock⟩ (.closed v)
  | remove {v : ℕ} :
      Effect t s (.closed v) ⟨s.vnodes, s.efVnodes.erase v, none⟩ (.kill v)
  | kill {v : ℕ} :
      Effect t s (.kill v) ⟨s.vnodes.modify v fun ev =>
        { ev with refcount := 0, dropper := none }, s.efVnodes, s.eLock⟩ .idle

section Returns

variable {code : ℕ → EmuResult}

theorem wlp_awaitLock (h : s.eLock = none → Q () s) :
  wlp (fun _ => True) awaitLock s Q (fun _ _ => True)
  := by
  simp only [awaitLock, wlp_bind, wlp_get, wlp_ite, wlp_pure, wlp_fail]
  exact ⟨h, fun _ => trivial⟩

theorem wlp_getVnode (h : ∀ ev, s.vnodes[v]? = some ev → Q ev s) :
  wlp (fun _ => True) (getVnode v) s Q (fun _ _ => True)
  := by
  simp only [getVnode, wlp_bind, wlp_get]
  cases hev : s.vnodes[v]? with
  | none => trivial
  | some ev => exact h ev hev

theorem wlp_getReferenced (h : ∀ ev, s.vnodes[v]? = some ev → ev.handed ≠ 0 → Q ev s) :
  wlp (fun _ => True) (getReferenced v) s Q (fun _ _ => True)
  := by
  simp only [getReferenced, wlp_bind, wlp_ite, wlp_pure, wlp_fail]
  apply wlp_getVnode
  intro ev hev
  exact ⟨fun _ => trivial, h ev hev⟩

theorem wlp_translateErr {code : EmuResult} (h : ∀ r, Q r s) :
  wlp (fun _ => True) (translateErr code) s Q (fun _ _ => True)
  := by
  cases code <;> first | exact h _ | trivial

theorem wlp_emuCloseFrom {retries i : ℕ} (h : ∀ r, Q r s) :
  wlp (fun _ => True) (emuCloseFrom code retries i) s Q (fun _ _ => True)
  := by
  induction retries generalizing i with
  | zero => exact wlp_translateErr h
  | succ retries ih =>
    simp only [emuCloseFrom, wlp_bind, wlp_ite, wlp_pure]
    apply wlp_translateErr
    intro r
    exact ⟨fun _ => ih, fun _ => h r⟩

/-- The attempts before the one that succeeds are made. -/
theorem emuCloseFrom_of_success {retries i n : ℕ} (hn : n ≤ retries)
    (hsuccess : code (i + n) = .success)
    (hretry : ∀ j < n, code (i + j) = .media ∨ code (i + j) = .unknown) :
  emuCloseFrom code retries i s = .ok none s
  := by
  induction n generalizing i retries with
  | zero =>
    rw [Nat.add_zero] at hsuccess
    cases retries with
    | zero => simp [emuCloseFrom, hsuccess, translateErr, pure, Routine.return']
    | succ retries => simp [emuCloseFrom, hsuccess, translateErr, bind_eq_ok]
  | succ n ih =>
    cases retries with
    | zero => cases hn
    | succ retries =>
      have hrest : emuCloseFrom code retries (i + 1) s = .ok none s := by
        apply ih (Nat.le_of_succ_le_succ hn)
        · rw [Nat.add_right_comm]
          exact hsuccess
        · intro j hj
          rw [Nat.add_right_comm]
          exact hretry (j + 1) (Nat.succ_lt_succ hj)
      have hcode := hretry 0 (Nat.succ_pos n)
      rw [Nat.add_zero] at hcode
      rcases hcode with hcode | hcode <;>
        simp [emuCloseFrom, hcode, translateErr, bind_eq_ok, hrest]

theorem Closes.emuClose (h : Closes code) :
  emuClose code s = .ok none s
  := by
  obtain ⟨n, hn, hsuccess, hretry⟩ := h
  apply emuCloseFrom_of_success hn
  · rw [Nat.zero_add]
    exact hsuccess
  · intro j hj
    rw [Nat.zero_add]
    exact hretry j hj

theorem hasHandle_iff {handle : ℕ} :
  s.hasHandle handle v = true ↔ ∃ ev, s.vnodes[v]? = some ev ∧ ev.handle = handle
  := by
  unfold hasHandle
  cases s.vnodes[v]? with
  | none | some => simp

end Returns

/-- Every step in time has one of the effects. -/
theorem step_effect (t : Tid) (hallow : inTime s pc a) :
  wlp (fun _ => True) (step t a pc) s (fun pc' s' => Effect t s pc s' pc') (fun _ _ => True)
  := by
  cases pc with
  | idle =>
    simp only [step]
    cases a.call with
    | lookup =>
      simp only [emuOpen, wlp_bind]
      apply wlp_awaitLock
      intro _
      apply wlp_translateErr
      intro result
      cases result with
      | none | some => exact .quiet rfl rfl rfl rfl trivial
    | incref v =>
      simp only [wlp_bind]
      apply wlp_getReferenced
      intro ev hev href
      exact .incref (by simp [hev, href])
    | decref v =>
      simp only [vnodeDecref, wlp_bind, wlp_assert, wlp_ite]
      apply wlp_getReferenced
      intro ev hev href
      refine ⟨fun hpos => ⟨fun hcount => .decref (by simp [hev, href]) (by simp [hev, hcount]),
        fun hcount => ?_⟩, fun _ => trivial⟩
      exact .last hev href (by omega)
  | opened handle =>
    simp only [step, loadvnode, wlp_bind, wlp_get]
    apply wlp_awaitLock
    intro hfree
    cases hfind : s.efVnodes.find? (s.hasHandle handle) with
    | some v => exact .find hfree (List.mem_of_find?_eq_some hfind)
    | none =>
      rw [wlp_ite]
      refine ⟨fun _ => .make ?_, fun _ => .quiet rfl rfl rfl rfl trivial⟩
      intro v hv ev hev hhandle
      have hnone := List.find?_eq_none.mp hfind v hv
      exact hnone (hasHandle_iff.mpr ⟨ev, hev, hhandle⟩)
  | found v => exact .load
  | failed handle =>
    simp only [step, wlp_bind]
    apply wlp_awaitLock
    intro _
    apply wlp_emuCloseFrom
    intro _
    exact .quiet rfl rfl rfl rfl trivial
  | reclaim v =>
    simp only [step, reclaimCheck, wlp_bind]
    apply wlp_awaitLock
    intro hfree
    apply wlp_getVnode
    intro ev hev
    rw [if_neg (not_not.mpr (hallow ev hev))]
    exact .check hfree hallow
  | closing v =>
    simp only [step, reclaimClose, wlp_bind]
    exact wlp_of_wp (wp_of_ok (Closes.emuClose hallow) .close)
  | closed v =>
    simp only [step, reclaimRemove, wlp_bind, wlp_get, wlp_assert]
    exact ⟨fun _ => .remove, fun _ => trivial⟩
  | kill v =>
    simp only [step, reclaimKill, wlp_bind, wlp_assert]
    apply wlp_getVnode
    intro ev _
    exact ⟨fun _ => .kill, fun _ => trivial⟩

/-! ### What a step keeps -/

theorem Relies.of_eq (h : Relies t s pc) {l : List ℕ} (hdrops : pc'.drops = pc.drops)
    (hlock : o = some t ↔ pc'.locks = true) (hplace : Place ⟨s.vnodes, l, o⟩ pc') :
  Relies t ⟨s.vnodes, l, o⟩ pc'
  := by
  constructor
  · exact hlock
  · intro v ev hev
    rw [hdrops]
    exact h.dropper hev
  · rw [hdrops]
    exact h.made
  · exact hplace

/-- Another thread takes the lock, which nobody has. -/
theorem Relies.take (h : Relies u s pc) (hfree : s.eLock = none) (hne : u ≠ t) :
  Relies u { s with eLock := some t } pc
  := by
  apply h.of_eq rfl
  · rw [← h.lock, hfree]
    simp [hne.symm]
  · have hplace := h.place
    cases pc <;> exact hplace

/-- The number of references to a vnode in `ef_vnodes` that is not being dropped. -/
theorem Sound.mem_of_handed (h : s.Sound) (hev : s.vnodes[v]? = some ev) (href : ev.handed ≠ 0) :
  v ∈ s.efVnodes
  := by
  by_contra hv
  exact href (h.gone hv hev).1

theorem Sound.make (h : s.Sound) {handle : ℕ}
    (hnew : ∀ v ∈ s.efVnodes, ∀ ev, s.vnodes[v]? = some ev → ev.handle ≠ handle) :
  Sound ⟨s.vnodes ++ [⟨handle, 1, 1, none, false⟩], s.efVnodes ++ [s.vnodes.length], s.eLock⟩
  := by
  have hmem : ∀ {w : ℕ}, w ∈ s.efVnodes ++ [s.vnodes.length] →
      w ∈ s.efVnodes ∨ w = s.vnodes.length := by
    intro w hw
    simpa using hw
  have hlen : ∀ {w : ℕ} {ew : EmuVnode}, s.vnodes[w]? = some ew → w ≠ s.vnodes.length := by
    rintro w ew hw rfl
    simp at hw
  constructor
  · apply List.nodup_append.mpr ⟨h.nodup, by simp, ?_⟩
    intro v hv w hw
    have hlt := h.made v hv
    simp only [List.mem_singleton] at hw
    omega
  · intro v hv
    simp only [List.length_append, List.length_singleton]
    rcases hmem hv with hv | rfl
    · have hlt := h.made v hv
      omega
    · omega
  · intro v w ev ew hv hw hev hew heq
    rcases getElem?_concat_some hev with hev | ⟨rfl, rfl⟩
    · have hv' := (hmem hv).resolve_right (hlen hev)
      rcases getElem?_concat_some hew with hew | ⟨rfl, rfl⟩
      · have hw' := (hmem hw).resolve_right (hlen hew)
        exact h.handles hv' hw' hev hew heq
      · exact absurd heq (hnew v hv' ev hev)
    · rcases getElem?_concat_some hew with hew | ⟨rfl, rfl⟩
      · have hw' := (hmem hw).resolve_right (hlen hew)
        exact absurd heq.symm (hnew w hw' ew hew)
      · rfl
  · intro v ev hev
    rcases getElem?_concat_some hev with hev | ⟨rfl, rfl⟩
    · exact h.counted hev
    · rfl
  · intro v ev hv hev
    rcases getElem?_concat_some hev with hev | ⟨rfl, rfl⟩
    · exact h.positive ((hmem hv).resolve_right (hlen hev)) hev
    · exact Nat.one_pos
  · intro v ev hv hev
    rcases getElem?_concat_some hev with hev | ⟨rfl, rfl⟩
    · apply h.gone _ hev
      intro hmem'
      exact hv (List.mem_append_left _ hmem')
    · simp at hv

/-- The vnode whose handle is closed leaves `ef_vnodes`. -/
theorem Sound.remove (h : s.Sound)
    (hv : ∀ ev, s.vnodes[v]? = some ev → ev.handed = 0 ∧ ev.closed = true) (o : Option Tid) :
  Sound ⟨s.vnodes, s.efVnodes.erase v, o⟩
  := by
  have hmem : ∀ {w : ℕ}, w ∈ s.efVnodes.erase v → w ∈ s.efVnodes := List.mem_of_mem_erase
  constructor
  · exact h.nodup.erase v
  · intro w hw
    exact h.made w (hmem hw)
  · intro w w' ew ew' hw hw'
    exact h.handles (hmem hw) (hmem hw')
  · exact h.counted
  · intro w ew hw
    exact h.positive (hmem hw)
  · intro w ew hw hew
    by_cases hwv : w = v
    · subst hwv
      exact hv ew hew
    · apply h.gone _ hew
      intro hmem'
      exact hw ((List.mem_erase_of_ne hwv).mpr hmem')

/-- The shared state after a step. -/
theorem Effect.sound (he : Effect t s pc s' pc') (h : s.Sound) (hown : Relies t s pc) :
  s'.Sound
  := by
  cases he with
  | quiet => exact h
  | find | check => exact { h with }
  | make hnew => exact h.make hnew
  | load =>
    apply h.touch
    intro ev hev
    have hcounted := h.counted hev
    refine ⟨rfl, ?_, fun _ => Nat.succ_pos _, fun hv => absurd hown.place hv⟩
    dsimp only
    omega
  | incref href =>
    apply h.touch
    intro ev hev
    have hcounted := h.counted hev
    refine ⟨rfl, ?_, fun _ => Nat.succ_pos _, fun hv => absurd (h.gone hv hev).1 (href ev hev)⟩
    dsimp only
    omega
  | decref href hcount =>
    apply h.touch
    intro ev hev
    have hcounted := h.counted hev
    have hhanded := href ev hev
    refine ⟨rfl, ?_, fun _ => Nat.sub_pos_of_lt (hcount ev hev),
      fun hv => absurd (h.gone hv hev).1 hhanded⟩
    dsimp only
    omega
  | @last v ev₀ hev href hcount =>
    apply h.touch
    intro ev hev'
    obtain rfl : ev₀ = ev := Option.some.inj (hev.symm.trans hev')
    have hcounted := h.counted hev
    refine ⟨rfl, ?_, ?_, fun hv => absurd (h.mem_of_handed hev href) hv⟩
    · simp only [reduceCtorEq, if_false]
      omega
    · intro hv
      have hpos := h.positive hv hev
      exact hpos
  | close =>
    apply h.touch
    intro ev hev
    have hcounted := h.counted hev
    have hpos := h.positive hown.place.1 hev
    exact ⟨rfl, hcounted, fun _ => hpos, fun hv => absurd hown.place.1 hv⟩
  | remove => exact h.remove hown.place.2 none
  | kill =>
    apply h.touch
    intro ev hev
    have hgone := h.gone hown.place hev
    refine ⟨rfl, ?_, fun hv => absurd hv hown.place, fun _ => hgone⟩
    simp only [if_true]
    rw [hgone.1]

/-- A thread that is outside of the functions. -/
theorem relies_idle (hlock : s.eLock ≠ some t)
    (hdropper : ∀ (v : ℕ) (ev : EmuVnode), s.vnodes[v]? = some ev → ev.dropper ≠ some t) :
  Relies t s .idle
  := by
  constructor
  · simp [hlock, Pc.locks]
  · intro v ev hev
    simp [hdropper v ev hev, Pc.drops]
  · simp [Pc.drops]
  · trivial

/-- A thread at a place where it drops no reference. -/
theorem Relies.dropper_ne (h : Relies t s pc) (hdrops : pc.drops = none)
    (hev : s.vnodes[v]? = some ev) :
  ev.dropper ≠ some t
  := by
  rw [Ne, h.dropper hev, hdrops]
  simp

theorem Relies.lock_ne (h : Relies t s pc) (hlocks : pc.locks = false) :
  s.eLock ≠ some t
  := by
  rw [Ne, h.lock, hlocks]
  simp

/-- A thread that is outside of the functions after it has changed a count. -/
theorem Relies.count (h : Relies t s pc) (hdrops : pc.drops = none)
    (hlock : o ≠ some t) (hf : ∀ ev, (f ev).dropper = ev.dropper) :
  Relies t ⟨s.vnodes.modify v f, s.efVnodes, o⟩ .idle
  := by
  apply relies_idle
  · exact hlock
  · intro w ew hw
    obtain ⟨ev, hev, ⟨-, rfl⟩ | ⟨-, rfl⟩⟩ := getElem?_modify_some hw
    · rw [hf]
      exact h.dropper_ne hdrops hev
    · exact h.dropper_ne hdrops hev

/-- What the thread that makes a step relies on after it. -/
theorem Effect.own (he : Effect t s pc s' pc') (h : s.Sound) (hown : Relies t s pc) :
  Relies t s' pc'
  := by
  cases he with
  | quiet hlocks hdrops hlocks' hdrops' hplace =>
    apply hown.of_eq (hdrops'.trans hdrops.symm) _ hplace
    rw [hlocks', ← hlocks]
    exact hown.lock
  | find hfree hv => exact hown.of_eq rfl (by simp [Pc.locks]) hv
  | make hnew =>
    apply relies_idle
    · exact hown.lock_ne rfl
    · intro v ev hev
      rcases getElem?_concat_some hev with hev | ⟨-, rfl⟩
      · exact hown.dropper_ne rfl hev
      · simp
  | load => exact hown.count rfl (by simp) (fun _ => rfl)
  | incref | decref => exact hown.count rfl (hown.lock_ne rfl) (fun _ => rfl)
  | @last v ev₀ hev href hcount =>
    constructor
    · simp [hown.lock, Pc.locks]
    · intro w ew hw
      obtain ⟨ev, hev', ⟨rfl, rfl⟩ | ⟨hne, rfl⟩⟩ := getElem?_modify_some hw
      · simp [Pc.drops]
      · simp [hown.dropper_ne rfl hev', Pc.drops, hne]
    · intro w hw
      obtain rfl : v = w := Option.some.inj hw
      rw [List.length_modify]
      exact h.made v (h.mem_of_handed hev href)
    · exact h.mem_of_handed hev href
  | check hfree hcount =>
    refine hown.of_eq rfl (by simp [Pc.locks]) ⟨hown.place, ?_⟩
    intro ev hev
    -- the thread drops the only reference that the count counts
    have hcounted := h.counted hev
    have hdropper := (hown.dropper hev).mpr rfl
    rw [hdropper, hcount ev hev] at hcounted
    simpa using hcounted
  | close =>
    constructor
    · exact hown.lock
    · intro w ew hw
      obtain ⟨ev, hev, ⟨rfl, rfl⟩ | ⟨hne, rfl⟩⟩ := getElem?_modify_some hw
      · have hdropper := hown.dropper hev
        exact hdropper
      · exact hown.dropper hev
    · rw [List.length_modify]
      exact hown.made
    · use hown.place.1
      intro ew hw
      obtain ⟨ev, hev, ⟨-, rfl⟩ | ⟨hne, -⟩⟩ := getElem?_modify_some hw
      · exact ⟨hown.place.2 ev hev, rfl⟩
      · exact absurd rfl hne
  | remove => exact hown.of_eq rfl (by simp [Pc.locks]) h.nodup.not_mem_erase
  | @kill v =>
    apply relies_idle
    · exact hown.lock_ne rfl
    · intro w ew hw
      obtain ⟨ev, hev, ⟨-, rfl⟩ | ⟨hne, rfl⟩⟩ := getElem?_modify_some hw
      · simp
      · rw [Ne, hown.dropper hev]
        simpa [Pc.drops] using hne

/-- A new vnode is not one that a thread drops. -/
theorem Relies.make (h : Relies u s pc) {ev : EmuVnode} (hev : ev.dropper = none) :
  Relies u ⟨s.vnodes ++ [ev], s.efVnodes ++ [s.vnodes.length], s.eLock⟩ pc
  := by
  have hmade : ∀ {w : ℕ}, pc.drops = some w → w ≠ s.vnodes.length := by
    rintro w hw rfl
    exact absurd (h.made hw) (Nat.lt_irrefl _)
  constructor
  · exact h.lock
  · intro w ew hw
    rcases getElem?_concat_some hw with hw | ⟨rfl, rfl⟩
    · exact h.dropper hw
    · rw [hev]
      constructor
      · intro hnone
        cases hnone
      · intro hdrops
        exact absurd rfl (hmade hdrops)
  · intro w hw
    have hlt := h.made hw
    simp only [List.length_append, List.length_singleton]
    omega
  · have hp := h.place
    cases pc with
    | idle | opened | failed => trivial
    | found | reclaim => exact List.mem_append_left _ hp
    | closing | closed =>
      use List.mem_append_left _ hp.1
      intro ew hw
      rcases getElem?_concat_some hw with hw | ⟨rfl, -⟩
      · exact hp.2 ew hw
      · exact absurd rfl (hmade rfl)
    | kill w =>
      intro hw
      rcases List.mem_append.mp hw with hw | hw
      · exact hp hw
      · exact hmade rfl (List.mem_singleton.mp hw)

/-- A vnode leaves `ef_vnodes`. -/
theorem Relies.remove (h : Relies u s pc) (hlocks : pc.locks = false) (hdrops : pc.drops ≠ some v) :
  Relies u ⟨s.vnodes, s.efVnodes.erase v, none⟩ pc
  := by
  apply h.of_eq rfl (by simp [hlocks])
  have hp := h.place
  cases pc with
  | idle | opened | failed => trivial
  | found | closing | closed => cases hlocks
  | reclaim w =>
    apply (List.mem_erase_of_ne _).mpr hp
    rintro rfl
    exact hdrops rfl
  | kill w => exact fun hw => hp (List.mem_of_mem_erase hw)

/-- What the other threads rely on after a step. -/
theorem Effect.other (he : Effect t s pc s' pc') (h : s.Sound) (hown : Relies t s pc)
    {k : Pc} (hother : Relies u s k) (hne : u ≠ t) :
  Relies u s' k
  := by
  cases he with
  | quiet => exact hother
  | find hfree | check hfree => exact hother.take hfree hne
  | make hnew => exact hother.make rfl
  | load =>
    have hlocks := hown.not_locks rfl hother hne
    apply hother.touch
    · simp [hother.lock, hlocks]
    · intro ev hev
      rfl
    · intro hk
      rw [hlocks] at hk
      cases hk
  | incref href | decref href =>
    apply hother.touch Iff.rfl
    · intro ev hev
      rfl
    · intro _ ev hev hzero
      exact absurd hzero (href ev hev)
  | @last v ev₀ hev href hcount =>
    apply hother.touch Iff.rfl
    · intro ev hev'
      obtain rfl : ev₀ = ev := Option.some.inj (hev.symm.trans hev')
      -- the count counts only the reference that the thread has
      have hnone : ev₀.dropper = none := by
        have hcounted := h.counted hev
        by_contra hsome
        rw [if_neg hsome] at hcounted
        omega
      simp [hnone, hne.symm]
    · intro _ ev hev' hzero
      obtain rfl : ev₀ = ev := Option.some.inj (hev.symm.trans hev')
      exact absurd hzero href
  | close =>
    apply hother.touch Iff.rfl
    · intro ev hev
      rfl
    · intro _ ev hev hzero
      exact ⟨hzero, fun _ => rfl⟩
  | @remove v =>
    have hlocks := hown.not_locks rfl hother hne
    apply hother.remove hlocks
    intro hdrops
    have hev := List.getElem?_eq_getElem (hother.made hdrops)
    have ht := (hown.dropper hev).mpr rfl
    have hu := (hother.dropper hev).mpr hdrops
    rw [ht] at hu
    exact hne (Option.some.inj hu).symm
  | kill =>
    apply hother.touch Iff.rfl
    · intro ev hev
      have ht := (hown.dropper hev).mpr rfl
      simp [ht, hne.symm]
    · intro _ ev hev hzero
      exact ⟨hzero, fun hclosed => hclosed⟩

/-! ### Runs -/

/-- Steps in time keep what holds of the vnodes and what the threads rely on. -/
theorem keeps_sound :
  (moves inTime).Keeps Sound Relies
  := by
  constructor
  · rintro c t s l hc ⟨a, hallow, hstep⟩
    have he := wlp_ok (step_effect t hallow) hstep
    exact ⟨he.sound hc.shared (hc.local' t), he.own hc.shared (hc.local' t),
      fun u => he.other hc.shared (hc.local' t) (hc.local' u)⟩
  · intro c s _ henv
    exact henv.elim

/-- Along every run whose steps are in time, and whenever no call is in progress: the count of
every vnode in `ef_vnodes` is the number of references to it that are out, no two of them have
one handle, and a vnode without references is not in `ef_vnodes`, and its handle has been
closed. -/
theorem references_counted {c : Interleaved Tid Emufs Pc}
    (hrun : (moves inTime).Reaches init c) (hquiet : Quiescent c) :
  (∀ v ∈ c.shared.efVnodes, ∃ ev, c.shared.vnodes[v]? = some ev ∧ ev.refcount = ev.handed)
  ∧ (c.shared.efVnodes.Nodup
    ∧ ∀ v ∈ c.shared.efVnodes, ∀ w ∈ c.shared.efVnodes, ∀ ev ew,
      c.shared.vnodes[v]? = some ev → c.shared.vnodes[w]? = some ew →
        ev.handle = ew.handle → v = w)
  ∧ ∀ v ev, c.shared.vnodes[v]? = some ev → ev.handed = 0 →
    v ∉ c.shared.efVnodes ∧ ev.closed = true
  := by
  have hholds := keeps_sound.reaches ⟨sound_init, relies_init⟩ hrun
  have hsound := hholds.shared
  -- no thread drops a reference
  have hcount : ∀ {v : ℕ} {ev : EmuVnode}, c.shared.vnodes[v]? = some ev →
      ev.refcount = ev.handed := by
    intro v ev hev
    have hcounted := hsound.counted hev
    cases hdropper : ev.dropper with
    | none => simpa [hdropper] using hcounted
    | some t =>
      have hrelies := hholds.local' t
      rw [hquiet t] at hrelies
      exact absurd hdropper (hrelies.dropper_ne rfl hev)
  refine ⟨?_, ⟨hsound.nodup, ?_⟩, ?_⟩
  · intro v hv
    have hev := List.getElem?_eq_getElem (hsound.made v hv)
    exact ⟨_, hev, hcount hev⟩
  · intro v hv w hw ev ew hev hew heq
    exact hsound.handles hv hw hev hew heq
  · intro v ev hev hzero
    have hv : v ∉ c.shared.efVnodes := by
      intro hv
      have hpos := hsound.positive hv hev
      rw [hcount hev, hzero] at hpos
      exact absurd hpos (Nat.lt_irrefl 0)
    exact ⟨hv, (hsound.gone hv hev).2⟩

/-- A choice of a call; the hardware answers with success and the handle `5`, and there is
memory. -/
def Choice.calling (call : Call) : Choice :=
  ⟨call, .success, 5, fun _ => .success, true, true, true⟩

/-- A vnode is looked up, and its reference is dropped. -/
theorem references_counted_dropped :
  ∃ c, (moves inTime).Reaches init c ∧ Quiescent c
    ∧ ∃ ev, c.shared.vnodes[0]? = some ev ∧ ev.handed = 0
      ∧ 0 ∉ c.shared.efVnodes ∧ ev.closed = true
  := by
  have hcloses : Closes (Choice.calling .lookup).close := ⟨0, by decide, rfl, by simp⟩
  have hopen : (moves inTime).Reaches init _ := Moves.Reaches.move .refl 0
    ⟨.calling .lookup, trivial, rfl⟩
  have hload := hopen.move 0 ⟨.calling .lookup, trivial, rfl⟩
  have hdecref := hload.move 0 ⟨.calling (.decref 0), trivial, rfl⟩
  have hcheck := hdecref.move 0 ⟨.calling .lookup, by rintro ev ⟨⟩; rfl, rfl⟩
  have hclose := hcheck.move 0 ⟨.calling .lookup, hcloses, rfl⟩
  have hremove := hclose.move 0 ⟨.calling .lookup, trivial, rfl⟩
  have hrun := hremove.move 0 ⟨.calling .lookup, trivial, rfl⟩
  obtain ⟨c, hc, hquiet, hev⟩ : ∃ c, (moves inTime).Reaches init c ∧ Quiescent c
      ∧ c.shared.vnodes[0]? = some ⟨5, 0, 0, none, true⟩ :=
    ⟨_, hrun, by intro t; simp, rfl⟩
  exact ⟨c, hc, hquiet, _, hev, rfl, (references_counted hc hquiet).2.2 0 _ hev rfl⟩

/-- A vnode is looked up again while its last reference is being dropped: afterwards, one
reference is out, and the count is two. -/
theorem reclaim_keeps_reference :
  ∃ c, (moves anyStep).Reaches init c ∧ Quiescent c ∧ 0 ∈ c.shared.efVnodes
    ∧ ∃ ev, c.shared.vnodes[0]? = some ev ∧ ev.handed = 1 ∧ ev.refcount = 2
  := by
  have hopen : (moves anyStep).Reaches init _ := Moves.Reaches.move .refl 0
    ⟨.calling .lookup, trivial, rfl⟩
  have hload := hopen.move 0 ⟨.calling .lookup, trivial, rfl⟩
  have hdecref := hload.move 0 ⟨.calling (.decref 0), trivial, rfl⟩
  -- the other thread
  have hopen' := hdecref.move 1 ⟨.calling .lookup, trivial, rfl⟩
  have hfound := hopen'.move 1 ⟨.calling .lookup, trivial, rfl⟩
  have hload' := hfound.move 1 ⟨.calling .lookup, trivial, rfl⟩
  have hrun := hload'.move 0 ⟨.calling .lookup, trivial, rfl⟩
  refine ⟨_, hrun, ?_, ?_, _, rfl, rfl, rfl⟩
  · intro t
    by_cases ht : t = 0
    · simp [ht]
    · by_cases ht' : t = 1
      · simp [ht']
      · simp [ht, ht']
  · exact List.mem_cons_self

end Emufs
