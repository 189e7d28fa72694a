import AzureSpider.Vfs.Path

/-!
# The references that the operations on paths take

Over file systems that obey `vnode.h`, the operations on paths give back every reference that
they take: a look-up hands one reference to its caller, an open one reference and one open, the
other operations none, and a failing operation none either.  A change of the current directory
moves the reference that the thread has to it.

`vnode_decref` leaves the count at one if `VOP_RECLAIM` fails.  The failures are in the state of
the file systems: `log w v` says that the vnode `v` could not be let go.  Such a vnode has one
reference that nobody holds.
-/

open Routine

namespace Vfs

/-- A count goes from `n` to `n'` while `g` references are taken and `l` dropped.  One more stays
if all references were gone and the vnode is stuck. -/
def Tally (stuck : Prop) (n g l n' : ℕ) : Prop :=
  n' + l = n + g ∨ stuck ∧ n ≤ l ∧ l ≤ n + g ∧ n' + l = n + g + 1

namespace Tally

variable {P P' : Prop} {n n' n'' g g' l : ℕ} (h : Tally P n g l n')
include h

theorem le :
  n + g ≤ n' + l
  := by
  rcases h with h | h
  · omega
  · omega

theorem mono (himp : P → P') :
  Tally P' n g l n'
  := h.imp_right fun ⟨hp, hrest⟩ => ⟨himp hp, hrest⟩

/-- Two steps.  What the second one drops is counted. -/
theorem comp {l' g₂ l₂ : ℕ} (h' : Tally P n' g' l' n'') (hheld : 0 < l' → l + l' ≤ n + g)
    (hg : g' ≤ g₂) (hl : l ≤ l₂) (heq : g + g' + l₂ = g₂ + (l + l')) :
  Tally P n g₂ l₂ n''
  := by
  rcases h with h | ⟨hp, h⟩
  · rcases h' with h' | ⟨hp, h'⟩
    · exact .inl (by omega)
    · exact .inr ⟨hp, by omega⟩
  · exact .inr ⟨hp, by rcases h' with h' | h' <;> omega⟩

end Tally

variable {W : Type} {log : W → VnodeId → Prop} {s s' s'' : Vfs W} {refs opens : List VnodeId}
  {vn : VnodeId} {α : Type}

/-- What someone holds since `s`: the references `refs` and the opens `opens`. -/
structure Gained (log : W → VnodeId → Prop) (refs opens : List VnodeId) (s s' : Vfs W) :
    Prop where
  refcount : ∀ v, Tally (log s'.world v) (s.refcount v) (refs.count v) 0 (s'.refcount v)
  opencount : ∀ v, s'.opencount v = s.opencount v + opens.count v
  cwd : s'.cwd = s.cwd
  bootfs : s'.bootfs = s.bootfs
  knowndevs : s'.knowndevs = s.knowndevs
  logged : ∀ v, log s.world v → log s'.world v

namespace Gained

theorem refl (s : Vfs W) :
  Gained log [] [] s s
  := ⟨fun _ => .inl rfl, fun _ => rfl, rfl, rfl, rfl, fun _ hv => hv⟩

theorem trans {refs' opens' : List VnodeId} (h : Gained log refs opens s s')
    (h' : Gained log refs' opens' s' s'') :
  Gained log (refs' ++ refs) (opens' ++ opens) s s''
  := by
  constructor
  · intro v
    rw [List.count_append]
    apply ((h.refcount v).mono (h'.logged v)).comp (h'.refcount v) <;> omega
  · intro v
    rw [h'.opencount, h.opencount, List.count_append]
    omega
  · exact h'.cwd.trans h.cwd
  · exact h'.bootfs.trans h.bootfs
  · exact h'.knowndevs.trans h.knowndevs
  · exact fun v hv => h'.logged v (h.logged v hv)

/-- The order of the references does not matter. -/
theorem perm {refs' : List VnodeId} (h : Gained log refs opens s s') (hperm : refs.Perm refs') :
  Gained log refs' opens s s'
  := by
  refine { h with refcount := fun v => ?_ }
  rw [← hperm.count_eq]
  exact h.refcount v

/-- A vnode that someone holds is referenced. -/
theorem pos (h : Gained log refs opens s s') (hvn : vn ∈ refs) :
  0 < s'.refcount vn
  := by
  have hcount := List.count_pos_iff.mpr hvn
  have hle := (h.refcount vn).le
  omega

end Gained

/-- The references that the layer itself holds: to the current directory, to the directory that
`/` stands for, and to the vnodes of the devices. -/
def holders (s : Vfs W) : List VnodeId :=
  s.cwd.toList ++ (s.bootfs.toList ++ s.knowndevs.map KnownDev.vnode)

/-- The references that the layer holds are counted. -/
def Held (s : Vfs W) : Prop := ∀ v, s.holders.count v ≤ s.refcount v

theorem Held.pos (h : s.Held) (hvn : vn ∈ s.holders) :
  0 < s.refcount vn
  := Nat.lt_of_lt_of_le (List.count_pos_iff.mpr hvn) (h vn)

theorem Held.cwd (h : s.Held) (hvn : s.cwd = some vn) :
  0 < s.refcount vn
  := by
  apply h.pos
  simp [holders, hvn]

theorem Held.bootfs (h : s.Held) (hvn : s.bootfs = some vn) :
  0 < s.refcount vn
  := by
  apply h.pos
  simp [holders, hvn]

theorem Held.gained (h : s.Held) (hg : Gained log refs opens s s') :
  s'.Held
  := by
  intro v
  rw [holders, hg.cwd, hg.bootfs, hg.knowndevs]
  exact Nat.le_trans (h v) (Nat.le_trans (Nat.le_add_right _ _) (hg.refcount v).le)

/-! ### What the file systems do -/

/-- The operation changes no count. -/
def Neutral (log : W → VnodeId → Prop) (m : Run W α) : Prop :=
  ∀ s, wp m s (fun _ s' => Gained log [] [] s s') (fun _ s' => Gained log [] [] s s')

/-- The operation hands back one new reference when it succeeds, and none when it fails. -/
def HandsBack (log : W → VnodeId → Prop) (m : Run W α) (vnode : α → VnodeId) : Prop :=
  ∀ s, wp m s (fun a s' => Gained log [vnode a] [] s s') (fun _ s' => Gained log [] [] s s')

/-- The file systems obey `vnode.h` and `fs.h`. -/
structure Obeys (log : W → VnodeId → Prop) (fs : VnodeOps W) : Prop where
  getroot : ∀ f s, wp (fs.getroot f) s (fun v s' => Gained log [v] [] s s')
  lookup : ∀ dir path, HandsBack log (fs.lookup dir path) id
  lookparent : ∀ dir path len, HandsBack log (fs.lookparent dir path len) Prod.fst
  creat : ∀ dir name excl, HandsBack log (fs.creat dir name excl) id
  /-- A vnode is let go with its last reference, or it stays as it is. -/
  reclaim : ∀ vn s, s.refcount vn = 1 →
    wp (fs.reclaim vn) s (fun _ s' => Gained log [] [] (s.setRefcount vn 0) s')
      (fun _ s' => Gained log [] [] s s' ∧ log s'.world vn)
  openFile : ∀ vn flags, Neutral log (fs.openFile vn flags)
  close : ∀ vn, Neutral log (fs.close vn)
  readlink : ∀ vn, Neutral log (fs.readlink vn)
  gettype : ∀ vn, Neutral log (fs.gettype vn)
  truncate : ∀ vn len, Neutral log (fs.truncate vn len)
  symlink : ∀ dir name contents, Neutral log (fs.symlink dir name contents)
  mkdir : ∀ dir name, Neutral log (fs.mkdir dir name)
  link : ∀ dir name file, Neutral log (fs.link dir name file)
  remove : ∀ dir name, Neutral log (fs.remove dir name)
  rmdir : ∀ dir name, Neutral log (fs.rmdir dir name)
  rename : ∀ dir name dir' name', Neutral log (fs.rename dir name dir' name')

/-- A panic that does not come from the counts of a vnode, or from a vnode without
references. -/
def Unrelated (p : VfsPanic) : Prop :=
  p ≠ .vnodeCheck ∧ p ≠ .decrefRefcount ∧ p ≠ .decopenOpencount ∧ p ≠ .unreferenced

/-- A specification that admits the panics that do not come from the counts. -/
abbrev Spec (m : Run W α) (s : Vfs W) (Q : α → Vfs W → Prop) (E : Errno → Vfs W → Prop) : Prop :=
  wlp Unrelated m s Q E

/-- The operation hands back the references `g` when it succeeds, and none when it fails. -/
abbrev Hands (log : W → VnodeId → Prop) (m : Run W α) (s : Vfs W) (g : α → List VnodeId) : Prop :=
  wlp Unrelated m s (fun a s' => Gained log (g a) [] s s') (fun _ s' => Gained log [] [] s s')

/-! ### Counts -/

variable {fs : VnodeOps W}
  {E : Errno → Vfs W → Prop}

theorem touch_spec (h : 0 < s.refcount vn) (hQ : Q () s) :
  Spec (touch vn) s Q E
  := by
  simp only [Spec, touch, wlp_bind, wlp_get, wlp_assert]
  exact ⟨fun _ => hQ, fun hnot => absurd h hnot⟩

variable {m : Run W α}

theorem vop_spec (h : 0 < s.refcount vn) (hm : wp m s Q E) :
  Spec (vop vn m) s Q E
  := by
  simp only [Spec, vop, wlp_bind, wlp_get, wlp_assert]
  exact ⟨fun _ => wlp_of_wp hm, fun hnot => absurd h hnot⟩

/-- The count of a vnode is incremented. -/
theorem gained_setRefcount (vn : VnodeId) (s : Vfs W) :
  Gained log [vn] [] s (s.setRefcount vn (s.refcount vn + 1))
  := by
  refine ⟨fun v => .inl ?_, fun _ => rfl, rfl, rfl, rfl, fun _ hv => hv⟩
  by_cases hv : v = vn
  · subst hv
    simp [setRefcount]
  · simp [setRefcount, hv, Ne.symm hv]

theorem incref_spec (h : 0 < s.refcount vn) :
  Spec (incref vn) s (fun _ s' => Gained log [vn] [] s s') E
  := by
  rw [Spec, incref, wlp_bind]
  apply touch_spec h
  rw [wlp_modify]
  apply gained_setRefcount

theorem incopen_spec (h : 0 < s.refcount vn) :
  Spec (incopen vn) s (fun _ s' => Gained log [] [vn] s s') E
  := by
  rw [Spec, incopen, wlp_bind]
  apply touch_spec h
  rw [wlp_modify]
  refine ⟨fun _ => .inl rfl, fun v => ?_, rfl, rfl, rfl, fun _ hv => hv⟩
  by_cases hv : v = vn
  · subst hv
    simp [setOpencount]
  · simp [setOpencount, hv, Ne.symm hv]

/-- The references `gained` have been taken since `s`, and the references `lost` dropped. -/
structure Moved (log : W → VnodeId → Prop) (gained lost : List VnodeId) (s s' : Vfs W) :
    Prop where
  refcount : ∀ v,
    Tally (log s'.world v) (s.refcount v) (gained.count v) (lost.count v) (s'.refcount v)
  opencount : s'.opencount = s.opencount
  knowndevs : s'.knowndevs = s.knowndevs
  logged : ∀ v, log s.world v → log s'.world v

theorem Gained.moved (h : Gained log refs [] s s') :
  Moved log refs [] s s'
  := by
  refine ⟨h.refcount, ?_, h.knowndevs, h.logged⟩
  funext v
  exact h.opencount v

/-- `VOP_DECREF` takes one reference away. -/
theorem decref_dropped (hfs : Obeys log fs) (h : 0 < s.refcount vn) :
  Spec (decref fs vn) s
    (fun _ s' => Moved log [] [vn] s s' ∧ s'.cwd = s.cwd ∧ s'.bootfs = s.bootfs) E
  := by
  have hset : ∀ v, (s.setRefcount vn (s.refcount vn - 1)).refcount v + [vn].count v
      = s.refcount v := by
    intro v
    by_cases hv : v = vn
    · subst hv
      simp only [setRefcount, Function.update_self, List.count_singleton_self]
      omega
    · simp [setRefcount, Function.update_of_ne hv, Ne.symm hv]
  simp only [Spec, decref, wlp_bind, wlp_get, wlp_assert, wlp_ite]
  refine ⟨fun _ => ⟨fun _ => ?_, fun hlast => ?_⟩, fun hnot => absurd h hnot⟩
  · exact ⟨⟨fun v => .inl (hset v), rfl, rfl, fun _ hv => hv⟩, rfl, rfl⟩
  · have hone : s.refcount vn = 1 := by omega
    rw [hone, Nat.sub_self] at hset
    rw [wlp_attempt]
    apply wlp_of_wp
    apply wp_mono (hfs.reclaim vn s hone)
    · intro _ s' hs'
      refine ⟨⟨fun v => ?_, hs'.moved.opencount, hs'.knowndevs, hs'.logged⟩, hs'.cwd, hs'.bootfs⟩
      have hv := hset v
      rcases hs'.refcount v with heq | ⟨hlog, hrest⟩
      · exact .inl (by simp only [List.count_nil] at *; omega)
      · exact .inr ⟨hlog, by simp only [List.count_nil] at *; omega⟩
    · rintro _ s' ⟨hs', hlog⟩
      refine ⟨⟨fun v => ?_, hs'.moved.opencount, hs'.knowndevs, hs'.logged⟩, hs'.cwd, hs'.bootfs⟩
      by_cases hv : v = vn
      · -- the count stays at one
        subst hv
        right
        refine ⟨hlog, ?_⟩
        rcases hs'.refcount v with heq | hrest
        · simp only [List.count_nil, List.count_singleton_self] at *
          omega
        · omega
      · rw [List.count_singleton, if_neg (by simpa using Ne.symm hv)]
        exact hs'.refcount v

/-- Whoever holds a reference can drop it. -/
theorem decref_spec (hfs : Obeys log fs) (h : Gained log (vn :: refs) opens s s') :
  Spec (decref fs vn) s' (fun _ s'' => Gained log refs opens s s'') E
  := by
  apply wlp_imp (decref_dropped hfs (h.pos List.mem_cons_self))
  rintro _ s'' ⟨hs'', hcwd, hboot⟩
  refine ⟨fun v => ?_, fun v => ?_, hcwd.trans h.cwd, hboot.trans h.bootfs,
    hs''.knowndevs.trans h.knowndevs, fun v hv => hs''.logged v (h.logged v hv)⟩
  · have hbefore := (h.refcount v).mono (hs''.logged v)
    have hafter := hs''.refcount v
    rw [List.count_cons] at hbefore
    rw [List.count_nil, List.count_singleton] at hafter
    apply hbefore.comp hafter <;> omega
  · rw [hs''.opencount]
    exact h.opencount v

theorem decopen_spec (hfs : Obeys log fs) (hvn : vn ∈ refs)
    (h : Gained log refs (vn :: opens) s s') :
  Spec (decopen fs vn) s' (fun _ s'' => Gained log refs opens s s'') E
  := by
  have hpos := h.pos hvn
  have hcount := h.opencount vn
  rw [List.count_cons_self] at hcount
  have hclosed : Gained log refs opens s (s'.setOpencount vn (s'.opencount vn - 1)) := by
    refine { h with opencount := fun v => ?_ }
    have hv := h.opencount v
    by_cases hne : v = vn
    · subst hne
      simp only [setOpencount, Function.update_self]
      omega
    · rw [List.count_cons_of_ne (Ne.symm hne)] at hv
      simp only [setOpencount, Function.update_of_ne hne]
      exact hv
  rw [Spec, decopen, wlp_bind]
  apply touch_spec hpos
  simp only [wlp_bind, wlp_get, wlp_assert, wlp_modify, wlp_ite, wlp_pure, wlp_attempt]
  refine ⟨fun _ => ⟨fun _ => hclosed, fun _ => ?_⟩, fun hnot => absurd (by omega) hnot⟩
  apply vop_spec (hclosed.pos hvn)
  apply wp_mono (hfs.close vn _)
  all_goals
    intro _ s'' hs''
    exact hclosed.trans hs''

/-- A reference that is dropped after an operation is not held any more. -/
theorem thenDecref_spec (hfs : Obeys log fs) {g : α → List VnodeId}
    (h : Spec m s' (fun a s'' => Gained log (g a ++ vn :: refs) opens s s'')
      (fun _ s'' => Gained log (vn :: refs) opens s s'')) :
  Spec (thenDecref fs vn m) s' (fun a s'' => Gained log (g a ++ refs) opens s s'')
    (fun _ s'' => Gained log refs opens s s'')
  := by
  rw [Spec, thenDecref, wlp_bind, wlp_attempt]
  apply wlp_mono h
  · intro a s₁ hs₁
    rw [wlp_bind]
    apply decref_spec hfs (hs₁.perm List.perm_middle)
  · intro e s₁ hs₁
    rw [wlp_bind]
    apply decref_spec hfs hs₁

/-! ### Translation of paths -/

theorem getcurdir_spec (hs : s.Held) :
  Hands log getcurdir s ([·])
  := by
  simp only [Hands, getcurdir, wlp_bind, wlp_get]
  cases hcwd : s.cwd with
  | none => exact Gained.refl s
  | some vn =>
    simp only [wlp_bind]
    apply incref_spec (hs.cwd hcwd)

theorem getbootfs_spec (hs : s.Held) :
  Hands log getbootfs s ([·])
  := by
  simp only [Hands, getbootfs, wlp_bind, wlp_get]
  cases hboot : s.bootfs with
  | none => exact Gained.refl s
  | some vn =>
    simp only [wlp_bind]
    apply incref_spec (hs.bootfs hboot)

/-- The panics of `vfs_getroot`. -/
def OfGetroot (p : VfsPanic) : Prop :=
  p = .getrootFs ∨ p = .getrootRawname ∨ p = .getrootDevice ∨ p = .getrootRawDevice

/-- `vfs_getroot` finds the vnode of a device in the table, or a file system. -/
theorem findRoot_spec {devname : CString} {devs : List KnownDev}
    (hassert : ∀ p, OfGetroot p → P p) :
  wlp P (Devices.findRoot devname devs) s
    (fun r s' => s' = s ∧ ∀ vn, r = .device vn → vn ∈ devs.map KnownDev.vnode)
    (fun _ s' => s' = s)
  := by
  induction devs with
  | nil => exact rfl
  | cons kd rest ih =>
    have hnext : wlp P (kd.orDevice devname (Devices.findRoot devname rest)) s
        (fun r s' => s' = s ∧ ∀ vn, r = .device vn → vn ∈ (kd :: rest).map KnownDev.vnode)
        (fun _ s' => s' = s) := by
      have hfound : ∀ vn, DevRoot.device kd.vnode = .device vn →
          vn ∈ (kd :: rest).map KnownDev.vnode := by
        rintro vn ⟨⟩
        simp
      simp only [KnownDev.orDevice, wlp_ite, wlp_bind, wlp_assert, wlp_pure]
      refine ⟨fun _ => ⟨fun _ => ⟨fun _ => ⟨fun _ => ⟨trivial, hfound⟩, ?_⟩, ?_⟩, ?_⟩,
        fun _ => ⟨fun _ => ⟨fun _ => ⟨trivial, hfound⟩, ?_⟩, fun _ => ?_⟩⟩
      · exact fun _ => hassert _ (by simp [OfGetroot])
      · exact fun _ => hassert _ (by simp [OfGetroot])
      · exact fun _ => hassert _ (by simp [OfGetroot])
      · exact fun _ => hassert _ (by simp [OfGetroot])
      · apply wlp_imp ih
        rintro r s' ⟨hs', hr⟩
        exact ⟨hs', fun vn hvn => List.mem_cons_of_mem _ (hr vn hvn)⟩
    rw [Devices.findRoot]
    cases kd.fs with
    | none =>
      simp only [wlp_ite]
      exact ⟨fun _ => rfl, fun _ => hnext⟩
    | some f =>
      simp only [wlp_ite]
      refine ⟨fun _ => ⟨rfl, ?_⟩, fun _ => hnext⟩
      rintro vn ⟨⟩

theorem getroot_spec (hfs : Obeys log fs) (hs : s.Held) {devname : CString} :
  Hands log (getroot fs devname) s ([·])
  := by
  have hunrelated : ∀ p, OfGetroot p → Unrelated p := by
    rintro p (rfl | rfl | rfl | rfl) <;> simp [Unrelated]
  simp only [Hands, getroot, wlp_bind, wlp_get]
  apply wlp_mono (findRoot_spec hunrelated)
  · rintro r s' ⟨rfl, hr⟩
    cases r with
    | fs f =>
      apply wlp_of_wp
      exact wp_sure (hfs.getroot f s') (fun _ _ h => h)
    | device vn =>
      simp only [wlp_bind]
      apply incref_spec
      apply hs.pos
      simp only [holders, List.mem_append]
      exact .inr (.inr (hr vn rfl))
  · rintro _ s' rfl
    exact Gained.refl s'

theorem getcurroot_spec (hfs : Obeys log fs) (hs : s.Held) :
  Hands log (getcurroot fs) s ([·])
  := by
  simp only [Hands, getcurroot, wlp_bind]
  apply wlp_imp (getcurdir_spec hs)
  intro vn s₁ hs₁
  apply touch_spec (hs₁.pos List.mem_cons_self)
  rw [wlp_get]
  cases fs.vnFs vn s₁ with
  | none => exact (by simp [Unrelated] : Unrelated .getdeviceFs)
  | some f =>
    simp only [wlp_bind]
    apply wlp_mono (wlp_of_wp (hfs.getroot f s₁)) _ (fun _ _ he => he.elim)
    intro root s₂ hs₂
    apply decref_spec hfs
    exact (hs₁.trans hs₂).perm (List.Perm.swap vn root [])

variable {path : CString}

theorem getdevice_spec (hfs : Obeys log fs) (hs : s.Held) :
  Hands log (getdevice fs path) s ([·.2])
  := by
  unfold getdevice
  split <;> rw [Hands, wlp_bind]
  · apply getcurroot_spec hfs hs
  · apply getroot_spec hfs hs
  · apply getbootfs_spec hs
  · apply getcurdir_spec hs

/-- An operation on a vnode that someone holds. -/
theorem vop_gains {g : α → List VnodeId}
    (hm : ∀ s, wp m s (fun a s' => Gained log (g a) [] s s') (fun _ s' => Gained log [] [] s s'))
    (hvn : vn ∈ refs) (h : Gained log refs opens s s') :
  Spec (vop vn m) s' (fun a s'' => Gained log (g a ++ refs) opens s s'')
    (fun _ s'' => Gained log refs opens s s'')
  := by
  apply vop_spec (h.pos hvn)
  apply wp_mono (hm s')
  · intro a s'' hs''
    exact h.trans hs''
  · intro _ s'' hs''
    exact h.trans hs''

theorem lookparent_spec (hfs : Obeys log fs) (hs : s.Held) :
  Hands log (lookparent fs path) s ([·.1])
  := by
  rw [Hands, lookparent, wlp_bind]
  apply wlp_imp (getdevice_spec hfs hs)
  rintro ⟨rest, startvn⟩ s₁ hs₁
  dsimp only
  apply thenDecref_spec hfs (g := fun p : VnodeId × CString => [p.1])
  rw [Spec, wlp_ite]
  refine ⟨fun _ => hs₁, fun _ => ?_⟩
  apply vop_gains (hfs.lookparent startvn rest 256) List.mem_cons_self hs₁

theorem lookup_spec (hfs : Obeys log fs) (hs : s.Held) :
  Hands log (lookup fs path) s ([·])
  := by
  rw [Hands, lookup, wlp_bind]
  apply wlp_imp (getdevice_spec hfs hs)
  rintro ⟨rest, startvn⟩ s₁ hs₁
  simp only [wlp_ite]
  refine ⟨fun _ => hs₁, fun _ => ?_⟩
  apply thenDecref_spec hfs (g := fun vn => [vn])
  apply vop_gains (hfs.lookup startvn rest) List.mem_cons_self hs₁

/-! ### Operations -/

section

variable (hfs : Obeys log fs) (hs : s.Held)
include hfs hs

/-- A look-up by someone who holds references already. -/
theorem lookparent_gained (h : Gained log refs opens s s') :
  Spec (lookparent fs path) s' (fun p s'' => Gained log (p.1 :: refs) opens s s'')
    (fun _ s'' => Gained log refs opens s s'')
  := by
  apply wlp_mono (lookparent_spec hfs (hs.gained h))
  · intro p s'' hs''
    exact h.trans hs''
  · intro _ s'' hs''
    exact h.trans hs''

theorem onParent_spec {m : VnodeId → CString → Run W Unit}
    (hm : ∀ dir name, Neutral log (m dir name)) :
  Hands log (onParent fs path m) s fun _ => []
  := by
  rw [Hands, onParent, wlp_bind]
  apply wlp_imp (lookparent_spec hfs hs)
  rintro ⟨dir, name⟩ s₁ hs₁
  dsimp only
  apply thenDecref_spec hfs (g := fun _ => [])
  apply vop_gains (hm dir name) List.mem_cons_self hs₁

theorem readlink_spec :
  Hands log (readlink fs path) s fun _ => []
  := by
  rw [Hands, readlink, wlp_bind]
  apply wlp_imp (lookup_spec hfs hs)
  intro vn s₁ hs₁
  apply thenDecref_spec hfs (g := fun _ => [])
  apply vop_gains (hfs.readlink vn) List.mem_cons_self hs₁

theorem withNewdir_spec {old : VnodeId} {newpath : CString} {m : VnodeId → CString → Run W Unit}
    (hm : ∀ newdir newname s₁, Gained log [newdir, old] [] s s₁ → Spec (m newdir newname) s₁
      (fun _ s₂ => Gained log [newdir, old] [] s s₂)
      (fun _ s₂ => Gained log [newdir, old] [] s s₂))
    (h : Gained log [old] [] s s') :
  Spec (withNewdir fs old newpath m) s' (fun _ s'' => Gained log [] [] s s'')
    (fun _ s'' => Gained log [] [] s s'')
  := by
  apply thenDecref_spec hfs (g := fun _ => [])
  rw [Spec, wlp_bind]
  apply wlp_imp (lookparent_gained hfs hs h)
  rintro ⟨newdir, newname⟩ s₁ hs₁
  rw [wlp_bind]
  apply touch_spec (hs₁.pos (List.mem_cons_of_mem _ List.mem_cons_self))
  rw [wlp_bind]
  apply touch_spec (hs₁.pos List.mem_cons_self)
  rw [wlp_bind, wlp_get]
  apply thenDecref_spec hfs (g := fun _ => [])
  rw [Spec, wlp_ite]
  exact ⟨fun _ => hm newdir newname s₁ hs₁, fun _ => hs₁⟩

theorem rename_spec {oldpath newpath : CString} :
  Hands log (rename fs oldpath newpath) s fun _ => []
  := by
  rw [Hands, rename, wlp_bind]
  apply wlp_imp (lookparent_spec hfs hs)
  rintro ⟨olddir, oldname⟩ s₁ hs₁
  apply withNewdir_spec hfs hs _ hs₁
  intro newdir newname s₂ hs₂
  exact vop_gains (hfs.rename olddir oldname newdir newname)
    (List.mem_cons_of_mem _ List.mem_cons_self) hs₂

theorem link_spec {oldpath newpath : CString} :
  Hands log (link fs oldpath newpath) s fun _ => []
  := by
  rw [Hands, link, wlp_bind]
  apply wlp_imp (lookup_spec hfs hs)
  intro oldfile s₁ hs₁
  apply withNewdir_spec hfs hs _ hs₁
  intro newdir newname s₂ hs₂
  exact vop_gains (hfs.link newdir newname oldfile) List.mem_cons_self hs₂

theorem openLookup_spec {openflags : UInt32} :
  Hands log (openLookup fs path openflags) s ([·])
  := by
  rw [Hands, openLookup, wlp_ite]
  refine ⟨fun _ => ?_, fun _ => lookup_spec hfs hs⟩
  rw [wlp_bind]
  apply wlp_imp (lookparent_spec hfs hs)
  rintro ⟨dir, name⟩ s₁ hs₁
  dsimp only
  apply thenDecref_spec hfs (g := fun vn => [vn])
  apply vop_gains (hfs.creat dir name _) List.mem_cons_self hs₁

end

theorem openTruncate_spec (hfs : Obeys log fs) (h : Gained log [vn] [vn] s s') {canwrite : Bool} :
  Spec (openTruncate fs vn canwrite) s' (fun r s'' => Gained log [r] [r] s s'')
    (fun _ s'' => Gained log [] [] s s'')
  := by
  rw [Spec, openTruncate, wlp_bind, wlp_attempt]
  have htrunc : Spec (if canwrite then vop vn (fs.truncate vn 0) else fail .einval) s'
      (fun _ s'' => Gained log [vn] [vn] s s'') (fun _ s'' => Gained log [vn] [vn] s s'') := by
    rw [Spec, wlp_ite]
    exact ⟨fun _ => vop_gains (hfs.truncate vn 0) List.mem_cons_self h, fun _ => h⟩
  apply wlp_mono htrunc
  · intro _ s₁ hs₁
    exact hs₁
  · intro e s₁ hs₁
    simp only [wlp_bind]
    apply wlp_imp (decopen_spec hfs List.mem_cons_self hs₁)
    intro _ s₂ hs₂
    apply decref_spec hfs hs₂

theorem openVnode_spec (hfs : Obeys log fs) (h : Gained log [vn] [] s s') {openflags : UInt32}
    {canwrite : Bool} :
  Spec (openVnode fs vn openflags canwrite) s' (fun r s'' => Gained log [r] [r] s s'')
    (fun _ s'' => Gained log [] [] s s'')
  := by
  rw [Spec, openVnode, wlp_bind, wlp_attempt]
  apply wlp_mono (vop_gains (hfs.openFile vn openflags) List.mem_cons_self h)
  · intro _ s₁ hs₁
    simp only [wlp_bind]
    apply wlp_imp (incopen_spec (hs₁.pos List.mem_cons_self))
    intro _ s₂ hs₂
    have hopen := hs₁.trans hs₂
    rw [wlp_ite]
    exact ⟨fun _ => openTruncate_spec hfs hopen, fun _ => hopen⟩
  · intro e s₁ hs₁
    simp only [wlp_bind]
    apply decref_spec hfs hs₁

theorem vfsOpen_spec (hfs : Obeys log fs) (hs : s.Held) {openflags : UInt32} :
  Spec (vfsOpen fs path openflags) s (fun vn s' => Gained log [vn] [vn] s s')
    (fun _ s' => Gained log [] [] s s')
  := by
  rw [Spec, vfsOpen, wlp_ite]
  refine ⟨fun _ => Gained.refl s, fun _ => ?_⟩
  rw [wlp_bind]
  apply wlp_imp (openLookup_spec hfs hs)
  intro vn s₁ hs₁
  exact openVnode_spec hfs hs₁

/-! ### The current directory -/

section Moved

variable {gained lost : List VnodeId}

/-- A reference that the layer has, or that was taken, is dropped. -/
theorem decref_moved (hfs : Obeys log fs) (h : Moved log gained lost s s')
    (hheld : lost.count vn < s.refcount vn + gained.count vn) {gained' lost' : List VnodeId}
    (hle : ∀ v, lost.count v ≤ lost'.count v)
    (hcount : ∀ v, gained.count v + lost'.count v
      = gained'.count v + (lost.count v + if vn == v then 1 else 0)) :
  Spec (decref fs vn) s'
    (fun _ s'' => Moved log gained' lost' s s'' ∧ s''.cwd = s'.cwd ∧ s''.bootfs = s'.bootfs) E
  := by
  have hpos := (h.refcount vn).le
  apply wlp_imp (decref_dropped hfs (by omega))
  rintro _ s'' ⟨hs'', hsame⟩
  refine ⟨⟨fun v => ?_, hs''.opencount.trans h.opencount, hs''.knowndevs.trans h.knowndevs,
    fun v hv => hs''.logged v (h.logged v hv)⟩, hsame⟩
  have hafter := hs''.refcount v
  rw [List.count_nil, List.count_singleton] at hafter
  apply ((h.refcount v).mono (hs''.logged v)).comp hafter _ (Nat.zero_le _) (hle v) (hcount v)
  split_ifs with hv
  · rw [← beq_iff_eq.mp hv]
    exact fun _ => hheld
  · exact fun hlt => absurd hlt (Nat.lt_irrefl 0)

theorem decrefOld_moved (hfs : Obeys log fs) (h : Moved log gained [] s s') {old : Option VnodeId}
    (hpos : ∀ v, old = some v → 0 < s.refcount v) :
  Spec (decrefOld fs old) s'
    (fun _ s'' => Moved log gained old.toList s s'' ∧ s''.cwd = s'.cwd ∧ s''.bootfs = s'.bootfs) E
  := by
  cases old with
  | none => exact ⟨h, rfl, rfl⟩
  | some v =>
    apply decref_moved hfs h (Nat.add_pos_left (hpos v rfl) _) (fun _ => Nat.zero_le _)
    intro w
    simp [List.count_cons]

end Moved

/-- The reference of the thread goes from the old current directory to the new one, and a second
one is taken. -/
theorem setcurdir_spec (hfs : Obeys log fs) (hs : s.Held) {dir : VnodeId}
    (h : Gained log [dir] [] s s') :
  Spec (setcurdir fs dir) s'
    (fun _ s'' => Moved log [dir, dir] s.cwd.toList s s'' ∧ s''.cwd = some dir
      ∧ s''.bootfs = s.bootfs)
    (fun _ s'' => Gained log [dir] [] s s'')
  := by
  rw [Spec, setcurdir, wlp_bind]
  apply wlp_imp (vop_gains (hfs.gettype dir) List.mem_cons_self h)
  intro vtype s₁ hs₁
  rw [wlp_ite]
  refine ⟨fun _ => hs₁, fun _ => ?_⟩
  rw [wlp_bind]
  apply wlp_imp (incref_spec (hs₁.pos List.mem_cons_self))
  intro _ s₂ hs₂
  have htwo := hs₁.trans hs₂
  simp only [wlp_bind, wlp_get, wlp_modify]
  rw [htwo.cwd]
  have hmoved : Moved log [dir, dir] [] s { s₂ with cwd := some dir } :=
    ⟨htwo.moved.refcount, htwo.moved.opencount, htwo.knowndevs, htwo.logged⟩
  apply wlp_imp (decrefOld_moved hfs hmoved fun _ => hs.cwd)
  rintro _ s₃ ⟨hs₃, hcwd, hboot⟩
  exact ⟨hs₃, hcwd, hboot.trans htwo.bootfs⟩

theorem chdir_spec (hfs : Obeys log fs) (hs : s.Held) :
  Spec (chdir fs path) s
    (fun _ s' => ∃ dir, Moved log [dir] s.cwd.toList s s' ∧ s'.cwd = some dir
      ∧ s'.bootfs = s.bootfs)
    (fun _ s' => Gained log [] [] s s')
  := by
  rw [Spec, chdir, wlp_bind]
  apply wlp_imp (lookup_spec hfs hs)
  intro dir s₁ hs₁
  rw [thenDecref, wlp_bind, wlp_attempt]
  apply wlp_mono (setcurdir_spec hfs hs hs₁)
  · rintro _ s₂ ⟨hs₂, hcwd, hboot⟩
    rw [wlp_bind]
    have hheld := hs dir
    rw [holders, List.count_append] at hheld
    have hone : ∀ v, [dir, dir].count v + s.cwd.toList.count v
        = [dir].count v + (s.cwd.toList.count v + if dir == v then 1 else 0) := by
      intro v
      rw [List.count_cons]
      omega
    apply wlp_imp (decref_moved hfs hs₂ (by rw [List.count_cons_self]; omega) (fun _ => .refl) hone)
    rintro _ s₃ ⟨hs₃, hcwd₃, hboot₃⟩
    exact ⟨dir, hs₃, hcwd₃.trans hcwd, hboot₃.trans hboot⟩
  · intro e s₂ hs₂
    rw [wlp_bind]
    apply decref_spec hfs hs₂

/-- The references of the layer stay counted when the current directory changes. -/
theorem Held.chdir (hs : s.Held) {dir : VnodeId} (h : Moved log [dir] s.cwd.toList s s')
    (hcwd : s'.cwd = some dir) (hboot : s'.bootfs = s.bootfs) :
  s'.Held
  := by
  intro v
  have hv := hs v
  have hcount := (h.refcount v).le
  rw [holders, List.count_append] at hv
  rw [holders, List.count_append, hcwd, hboot, h.knowndevs, Option.toList_some]
  omega

theorem setbootfs_spec (hfs : Obeys log fs) (hs : s.Held) {fsname : CString} :
  Spec (setbootfs fs fsname) s
    (fun _ s' => ∃ dir, Moved log [dir, dir] (s.cwd.toList ++ s.bootfs.toList) s s'
      ∧ s'.cwd = some dir ∧ s'.bootfs = some dir)
    (fun _ s' => Gained log [] [] s s')
  := by
  simp only [Spec, setbootfs, wlp_ite]
  refine ⟨fun _ => Gained.refl s, fun _ => ?_⟩
  rw [wlp_bind]
  apply wlp_imp (chdir_spec hfs hs)
  rintro _ s₁ ⟨dir, hs₁, hcwd₁, hboot₁⟩
  have hheld := hs.chdir hs₁ hcwd₁ hboot₁
  rw [wlp_bind]
  -- there is a current directory now, so that it can be read back
  simp only [getcurdir, wlp_bind, wlp_get, hcwd₁]
  apply wlp_imp (incref_spec (hheld.cwd hcwd₁))
  intro _ s₂ hs₂
  rw [wlp_pure]
  simp only [changeBootfs, wlp_bind, wlp_get, wlp_modify]
  have hmoved : Moved log [dir] [] s₁ { s₂ with bootfs := some dir } :=
    ⟨hs₂.moved.refcount, hs₂.moved.opencount, hs₂.knowndevs, hs₂.logged⟩
  rw [hs₂.bootfs]
  apply wlp_imp (decrefOld_moved hfs hmoved fun _ => hheld.bootfs)
  rintro _ s₃ ⟨hs₃, hcwd₃, hboot₃⟩
  refine ⟨dir, ⟨fun v => ?_, hs₃.opencount.trans hs₁.opencount,
    hs₃.knowndevs.trans hs₁.knowndevs, fun v hv => hs₃.logged v (hs₁.logged v hv)⟩,
    hcwd₃.trans (hs₂.cwd.trans hcwd₁), hboot₃⟩
  have hfst := (hs₁.refcount v).mono (hs₃.logged v)
  have hsnd := hs₃.refcount v
  have hv := hs v
  rw [holders, List.count_append, List.count_append] at hv
  rw [hboot₁] at hsnd
  rw [List.count_append, List.count_cons, ← List.count_singleton]
  apply hfst.comp hsnd <;> omega

theorem Held.setbootfs (hs : s.Held) {dir : VnodeId}
    (h : Moved log [dir, dir] (s.cwd.toList ++ s.bootfs.toList) s s')
    (hcwd : s'.cwd = some dir) (hboot : s'.bootfs = some dir) :
  s'.Held
  := by
  intro v
  have hv := hs v
  have hcount := (h.refcount v).le
  rw [holders, List.count_append, List.count_append] at hv
  rw [holders, List.count_append, List.count_append, hcwd, hboot, h.knowndevs, Option.toList_some]
  rw [List.count_append, List.count_cons] at hcount
  rw [List.count_cons, List.count_nil] at hcount ⊢
  omega

/-! ### All operations -/

/-- The operations on paths. -/
inductive Op where
  | lookup (path : CString)
  | lookparent (path : CString)
  | openFile (path : CString) (openflags : UInt32)
  | remove (path : CString)
  | rename (oldpath newpath : CString)
  | link (oldpath newpath : CString)
  | symlink (contents path : CString)
  | readlink (path : CString)
  | mkdir (path : CString)
  | rmdir (path : CString)
  | chdir (path : CString)
  | setbootfs (fsname : CString)

/-- An operation that hands back no vnode. -/
def handingNone (m : Run W Unit) : Run W (Option VnodeId) := do
  m
  pure none

/-- What an operation does, with the vnode that it hands back. -/
def Op.run (fs : VnodeOps W) : Op → Run W (Option VnodeId)
  | .lookup path => do
      let vn ← Vfs.lookup fs path
      pure (some vn)
  | .lookparent path => do
      let (vn, _) ← Vfs.lookparent fs path
      pure (some vn)
  | .openFile path openflags => do
      let vn ← vfsOpen fs path openflags
      pure (some vn)
  | .remove path => handingNone (Vfs.remove fs path)
  | .rename oldpath newpath => handingNone (Vfs.rename fs oldpath newpath)
  | .link oldpath newpath => handingNone (Vfs.link fs oldpath newpath)
  | .symlink contents path => handingNone (Vfs.symlink fs contents path)
  | .readlink path => handingNone (Vfs.readlink fs path)
  | .mkdir path => handingNone (Vfs.mkdir fs path)
  | .rmdir path => handingNone (Vfs.rmdir fs path)
  | .chdir path => handingNone (Vfs.chdir fs path)
  | .setbootfs fsname => handingNone (Vfs.setbootfs fs fsname)

/-- What a successful operation may do to the counts. -/
def Op.Balanced (log : W → VnodeId → Prop) (op : Op) (r : Option VnodeId) (s s' : Vfs W) :
    Prop :=
  match op with
  | .lookup _ => ∃ vn, r = some vn ∧ Gained log [vn] [] s s'
  | .lookparent _ => ∃ vn, r = some vn ∧ Gained log [vn] [] s s'
  | .openFile _ _ => ∃ vn, r = some vn ∧ Gained log [vn] [vn] s s'
  | .chdir _ => ∃ dir, Moved log [dir] s.cwd.toList s s' ∧ s'.cwd = some dir ∧ s'.bootfs = s.bootfs
  | .setbootfs _ => ∃ dir, Moved log [dir, dir] (s.cwd.toList ++ s.bootfs.toList) s s'
      ∧ s'.cwd = some dir ∧ s'.bootfs = some dir
  | _ => Gained log [] [] s s'

/-- Over file systems that obey `vnode.h`, an operation takes the references and opens that it
hands back, and moves those of the current directory and of the boot file system; an operation
that fails changes no count.  Only a vnode whose last reference was dropped and that could not be
let go keeps one.  No vnode is used without a reference, and the layer's own references stay
counted. -/
theorem references_balanced (hfs : Obeys log fs) (hs : s.Held) (op : Op) :
  wlp Unrelated (op.run fs) s (fun r s' => op.Balanced log r s s' ∧ s'.Held)
    (fun _ s' => Gained log [] [] s s' ∧ s'.Held)
  := by
  have hfail : ∀ (e : Errno) (s' : Vfs W), Gained log [] [] s s' →
      Gained log [] [] s s' ∧ s'.Held :=
    fun _ _ hs' => ⟨hs', hs.gained hs'⟩
  have hnone : ∀ {m : Run W Unit}, (Hands log m s fun _ => []) →
      wlp Unrelated (handingNone m) s (fun _ s' => Gained log [] [] s s' ∧ s'.Held)
        (fun _ s' => Gained log [] [] s s' ∧ s'.Held) := by
    intro m hm
    rw [handingNone, wlp_bind]
    exact wlp_mono hm (fun _ _ hs' => ⟨hs', hs.gained hs'⟩) hfail
  cases op with
  | lookup path =>
    rw [Op.run, wlp_bind]
    apply wlp_mono (lookup_spec hfs hs) _ hfail
    intro vn s' hs'
    exact ⟨⟨vn, rfl, hs'⟩, hs.gained hs'⟩
  | lookparent path =>
    rw [Op.run, wlp_bind]
    apply wlp_mono (lookparent_spec hfs hs) _ hfail
    rintro ⟨vn, name⟩ s' hs'
    exact ⟨⟨vn, rfl, hs'⟩, hs.gained hs'⟩
  | openFile path openflags =>
    rw [Op.run, wlp_bind]
    apply wlp_mono (vfsOpen_spec hfs hs) _ hfail
    intro vn s' hs'
    exact ⟨⟨vn, rfl, hs'⟩, hs.gained hs'⟩
  | remove path => exact hnone (onParent_spec hfs hs hfs.remove)
  | rename oldpath newpath => exact hnone (rename_spec hfs hs)
  | link oldpath newpath => exact hnone (link_spec hfs hs)
  | symlink contents path =>
    exact hnone (onParent_spec hfs hs fun dir name => hfs.symlink dir name contents)
  | readlink path => exact hnone (readlink_spec hfs hs)
  | mkdir path => exact hnone (onParent_spec hfs hs hfs.mkdir)
  | rmdir path => exact hnone (onParent_spec hfs hs hfs.rmdir)
  | chdir path =>
    rw [Op.run, handingNone, wlp_bind]
    apply wlp_mono (chdir_spec hfs hs) _ hfail
    rintro _ s' ⟨dir, hs', hcwd, hboot⟩
    exact ⟨⟨dir, hs', hcwd, hboot⟩, hs.chdir hs' hcwd hboot⟩
  | setbootfs fsname =>
    rw [Op.run, handingNone, wlp_bind]
    apply wlp_mono (setbootfs_spec hfs hs) _ hfail
    rintro _ s' ⟨dir, hs', hcwd, hboot⟩
    exact ⟨⟨dir, hs', hcwd, hboot⟩, hs.setbootfs hs' hcwd hboot⟩

/-- Hand back a reference to the vnode. -/
def handOut (vn : VnodeId) : Run W VnodeId := do
  modify fun s => s.setRefcount vn (s.refcount vn + 1)
  pure vn

theorem handOut_spec (vn : VnodeId) (s : Vfs W) :
  wp (handOut vn) s (fun v s' => Gained log [v] [] s s')
  := by
  simp only [handOut, wp_bind, wp_modify, wp_pure]
  apply gained_setRefcount

/-- A file system with the root `1` in which every name is that of the file `2`.  If it is
`broken`, the file cannot be opened and no vnode can be let go. -/
def oneFile (broken : Bool) : VnodeOps Unit where
  vnFs _ _ := some ⟨0, none⟩
  getroot _ := handOut 1
  openFile _ _ := if broken then fail .eio else pure ()
  close _ := pure ()
  reclaim vn := if broken then fail .eio else modify fun s => s.setRefcount vn 0
  readlink _ := fail .einval
  gettype vn := pure (if vn = 1 then 0o20000 else 0o10000)
  truncate _ _ := pure ()
  creat _ _ _ := handOut 2
  symlink _ _ _ := fail .eunimp
  mkdir _ _ := fail .eunimp
  link _ _ _ := pure ()
  remove _ _ := pure ()
  rmdir _ _ := fail .eunimp
  rename _ _ _ _ := pure ()
  lookup _ _ := handOut 2
  lookparent _ path _ := do
    let vn ← handOut 1
    pure (vn, path)

theorem obeys_oneFile (broken : Bool) :
  Obeys (fun _ _ => broken) (oneFile broken)
  := by
  have hpure : ∀ {α : Type} (a : α), Neutral (fun _ _ => broken) (pure a : Run Unit α) :=
    fun a s => (wp_pure a).mpr (Gained.refl s)
  have hfail : ∀ {α : Type} (e : Errno),
      Neutral (fun _ _ => broken) (fail e : Run Unit α) :=
    fun e s => (wp_fail e).mpr (Gained.refl s)
  have hout : ∀ vn, HandsBack (fun _ _ => broken) (handOut vn : Run Unit VnodeId) id := by
    intro vn s
    exact wp_sure (handOut_spec vn s) fun _ _ hs' => hs'
  constructor
  case getroot => exact fun _ => handOut_spec 1
  case lookparent =>
    intro dir path len s
    simp only [oneFile, wp_bind]
    apply wp_sure (handOut_spec 1 s)
    exact fun _ _ hs' => (wp_pure _).mpr hs'
  case reclaim =>
    intro vn s _
    simp only [oneFile, wp_ite, wp_fail, wp_modify]
    exact ⟨fun hbroken => ⟨Gained.refl s, hbroken⟩, fun _ => Gained.refl (s.setRefcount vn 0)⟩
  case openFile =>
    intro vn flags s
    simp only [oneFile, wp_ite, wp_fail, wp_pure]
    exact ⟨fun _ => Gained.refl s, fun _ => Gained.refl s⟩
  case lookup | creat =>
    intros
    exact hout 2
  case readlink | symlink | mkdir | rmdir =>
    intros
    exact hfail _
  all_goals
    intros
    exact hpure _

/-- The root is the current directory and the boot file system. -/
def atRoot : Vfs Unit where
  refcount vn := if vn = 1 then 2 else 0
  opencount _ := 0
  cwd := some 1
  bootfs := some 1
  knowndevs := []
  world := ()

theorem held_atRoot :
  atRoot.Held
  := by
  intro v
  by_cases hv : v = 1
  · subst hv
    decide
  · have hzero : atRoot.holders.count v = 0 := by
      apply List.count_eq_zero_of_not_mem
      simpa [atRoot, holders] using hv
    rw [hzero]
    exact Nat.zero_le _

/-- Open `/a`, to be made and truncated. -/
theorem references_balanced_oneFile :
  wlp Unrelated ((Op.openFile [47, 97] 22).run (oneFile false)) atRoot
    (fun r s' => (Op.openFile [47, 97] 22).Balanced (fun _ _ => false) r atRoot s' ∧ s'.Held)
    (fun _ s' => Gained (fun _ _ => false) [] [] atRoot s' ∧ s'.Held)
  := references_balanced (obeys_oneFile false) held_atRoot _

/-- A file that cannot be opened, and whose vnode cannot be let go, keeps a reference when
`vfs_open` fails. -/
theorem open_leaves_reference :
  ∃ (log : Unit → VnodeId → Prop) (fs : VnodeOps Unit), Obeys log fs ∧ atRoot.Held
    ∧ ∃ e s', vfsOpen fs [47, 97] 2 atRoot = .err e s' ∧ atRoot.refcount 2 = 0
      ∧ s'.refcount 2 = 1
  := ⟨_, oneFile true, obeys_oneFile true, held_atRoot, .eio, _, rfl, rfl, rfl⟩

/-! ### Open files -/

/-- Calls of `vfs_open` and `vfs_close` in any order, and the files that are open after them. -/
inductive Session (fs : VnodeOps W) (s₀ : Vfs W) : List VnodeId → Vfs W → Prop
  | start : Session fs s₀ [] s₀
  | opened {files s vn s'} (path : CString) (openflags : UInt32) (h : Session fs s₀ files s)
      (hrun : vfsOpen fs path openflags s = .ok vn s') : Session fs s₀ (vn :: files) s'
  | refused {files s e s'} (path : CString) (openflags : UInt32) (h : Session fs s₀ files s)
      (hrun : vfsOpen fs path openflags s = .err e s') : Session fs s₀ files s'
  | closed {files s vn s'} (h : Session fs s₀ files s) (hvn : vn ∈ files)
      (hrun : vfsClose fs vn s = .ok () s') : Session fs s₀ (files.erase vn) s'

variable {s₀ : Vfs W} {files : List VnodeId}

theorem vfsClose_spec (hfs : Obeys log fs) (h : Gained log files files s₀ s) (hvn : vn ∈ files) :
  wlp Unrelated (vfsClose fs vn) s
    (fun _ s' => Gained log (files.erase vn) (files.erase vn) s₀ s')
  := by
  have hperm := List.perm_cons_erase hvn
  have hcons : Gained log (vn :: files.erase vn) (vn :: files.erase vn) s₀ s := by
    refine { h.perm hperm with opencount := fun v => ?_ }
    rw [h.opencount, hperm.count_eq]
  rw [vfsClose, wlp_bind]
  apply wlp_imp (decopen_spec hfs List.mem_cons_self hcons)
  intro _ s₁ hs₁
  exact decref_spec hfs hs₁

/-- Over calls of `vfs_open` and `vfs_close` in any order, the counts of every vnode are those at
the start and the number of times it is open, but for the reference of a vnode that could not be
let go.  A file that is open can be closed. -/
theorem openFiles_counted (hfs : Obeys log fs) (hs : s₀.Held) (h : Session fs s₀ files s) :
  Gained log files files s₀ s ∧ ∀ vn ∈ files, wlp Unrelated (vfsClose fs vn) s
    (fun _ s' => Gained log (files.erase vn) (files.erase vn) s₀ s')
  := by
  suffices hgained : Gained log files files s₀ s from ⟨hgained, fun _ => vfsClose_spec hfs hgained⟩
  induction h with
  | start => exact Gained.refl s₀
  | opened _ _ _ hrun ih =>
    have hopened := wlp_ok (vfsOpen_spec hfs (hs.gained ih)) hrun
    exact ih.trans hopened
  | refused _ _ _ hrun ih =>
    have hrefused := wlp_err (vfsOpen_spec hfs (hs.gained ih)) hrun
    exact ih.trans hrefused
  | closed _ hvn hrun ih =>
    apply wlp_ok (vfsClose_spec hfs ih hvn) hrun

/-- The file `/a` is opened twice and closed once. -/
theorem openFiles_counted_oneFile :
  ∃ s, Session (oneFile false) atRoot [2] s ∧ Gained (fun _ _ => false) [2] [2] atRoot s
  := by
  have htwo : Session (oneFile false) atRoot [2, 2] _ :=
    .opened [47, 97] 22 (.opened [47, 97] 22 .start rfl) rfl
  have h : Session (oneFile false) atRoot ([2, 2].erase 2) _ :=
    .closed htwo List.mem_cons_self rfl
  exact ⟨_, h, (openFiles_counted (obeys_oneFile false) held_atRoot h).1⟩

end Vfs
