import AzureSpider.Vfs.Volume

/-!
# Paths to a volume

What the translation of paths does to the volume: the files stay as they are, and the vnodes that
are handed back are the root directory, or a regular file that has a name.  Which vnode a path
starts from can be told from the path and the state before the call, and so can the rest of the
path, which SFS takes for a name.
-/

open Routine

open Sfs (Fs Ptr Name)

namespace Vfs

/-- The part of a path behind the device, without slashes at its front. -/
def subpath (path : CString) : CString :=
  match findMark 0 path with
  | (some colon, _) => skipSlashes (path.drop (colon + 1))
  | (none, some 0) => skipSlashes (path.drop 1)
  | (none, _) => path

/-- What a name of a device stands for, as `vfs_getroot` finds it. -/
def deviceOf (devname : CString) (devs : List KnownDev) : Option DevRoot :=
  match (Devices.findRoot devname devs : Routine Errno VfsPanic Unit DevRoot) () with
  | .ok r _ => some r
  | .err _ _ => none
  | .panic _ => none

/-- The vnode is one of the volume. -/
def isOn : Option VnodeId → Bool
  | some vn => vn % 2 = 0
  | none => false

/-- The path starts from the root directory of the volume `f`. -/
def startsOn (f : AbsFs) (s : Vfs Fs) (path : CString) : Bool :=
  match findMark 0 path with
  | (some 0, _) => isOn s.cwd
  | (some colon, _) =>
    match deviceOf (path.take colon) s.knowndevs with
    | some (.fs g) => g.addr = f.addr
    | some (.device vn) => vn % 2 = 0
    | none => false
  | (none, some 0) => isOn s.bootfs
  | (none, _) => isOn s.cwd

/-- The path names the root directory of the volume `f`. -/
def namesRoot (f : AbsFs) (s : Vfs Fs) (path : CString) : Prop :=
  subpath path = [] ∧ startsOn f s path = true

/-- A state in which the volume is consistent, and no reference to its vnodes is missing from
their counts: the layer itself refers to the root directory only, and each open file has a
reference of its own. -/
def Mounted (s : Vfs Fs) : Prop := Sfs.Holding (ptrs s.holders) [] s.volume

/-! ### The device -/

section FindRoot

variable {σ : Type} {s s' : σ} {devname : CString} {devs : List KnownDev} {r : DevRoot}

/-- The search in the table does not look at the rest of the state. -/
theorem orDevice_ok {kd : KnownDev} {next : Routine Errno VfsPanic σ DevRoot}
    {next' : Routine Errno VfsPanic Unit DevRoot}
    (hnext : next s = .ok r s' → next' () = .ok r ())
    (h : kd.orDevice devname next s = .ok r s') :
  kd.orDevice devname next' () = .ok r ()
  := by
  rw [KnownDev.orDevice] at h ⊢
  by_cases hname : kd.name = devname
  · rw [if_pos hname] at h ⊢
    simp only [bind_eq_ok, assert_eq_ok, pure_eq_ok] at h ⊢
    obtain ⟨-, _, ⟨hfs, rfl⟩, -, _, ⟨hraw, rfl⟩, -, _, ⟨hdev, rfl⟩, hr, rfl⟩ := h
    exact ⟨(), (), ⟨hfs, trivial⟩, (), (), ⟨hraw, trivial⟩, (), (), ⟨hdev, trivial⟩, hr, trivial⟩
  · rw [if_neg hname] at h ⊢
    by_cases hraw : kd.rawname = some devname
    · rw [if_pos hraw] at h ⊢
      simp only [bind_eq_ok, assert_eq_ok, pure_eq_ok] at h ⊢
      obtain ⟨-, _, ⟨hdev, rfl⟩, hr, rfl⟩ := h
      exact ⟨(), (), ⟨hdev, trivial⟩, hr, trivial⟩
    · rw [if_neg hraw] at h ⊢
      exact hnext h

theorem findRoot_ok
    (h : (Devices.findRoot devname devs : Routine Errno VfsPanic σ DevRoot) s = .ok r s') :
  (Devices.findRoot devname devs : Routine Errno VfsPanic Unit DevRoot) () = .ok r ()
  := by
  induction devs with
  | nil => cases h
  | cons kd rest ih =>
    rw [Devices.findRoot] at h ⊢
    cases hfs : kd.fs with
    | none =>
      simp only [hfs] at h ⊢
      split_ifs at h with hname
      · cases h
      · rw [if_neg hname]
        exact orDevice_ok ih h
    | some g =>
      simp only [hfs] at h ⊢
      split_ifs at h with hmine
      · obtain ⟨rfl, -⟩ := pure_eq_ok.mp h
        rw [if_pos hmine]
        rfl
      · rw [if_neg hmine]
        exact orDevice_ok ih h

end FindRoot

/-- Between two calls no references are held but those of the layer. -/
theorem Mounted.good {s : Vfs Fs} (h : s.Mounted) (hR : R s.volume) :
  Good R s [] s
  := ⟨h, hR, rfl, rfl, rfl⟩

theorem Good.mounted {s₀ s : Vfs Fs} (h : Good R s₀ [] s) :
  s.Mounted
  := by
  have hholders : s.holders = s₀.holders := by
    rw [holders, holders, h.cwd, h.bootfs, h.knowndevs]
  rw [Mounted, hholders]
  exact h.holding

section Paths

variable {R : Fs → Prop} {s₀ s : Vfs Fs} {refs : List VnodeId} {vn : VnodeId} {f : AbsFs}
  {other : VnodeOps Fs} {path : CString}

/-- The property `R`, and that the vnode, if it is one of the volume, is the root directory. -/
def AtRoot (vn : VnodeId) (R : Fs → Prop) (v : Fs) : Prop :=
  R v ∧ (vn % 2 = 0 → (v.heap (vn / 2)).ino = 1)

theorem Stable.atRoot (hR : Stable refs R) :
  Stable (vn :: refs) (AtRoot vn R)
  := hR.cons.and (Stable.ino fun ino => ino = 1)

/-- A reference to a vnode that the layer refers to. -/
theorem increfHolder_safe (hR : Stable refs R) (h : Good R s₀ refs s) (hvn : vn ∈ s₀.holders) :
  Safe (incref vn) s (fun _ s' => Good (AtRoot vn R) s₀ (vn :: refs) s') E
  := by
  apply wlp_imp (incref_safe hR h (List.mem_append_left _ hvn))
  intro _ s' hs'
  exact hs'.imp fun hv => ⟨hv, fun heven => hs'.holding.rooted _ (mem_ptrs heven hvn)⟩

theorem getcurdir_safe (hR : Stable refs R) (h : Good R s₀ refs s) :
  Safe getcurdir s (fun vn s' => s₀.cwd = some vn ∧ Good (AtRoot vn R) s₀ (vn :: refs) s')
    (fun _ s' => Good R s₀ refs s')
  := by
  simp only [Safe, getcurdir, wlp_bind, wlp_get, h.cwd]
  cases hcwd : s₀.cwd with
  | none => exact h
  | some vn =>
    simp only [wlp_bind]
    apply wlp_imp (increfHolder_safe hR h _)
    · intro _ s' hs'
      exact ⟨rfl, hs'⟩
    · simp [holders, hcwd]

theorem getbootfs_safe (hR : Stable refs R) (h : Good R s₀ refs s) :
  Safe getbootfs s (fun vn s' => s₀.bootfs = some vn ∧ Good (AtRoot vn R) s₀ (vn :: refs) s')
    (fun _ s' => Good R s₀ refs s')
  := by
  simp only [Safe, getbootfs, wlp_bind, wlp_get, h.bootfs]
  cases hboot : s₀.bootfs with
  | none => exact h
  | some vn =>
    simp only [wlp_bind]
    apply wlp_imp (increfHolder_safe hR h _)
    · intro _ s' hs'
      exact ⟨rfl, hs'⟩
    · simp [holders, hboot]

variable (hother : Apart f other) (hR : Stable refs R) (h : Good R s₀ refs s)
include hother hR h

/-- `FSOP_GETROOT`, of the volume or of another file system. -/
theorem fsGetroot_safe (g : AbsFs) :
  Safe ((volumeOps f other).getroot g) s
    (fun vn s' => (vn % 2 = 0 ↔ g.addr = f.addr) ∧ Good (AtRoot vn R) s₀ (vn :: refs) s')
    (fun _ _ => False)
  := by
  simp only [volumeOps, Safe, wlp_ite]
  constructor
  · intro haddr
    have hpanic : ∀ p : FsPanic, p = .getroot → Tolerated (.fs p) := by
      rintro p rfl q ⟨⟩
      rfl
    rw [onVolume, wlp_embed, handBack, wlp_bind]
    apply wlp_panics hpanic
    apply wlp_imp (Sfs.fsGetroot_spec h.holding)
    rintro q v ⟨hone, hu⟩
    refine ⟨iff_of_true (vnodeOf_mod q) haddr, (h.handed hR hu).imp fun hv => ⟨hv, fun _ => ?_⟩⟩
    rw [volume_setVolume, vnodeOf_div]
    exact hone
  · intro haddr
    apply wlp_imp (hother.getroot g s haddr)
    rintro vn s' ⟨hvn, hb⟩
    have hnot : ¬ vn % 2 = 0 := by
      rw [hvn]
      decide
    exact ⟨iff_of_false hnot haddr,
      ((h.beside hb).cons_odd hvn).imp fun hv => ⟨hv, fun heven => absurd heven hnot⟩⟩

theorem getroot_safe (devname : CString) :
  Safe (getroot (volumeOps f other) devname) s
    (fun vn s' => (∃ r, deviceOf devname s₀.knowndevs = some r
        ∧ (r = .device vn ∨ ∃ g, r = .fs g ∧ (vn % 2 = 0 ↔ g.addr = f.addr)))
      ∧ Good (AtRoot vn R) s₀ (vn :: refs) s')
    (fun _ s' => Good R s₀ refs s')
  := by
  have hpanics : ∀ p, OfGetroot p → Tolerated p := by
    rintro p (rfl | rfl | rfl | rfl) q ⟨⟩
  simp only [Safe, getroot, wlp_bind, wlp_get]
  apply wlp_mono (wlp_run (findRoot_spec hpanics))
  · rintro r s' ⟨hrun, rfl, hr⟩
    have hdev : deviceOf devname s'.knowndevs = some r := by
      rw [deviceOf, findRoot_ok hrun]
    rw [h.knowndevs] at hdev hr
    cases r with
    | fs g =>
      apply wlp_mono (fsGetroot_safe hother hR h g) _ (fun _ _ he => he.elim)
      rintro vn s₁ ⟨haddr, hs₁⟩
      exact ⟨⟨_, hdev, .inr ⟨g, rfl, haddr⟩⟩, hs₁⟩
    | device vn =>
      simp only [wlp_bind]
      apply wlp_imp (increfHolder_safe hR h _)
      · intro _ s₁ hs₁
        exact ⟨⟨_, hdev, .inl rfl⟩, hs₁⟩
      · simp only [holders, List.mem_append]
        exact .inr (.inr (hr vn rfl))
  · rintro _ s' ⟨-, rfl⟩
    exact h

theorem getcurroot_safe :
  Safe (getcurroot (volumeOps f other)) s
    (fun vn s' => (vn % 2 = 0 ↔ isOn s₀.cwd = true) ∧ Good (AtRoot vn R) s₀ (vn :: refs) s')
    (fun _ s' => Good R s₀ refs s')
  := by
  simp only [Safe, getcurroot, wlp_bind]
  apply wlp_imp (getcurdir_safe hR h)
  rintro vn s₁ ⟨hcwd, hs₁⟩
  apply touch_safe
  rw [wlp_get]
  -- the root of the volume is handed back for a vnode of the volume only
  have hmine : ∀ g, (volumeOps f other).vnFs vn s₁ = some g → (g.addr = f.addr ↔ vn % 2 = 0) := by
    intro g hg
    by_cases heven : vn % 2 = 0
    · simp only [volumeOps, if_pos heven] at hg
      cases hg
      exact iff_of_true rfl heven
    · simp only [volumeOps, if_neg heven] at hg
      exact iff_of_false (hother.vnFs vn s₁ g hg) heven
  cases hg : (volumeOps f other).vnFs vn s₁ with
  | none =>
    rintro q ⟨⟩
  | some g =>
    simp only [wlp_bind]
    have hcur : Good R s₀ (vn :: refs) s₁ := hs₁.imp fun hv => hv.1
    apply wlp_mono (fsGetroot_safe hother hR.cons hcur g) _ (fun _ _ he => he.elim)
    rintro root s₂ ⟨haddr, hs₂⟩
    apply wlp_imp (decref_safe hother hR.atRoot (hs₂.perm (List.Perm.swap vn root refs)))
    intro _ s₃ hs₃
    refine ⟨?_, hs₃⟩
    rw [haddr, hmine g hg, hcwd]
    exact decide_eq_true_iff.symm

/-- `getdevice`: the rest of the path, and the vnode to start from. -/
theorem getdevice_safe (path : CString) :
  Safe (getdevice (volumeOps f other) path) s
    (fun r s' => (r.1 = subpath path ∧ (r.2 % 2 = 0 ↔ startsOn f s₀ path = true))
      ∧ Good (AtRoot r.2 R) s₀ (r.2 :: refs) s')
    (fun _ s' => Good R s₀ refs s')
  := by
  have hcurdir : Safe (getcurdir : Run Fs VnodeId) s
      (fun vn s' => (True ∧ (vn % 2 = 0 ↔ isOn s₀.cwd = true))
        ∧ Good (AtRoot vn R) s₀ (vn :: refs) s')
      (fun _ s' => Good R s₀ refs s') := by
    apply wlp_imp (getcurdir_safe hR h)
    rintro vn s' ⟨hcwd, hs'⟩
    rw [hcwd]
    exact ⟨⟨trivial, decide_eq_true_iff.symm⟩, hs'⟩
  rw [Safe, getdevice, subpath, startsOn]
  obtain ⟨colon, slash⟩ := findMark 0 path
  cases colon with
  | none =>
    cases slash with
    | none =>
      simp only [wlp_bind, wlp_pure]
      exact hcurdir
    | some i =>
      cases i with
      | zero =>
        simp only [wlp_bind, wlp_pure]
        apply wlp_imp (getbootfs_safe hR h)
        rintro vn s' ⟨hboot, hs'⟩
        rw [hboot]
        exact ⟨⟨trivial, decide_eq_true_iff.symm⟩, hs'⟩
      | succ i =>
        simp only [wlp_bind, wlp_pure]
        exact hcurdir
  | some colon =>
    cases colon with
    | zero =>
      simp only [wlp_bind, wlp_pure]
      apply wlp_imp (getcurroot_safe hother hR h)
      rintro vn s' ⟨hcwd, hs'⟩
      exact ⟨⟨trivial, hcwd⟩, hs'⟩
    | succ colon =>
      simp only [wlp_bind, wlp_pure]
      apply wlp_imp (getroot_safe hother hR h _)
      rintro vn s' ⟨⟨r, hr, hvn⟩, hs'⟩
      refine ⟨⟨trivial, ?_⟩, hs'⟩
      rcases hvn with rfl | ⟨g, rfl, haddr⟩
      · rw [hr]
        exact decide_eq_true_iff.symm
      · rw [hr, haddr]
        exact decide_eq_true_iff.symm

/-- `vfs_lookparent` hands back the root directory of the volume, or a vnode of another file
system. -/
theorem lookparent_safe (path : CString) :
  Safe (lookparent (volumeOps f other) path) s
    (fun r s' => Good (fun v => R v ∧ (r.1 % 2 = 0 → (v.heap (r.1 / 2)).ino = 1)
      ∧ (r.1 % 2 = 0 → startsOn f s₀ path = true ∧ r.2 = subpath path ∧ r.2 ≠ [])) s₀
      (r.1 :: refs) s')
    (fun _ s' => Good R s₀ refs s')
  := by
  rw [Safe, lookparent, wlp_bind]
  apply wlp_imp (getdevice_safe hother hR h path)
  rintro ⟨rest, startvn⟩ s₁ ⟨⟨rfl, hstart⟩, hs₁⟩
  have hdir : Good R s₀ (startvn :: refs) s₁ := hs₁.imp fun hv => hv.1
  apply thenDecref_safe hother (g := fun r : VnodeId × CString => [r.1]) hR
  · intro r
    apply hR.cons.and
    exact (Stable.ino fun ino => ino = 1).and (Stable.const _)
  · rw [Safe, wlp_ite]
    refine ⟨fun _ => hdir, fun hne => ?_⟩
    apply wlp_imp (vopLookparent_safe hother hR.cons hdir List.mem_cons_self (subpath path) 256)
    intro r s₂ hs₂
    apply hs₂.imp
    rintro ⟨hv, hone, hpath⟩
    refine ⟨hv, hone, fun heven => ?_⟩
    obtain ⟨hmine, hr⟩ := hpath heven
    rw [hr]
    exact ⟨hstart.mp hmine, rfl, hne⟩

/-- `vfs_lookup` hands back the root directory of the volume for the paths that name it. -/
theorem lookup_safe (path : CString) :
  Safe (lookup (volumeOps f other) path) s
    (fun q s' => Good (fun v => R v
      ∧ (q % 2 = 0 → (v.heap (q / 2)).ino = 1 → namesRoot f s₀ path)
      ∧ (namesRoot f s₀ path → q % 2 = 0 ∧ (v.heap (q / 2)).ino = 1)) s₀ (q :: refs) s')
    (fun _ s' => Good R s₀ refs s')
  := by
  rw [Safe, lookup, wlp_bind]
  apply wlp_imp (getdevice_safe hother hR h path)
  rintro ⟨rest, startvn⟩ s₁ ⟨⟨rfl, hstart⟩, hs₁⟩
  simp only [wlp_ite, wlp_pure]
  constructor
  · intro hempty
    apply hs₁.imp
    rintro ⟨hv, hroot⟩
    refine ⟨hv, fun heven _ => ⟨hempty, hstart.mp heven⟩, fun hnames => ?_⟩
    have heven := hstart.mpr hnames.2
    exact ⟨heven, hroot heven⟩
  · intro hsome
    have hdir : Good R s₀ (startvn :: refs) s₁ := hs₁.imp fun hv => hv.1
    apply thenDecref_safe hother (g := fun q => [q]) hR
    · intro q
      apply hR.cons.and
      apply (Stable.ino fun ino => ino = 1 → namesRoot f s₀ path).and
      exact (Stable.even_ino fun ino => ino = 1).imp _
    · apply wlp_imp (vopLookup_safe hother hR.cons hdir List.mem_cons_self (subpath path))
      intro q s₂ hs₂
      apply hs₂.imp
      rintro ⟨hv, hne⟩
      exact ⟨hv, fun heven hone => absurd hone (hne heven), fun hnames => absurd hnames.1 hsome⟩

end Paths

end Vfs
