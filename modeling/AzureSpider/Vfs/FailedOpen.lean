import AzureSpider.Vfs.VolumePaths

/-!
# Opens that fail

`vfs_open` on a volume.  The file system can refuse a mode only when it has a vnode, so a file
that is to be created is made before the mode is checked: a failing call leaves the files as they
were, unless the mode is refused for a file that the call itself has made.
-/

open Routine

open Sfs (Fs Ptr Name)

namespace Vfs

variable {R : Fs → Prop} {s₀ s : Vfs Fs} {refs : List VnodeId} {vn : VnodeId} {f : AbsFs}
  {other : VnodeOps Fs} {path : CString}

/-- The modes that are refused for a regular file once it is there: `O_APPEND`, and `O_TRUNC`
without the right to write. -/
def Vetoed (openflags : UInt32) : Prop :=
  openflags &&& 32 ≠ 0 ∨ openflags &&& 16 ≠ 0 ∧ openflags &&& 3 = 0

/-- The end of `vfs_open`, for a file that is to be truncated. -/
theorem openTruncate_safe (hother : Apart f other) (hR : Stable refs R) (h : Good R s₀ refs s)
    {canwrite : Bool} (hopen : Opened (fun ino => ino = 1 → canwrite = false) vn s) :
  Safe (openTruncate (volumeOps f other) vn canwrite) s
    (fun _ s' => Good (fun _ => True) s₀ refs s')
    (fun _ s' => Good R s₀ refs s' ∧ (vn % 2 = 0 → canwrite = false))
  := by
  rw [Safe, openTruncate, wlp_bind, wlp_attempt]
  have htrunc : Safe
      (if canwrite then vop vn ((volumeOps f other).truncate vn 0) else fail .einval) s
      (fun _ s' => Good (fun _ => True) s₀ refs s')
      (fun _ s' => Good R s₀ refs s'
        ∧ Opened (fun ino => ino = 1 → canwrite = false) vn s'
        ∧ (vn % 2 = 0 → canwrite = false)) := by
    rw [Safe, wlp_ite]
    constructor
    · intro _
      apply wlp_mono (vopTruncate_safe hother h hopen) (fun _ _ hq => hq)
      rintro _ s' ⟨hs', hopen', hdir⟩
      exact ⟨hs', hopen', fun heven => hdir heven rfl⟩
    · intro hnot
      exact ⟨h, hopen, fun _ => Bool.eq_false_iff.mpr hnot⟩
  apply wlp_mono htrunc
  · intro _ s₁ hs₁
    exact hs₁
  · rintro e s₁ ⟨hs₁, hopen₁, hwrite⟩
    simp only [wlp_bind]
    apply wlp_imp (decopen_safe hother hR hs₁ hopen₁)
    intro _ s₂ hs₂
    apply wlp_imp (decref_safe hother hR hs₂)
    intro _ s₃ hs₃
    exact ⟨hs₃, hwrite⟩

/-- The second half of `vfs_open`. -/
theorem openVnode_safe (hother : Apart f other) (hR : Stable refs R)
    (h : Good R s₀ (vn :: refs) s) (openflags : UInt32) :
  Safe (openVnode (volumeOps f other) vn openflags (openflags &&& 3 ≠ 0)) s
    (fun _ s' => Good (fun _ => True) s₀ refs s')
    (fun _ s' => Good R s₀ refs s'
      ∧ (vn % 2 = 0 → (s.volume.heap (vn / 2)).ino ≠ 1 → Vetoed openflags))
  := by
  rw [Safe, openVnode, wlp_bind, wlp_attempt]
  apply wlp_mono (vopOpen_safe hother hR.cons h List.mem_cons_self openflags)
  · rintro _ s₁ ⟨hs₁, hdir⟩
    simp only [wlp_bind]
    apply wlp_imp (incopen_safe hR hs₁
      (P := fun ino => ino = 1 → decide (openflags &&& 3 ≠ 0) = false) _)
    · rintro _ s₂ ⟨hs₂, hopen⟩
      rw [wlp_ite]
      constructor
      · intro htrunc
        apply wlp_mono (openTruncate_safe hother hR hs₂ hopen) (fun _ _ hq => hq)
        rintro _ s₃ ⟨hs₃, hwrite⟩
        refine ⟨hs₃, fun heven _ => .inr ⟨htrunc, ?_⟩⟩
        exact not_not.mp (of_decide_eq_false (hwrite heven))
      · intro _
        exact hs₂.imp fun _ => trivial
    · intro heven hone
      exact decide_eq_false (not_not.mpr (hdir heven hone))
  · rintro e s₁ ⟨hs₁, happend⟩
    simp only [wlp_bind]
    apply wlp_imp (decref_safe hother hR hs₁)
    intro _ s₂ hs₂
    exact ⟨hs₂, fun heven hne => .inl (happend heven hne)⟩

/-- The vnode to open is one of a file that was there, or of one that has been made. -/
theorem openLookup_safe (hother : Apart f other) (h : Good (Sfs.SameFiles s₀.volume) s₀ refs s)
    (path : CString) (openflags : UInt32) :
  Safe (openLookup (volumeOps f other) path openflags) s
    (fun vn s' => Good (fun v => Sfs.SameFiles s₀.volume v
      ∨ openflags &&& 4 ≠ 0 ∧ Sfs.Added (nameOf (subpath path)) s₀.volume v
        ∧ vn % 2 = 0 ∧ (v.heap (vn / 2)).ino ≠ 1) s₀ (vn :: refs) s')
    (fun _ s' => Good (Sfs.SameFiles s₀.volume) s₀ refs s')
  := by
  have hR : Stable refs (Sfs.SameFiles s₀.volume) := Stable.sameFiles s₀.volume
  rw [Safe, openLookup, wlp_ite]
  constructor
  · intro hcreat
    rw [wlp_bind]
    apply wlp_imp (lookparent_safe hother hR h path)
    rintro ⟨dir, name⟩ s₁ hs₁
    obtain ⟨hsame, -, hname⟩ := hs₁.files
    have hdir : Good (Sfs.SameFiles s₀.volume) s₀ (dir :: refs) s₁ := hs₁.imp fun hv => hv.1
    apply thenDecref_safe hother (g := fun vn => [vn]) hR
    · intro vn
      apply (Stable.sameFiles s₀.volume).or
      apply (Stable.const _).and
      exact (Stable.added _ s₀.volume).and (Stable.even_ino fun ino => ino ≠ 1)
    · apply wlp_imp (vopCreat_safe hother hR.cons hdir List.mem_cons_self name _)
      intro vn s₂ hs₂
      apply hs₂.imp
      rintro (hv | ⟨heven, hadded, hvn⟩)
      · exact .inl hv
      · obtain ⟨-, rfl, -⟩ := hname heven
        exact .inr ⟨hcreat, hadded.of_sameFiles hsame, hvn⟩
  · intro _
    apply wlp_imp (lookup_safe hother hR h path)
    intro vn s₁ hs₁
    exact hs₁.imp fun hv => .inl hv.1

/-- `vfs_open` fails with the files as they were, or with a file that it has made. -/
theorem vfsOpen_safe (hother : Apart f other) (h : Good (Sfs.SameFiles s₀.volume) s₀ [] s)
    (path : CString) (openflags : UInt32) :
  Safe (vfsOpen (volumeOps f other) path openflags) s
    (fun _ s' => Good (fun _ => True) s₀ [] s')
    (fun _ s' => Good (fun v => Sfs.SameFiles s₀.volume v
      ∨ openflags &&& 4 ≠ 0 ∧ Vetoed openflags
        ∧ Sfs.Added (nameOf (subpath path)) s₀.volume v) s₀ [] s')
  := by
  rw [Safe, vfsOpen, wlp_ite]
  refine ⟨fun _ => h.imp .inl, fun _ => ?_⟩
  rw [wlp_bind]
  apply wlp_mono (openLookup_safe hother h path openflags)
  · intro vn s₁ hs₁
    rcases hs₁.files with hsame | ⟨hcreat, hadded, heven, hne⟩
    · have hold : Good (Sfs.SameFiles s₀.volume) s₀ [vn] s₁ := hs₁.imp fun _ => hsame
      apply wlp_mono
        (openVnode_safe hother (Stable.sameFiles s₀.volume) hold openflags) (fun _ _ hq => hq)
      rintro _ s₂ ⟨hs₂, -⟩
      exact hs₂.imp .inl
    · have hnew : Good (Sfs.Added (nameOf (subpath path)) s₀.volume) s₀ [vn] s₁ :=
        hs₁.imp fun _ => hadded
      apply wlp_mono
        (openVnode_safe hother (Stable.added _ s₀.volume) hnew openflags) (fun _ _ hq => hq)
      rintro _ s₂ ⟨hs₂, hveto⟩
      exact hs₂.imp fun hv => .inr ⟨hcreat, hveto heven hne, hv⟩
  · intro _ s₁ hs₁
    exact hs₁.imp .inl

/-- An open that fails leaves the names, the contents and sizes of the files and their link
counts, unless the mode is refused for a file that the call has made; the file, empty and with one
link, is the only change then. -/
theorem vfsOpen_failed {s s' : Vfs Fs} {e : Errno} {openflags : UInt32} (hother : Apart f other)
    (hs : s.Mounted) (h : vfsOpen (volumeOps f other) path openflags s = .err e s') :
  Sfs.SameFiles s.volume s'.volume
    ∨ openflags &&& 4 ≠ 0 ∧ Vetoed openflags
      ∧ Sfs.Added (nameOf (subpath path)) s.volume s'.volume
  := by
  have hgood : Good (Sfs.SameFiles s.volume) s [] s := hs.good (Sfs.SameFiles.refl _)
  exact (wlp_err (vfsOpen_safe hother hgood path openflags) h).files

/-! ### A file that is left -/

/-- No other file systems. -/
def noOther : VnodeOps Fs where
  vnFs _ _ := none
  getroot _ := Routine.panic .getdeviceFs
  openFile _ _ := fail .eunimp
  close _ := fail .eunimp
  reclaim _ := fail .eunimp
  readlink _ := fail .eunimp
  gettype _ := fail .eunimp
  truncate _ _ := fail .eunimp
  creat _ _ _ := fail .eunimp
  symlink _ _ _ := fail .eunimp
  mkdir _ _ := fail .eunimp
  link _ _ _ := fail .eunimp
  remove _ _ := fail .eunimp
  rmdir _ _ := fail .eunimp
  rename _ _ _ _ := fail .eunimp
  lookup _ _ := fail .eunimp
  lookparent _ _ _ := fail .eunimp

theorem apart_noOther (f : AbsFs) :
  Apart f noOther
  := by
  have hfail : ∀ {α : Type} (ok : α → Prop), Foreign (fail .eunimp : Run Fs α) ok :=
    fun _ _ => ⟨rfl, rfl, rfl, rfl⟩
  constructor
  case vnFs =>
    intro vn s g hg
    cases hg
  case getroot =>
    intro g s _ q hq
    cases hq
  all_goals
    intros
    exact hfail _

/-- The volume that is mounted on the device `d`. -/
def diskFs : AbsFs := ⟨0, none⟩

/-- A volume with an empty root directory, on the device `d`. -/
def justMounted : Vfs Fs where
  refcount _ := 0
  opencount _ := 0
  cwd := none
  bootfs := none
  knowndevs := [⟨[100], none, some 0, 1, some diskFs⟩]
  world := Sfs.fresh

theorem volume_justMounted :
  justMounted.volume = Sfs.fresh
  := rfl

theorem mounted_justMounted :
  justMounted.Mounted
  := by
  have hholders : ptrs justMounted.holders = [] := by decide
  rw [Mounted, hholders, volume_justMounted]
  refine ⟨⟨_, Sfs.fresh_empty.consistent⟩, ?_, ?_, ?_, ?_⟩
  all_goals
    intro p hp
    cases hp

/-- `d:a` is opened with `O_CREAT` and `O_APPEND`. -/
def appendToNew : Run Fs VnodeId := vfsOpen (volumeOps diskFs noOther) [100, 58, 97] 36

theorem appendToNew_runs :
  ∃ s', appendToNew justMounted = .err .eunimp s'
    ∧ Slots.lookup s'.volume.dir [97] = some 3
  := by
  decide +kernel

/-- An open with `O_CREAT` and `O_APPEND` fails, and leaves a new file. -/
theorem vfsOpen_leaves_file :
  ∃ s', justMounted.Mounted ∧ Apart diskFs noOther
    ∧ vfsOpen (volumeOps diskFs noOther) [100, 58, 97] 36 justMounted = .err .eunimp s'
    ∧ Slots.lookup justMounted.volume.dir [97] = none
    ∧ Slots.lookup s'.volume.dir [97] = some 3
  := by
  obtain ⟨s', hrun, hlookup⟩ := appendToNew_runs
  exact ⟨s', mounted_justMounted, apart_noOther diskFs, hrun, by decide +kernel, hlookup⟩

theorem vfsOpen_failed_append :
  ∃ s', vfsOpen (volumeOps diskFs noOther) [100, 58, 97] 36 justMounted = .err .eunimp s'
    ∧ (Sfs.SameFiles justMounted.volume s'.volume
      ∨ (36 : UInt32) &&& 4 ≠ 0 ∧ Vetoed 36
        ∧ Sfs.Added (nameOf (subpath [100, 58, 97])) justMounted.volume s'.volume)
  := by
  obtain ⟨s', hrun, -⟩ := appendToNew_runs
  exact ⟨s', hrun, vfsOpen_failed (apart_noOther diskFs) mounted_justMounted hrun⟩

end Vfs
