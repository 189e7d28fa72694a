import AzureSpider.Vfs.FailedOpen

/-!
# The names on a volume

The calls on paths that make, link, remove and rename files, one after the other.  A name on the
volume is the name of a regular file, unless `vfs_link` is called with a path that names the root
directory: neither `vfs_link` nor `sfs_link` looks at the type of the file, and the entry for the
root directory makes a later `sfs_rename` panic.
-/

open Routine

open Sfs (Fs Ptr Name)

namespace Vfs

/-! ### Links, removals and renames -/

section Operations

variable {R : Fs → Prop} {s₀ s : Vfs Fs} {refs : List VnodeId} {vn : VnodeId} {f : AbsFs}
  {other : VnodeOps Fs}

/-- An entry with the name can be made, as far as the name goes: the path leads to the volume, and
the name is free and not too long. -/
def nameable (f : AbsFs) (s : Vfs Fs) (path : CString) : Prop :=
  startsOn f s path = true ∧ subpath path ≠ [] ∧ (nameOf (subpath path)).length < 60
    ∧ Slots.lookup s.volume.dir (nameOf (subpath path)).bytes = none

section

variable (hother : Apart f other)
include hother

/-- `VOP_LINK`, of a vnode of the same file system. -/
theorem vopLink_safe {dir file : VnodeId} {name : CString} {c : Prop}
    (h : Good (Sfs.SameFiles s₀.volume) s₀ refs s) (hdir : dir ∈ refs) (hfile : file ∈ refs)
    (hsame : dir % 2 = 0 ↔ file % 2 = 0)
    (hc : c → file % 2 = 0 ∧ (s.volume.heap (file / 2)).ino = 1)
    (hcan : dir % 2 = 0 → (s.volume.heap (file / 2)).ino = 1 →
      Slots.lookup s₀.volume.dir (nameOf name).bytes ≠ none ∨ 60 ≤ (nameOf name).length) :
  Safe (vop dir ((volumeOps f other).link dir name file)) s
    (fun _ s' => Good (fun _ => ¬ c) s₀ refs s')
    (fun _ s' => Good (Sfs.SameFiles s₀.volume) s₀ refs s')
  := by
  have hR : Stable refs (Sfs.SameFiles s₀.volume) := Stable.sameFiles s₀.volume
  simp only [volumeOps]
  apply op_safe (hother.link dir name file)
  · intro heven
    have hfeven := hsame.mp heven
    rw [if_pos hfeven]
    apply wp_mono (Sfs.vopLink_spec h.holding (h.mem heven hdir) (h.mem hfeven hfile) _)
    · rintro _ v ⟨hne, hv⟩
      exact h.setVolume hv fun hroot => hne (hc hroot).2
    · intro _ v hu
      exact h.unchanged hR hu
    · intro hone
      rw [h.files.dir]
      exact hcan heven hone
  · intro hodd _ s' _ hb
    apply (h.beside hb).imp
    intro _ hroot
    exact not_even hodd (hsame.mpr (hc hroot).1)
  · exact fun _ _ s' hb => h.beside hb

/-- `VOP_REMOVE`, while only directories are referred to. -/
theorem vopRemove_safe (h : Good R s₀ refs s) {dir : VnodeId} (hdir : dir ∈ refs)
    (hroots : ∀ p ∈ ptrs refs, (s.volume.heap p).ino = 1) (name : CString) :
  Safe (vop dir ((volumeOps f other).remove dir name)) s
    (fun _ s' => Good (fun _ => True) s₀ refs s') (fun _ s' => Good (fun _ => True) s₀ refs s')
  := by
  simp only [volumeOps]
  apply op_safe (hother.remove dir name)
  · intro heven
    apply wp_mono (Sfs.vopRemove_spec h.holding (h.mem heven hdir) hroots (nameOf name))
    all_goals
      intro _ v hv
      exact h.setVolume hv trivial
  · exact fun _ _ s' _ hb => (h.beside hb).imp fun _ => trivial
  · exact fun _ _ s' hb => (h.beside hb).imp fun _ => trivial

/-- `VOP_RENAME`, from a directory to a directory of the same file system. -/
theorem vopRename_safe (h : Good R s₀ refs s) {d1 d2 : VnodeId} (hd1 : d1 ∈ refs) (hd2 : d2 ∈ refs)
    (hsame : d1 % 2 = 0 ↔ d2 % 2 = 0) (hroots : ∀ p ∈ ptrs refs, (s.volume.heap p).ino = 1)
    (n1 n2 : CString) :
  Safe (vop d1 ((volumeOps f other).rename d1 n1 d2 n2)) s
    (fun _ s' => Good (fun _ => True) s₀ refs s') (fun _ s' => Good (fun _ => True) s₀ refs s')
  := by
  simp only [volumeOps]
  apply op_safe (hother.rename d1 n1 d2 n2)
  · intro heven
    have hdeven := hsame.mp heven
    rw [if_pos hdeven]
    apply wp_mono (Sfs.vopRename_spec h.holding (h.mem heven hd1) (h.mem hdeven hd2)
      (hroots _ (mem_ptrs heven hd1)) (hroots _ (mem_ptrs hdeven hd2)) hroots (nameOf n1)
      (nameOf n2))
    all_goals
      intro _ v hv
      exact h.setVolume hv trivial
  · exact fun _ _ s' _ hb => (h.beside hb).imp fun _ => trivial
  · exact fun _ _ s' hb => (h.beside hb).imp fun _ => trivial

/-- Vnodes of one file system are both of the volume, or both of another one. -/
theorem sameFs_volume {vn vn' : VnodeId} (h : sameFs (volumeOps f other) vn vn' s = true) :
  vn % 2 = 0 ↔ vn' % 2 = 0
  := by
  simp only [sameFs, volumeOps] at h
  by_cases heven : vn % 2 = 0
  · by_cases heven' : vn' % 2 = 0
    · exact iff_of_true heven heven'
    · rw [if_pos heven, if_neg heven'] at h
      cases hg : other.vnFs vn' s with
      | none =>
        rw [hg] at h
        cases h
      | some g =>
        rw [hg] at h
        exact absurd (beq_iff_eq.mp h).symm (hother.vnFs vn' s g hg)
  · by_cases heven' : vn' % 2 = 0
    · rw [if_neg heven, if_pos heven'] at h
      cases hg : other.vnFs vn s with
      | none =>
        rw [hg] at h
        cases h
      | some g =>
        rw [hg] at h
        exact absurd (beq_iff_eq.mp h) (hother.vnFs vn s g hg)
    · exact iff_of_false heven heven'

/-- The common part of `vfs_rename` and `vfs_link`: the new directory is one of the file system of
`old`, and both are held during the operation. -/
theorem withNewdir_safe {old : VnodeId} {newpath : CString} (hR : Stable [old] R)
    (hR' : Stable [] R') (hE : Stable [] E') (hRE : ∀ v, R v → E' v) (h : Good R s₀ [old] s)
    (hm : ∀ newdir newname s₁, (old % 2 = 0 ↔ newdir % 2 = 0) →
      Good (fun v => R v ∧ (newdir % 2 = 0 → (v.heap (newdir / 2)).ino = 1)
        ∧ (newdir % 2 = 0 → startsOn f s₀ newpath = true ∧ newname = subpath newpath
          ∧ newname ≠ [])) s₀ [newdir, old] s₁ →
      Safe (m newdir newname) s₁ (fun _ s₂ => Good R' s₀ [newdir, old] s₂)
        (fun _ s₂ => Good E' s₀ [newdir, old] s₂)) :
  Safe (withNewdir (volumeOps f other) old newpath m) s (fun _ s' => Good R' s₀ [] s')
    (fun _ s' => Good E' s₀ [] s')
  := by
  apply thenDecref_safe hother (g := fun _ => []) hE (fun _ => hR')
  rw [Safe, wlp_bind]
  apply wlp_mono (lookparent_safe hother hR h newpath)
  · rintro ⟨newdir, newname⟩ s₁ hs₁
    rw [wlp_bind]
    apply touch_safe
    rw [wlp_bind]
    apply touch_safe
    rw [wlp_bind, wlp_get]
    apply thenDecref_safe hother (g := fun _ => []) hE.cons (fun _ => hR'.cons)
    rw [Safe, wlp_ite]
    constructor
    · intro hfs
      exact hm newdir newname s₁ (sameFs_volume hother hfs) hs₁
    · intro _
      exact hs₁.imp fun hv => hRE _ hv.1
  · intro _ s₁ hs₁
    exact hs₁.imp fun hv => hRE _ hv

/-- `vfs_link` fails and leaves the files, or the old path does not name the root directory. -/
theorem link_safe (hs : s.Mounted) {oldpath newpath : CString}
    (hallowed : ¬ (namesRoot f s oldpath ∧ nameable f s newpath)) :
  Safe (link (volumeOps f other) oldpath newpath) s
    (fun _ s' => Good (fun _ => ¬ namesRoot f s oldpath) s [] s')
    (fun _ s' => Good (Sfs.SameFiles s.volume) s [] s')
  := by
  have hR : ∀ {refs : List VnodeId}, Stable refs (Sfs.SameFiles s.volume) :=
    Stable.sameFiles s.volume
  rw [Safe, link, wlp_bind]
  apply wlp_imp (lookup_safe hother hR (hs.good (Sfs.SameFiles.refl _)) oldpath)
  intro old s₁ hs₁
  apply withNewdir_safe hother _ (Stable.const _) hR (fun v hv => hv.1) hs₁
  · intro newdir newname s₂ hfs hs₂
    obtain ⟨⟨hsame, honly, hroot⟩, -, hpath⟩ := hs₂.files
    have hold : Good (Sfs.SameFiles s.volume) s [newdir, old] s₂ := hs₂.imp fun hv => hv.1.1
    apply vopLink_safe hother hold (by simp) (by simp) hfs.symm hroot
    intro heven hone
    obtain ⟨hstart, rfl, hne⟩ := hpath heven
    have hnames := honly (hfs.mpr heven) hone
    by_contra hboth
    rw [not_or, not_not, Nat.not_le] at hboth
    exact hallowed ⟨hnames, hstart, hne, hboth.2, hboth.1⟩
  · apply hR.and
    apply (Stable.ino fun ino => ino = 1 → namesRoot f s oldpath).and
    exact (Stable.even_ino fun ino => ino = 1).imp _

end

/-- The vnodes of the volume that are held are the root directory. -/
theorem roots_cons {v : Fs} (hvn : vn % 2 = 0 → (v.heap (vn / 2)).ino = 1)
    (hrefs : ∀ p ∈ ptrs refs, (v.heap p).ino = 1) :
  ∀ p ∈ ptrs (vn :: refs), (v.heap p).ino = 1
  := by
  rcases Nat.mod_two_eq_zero_or_one vn with heven | hodd
  · rw [ptrs_even heven]
    exact List.forall_mem_cons.mpr ⟨hvn heven, hrefs⟩
  · rw [ptrs_odd hodd]
    exact hrefs

theorem remove_safe (hother : Apart f other) (hs : s.Mounted) (path : CString) :
  Safe (remove (volumeOps f other) path) s (fun _ s' => Good (fun _ => True) s [] s')
    (fun _ s' => Good (fun _ => True) s [] s')
  := by
  have hR : ∀ {refs : List VnodeId}, Stable refs (fun _ : Fs => True) := Stable.const True
  rw [Safe, remove, onParent, wlp_bind]
  apply wlp_imp (lookparent_safe hother hR (hs.good trivial) path)
  rintro ⟨dir, name⟩ s₁ hs₁
  obtain ⟨-, hroot, -⟩ := hs₁.files
  apply thenDecref_safe hother (g := fun _ => []) hR (fun _ => hR)
  apply vopRemove_safe hother hs₁ (by simp) (roots_cons hroot _)
  intro p hp
  cases hp

theorem rename_safe (hother : Apart f other) (hs : s.Mounted) (oldpath newpath : CString) :
  Safe (rename (volumeOps f other) oldpath newpath) s
    (fun _ s' => Good (fun _ => True) s [] s') (fun _ s' => Good (fun _ => True) s [] s')
  := by
  have hR : ∀ {refs : List VnodeId}, Stable refs (fun _ : Fs => True) := Stable.const True
  rw [Safe, rename, wlp_bind]
  apply wlp_imp (lookparent_safe hother hR (hs.good trivial) oldpath)
  rintro ⟨olddir, oldname⟩ s₁ hs₁
  have hold : Good (AtRoot olddir fun _ => True) s [olddir] s₁ := hs₁.imp fun hv => ⟨hv.1, hv.2.1⟩
  apply withNewdir_safe hother hR.atRoot hR hR (fun _ _ => trivial) hold
  intro newdir newname s₂ hfs hs₂
  obtain ⟨⟨-, hroot⟩, hnewroot, -⟩ := hs₂.files
  apply vopRename_safe hother hs₂ (by simp) (by simp) hfs
  apply roots_cons hnewroot
  apply roots_cons hroot
  intro p hp
  cases hp

end Operations

/-! ### Calls -/

/-- The calls on paths. -/
inductive Call where
  | openFile (path : CString) (openflags : UInt32)
  | link (oldpath newpath : CString)
  | remove (path : CString)
  | rename (oldpath newpath : CString)

namespace Call

/-- What a call does. -/
def run (fs : VnodeOps Fs) : Call → Run Fs Unit
  | openFile path openflags => do
      let _ ← vfsOpen fs path openflags
      pure ()
  | link oldpath newpath => Vfs.link fs oldpath newpath
  | remove path => Vfs.remove fs path
  | rename oldpath newpath => Vfs.rename fs oldpath newpath

/-- The call does not give another name to the root directory. -/
def Allowed (f : AbsFs) (s : Vfs Fs) : Call → Prop
  | link oldpath newpath => ¬ (namesRoot f s oldpath ∧ nameable f s newpath)
  | _ => True

end Call

section Runs

variable {f : AbsFs} {other : VnodeOps Fs} {s s' s₀ : Vfs Fs}

/-- An allowed call returns. -/
def Step (f : AbsFs) (other : VnodeOps Fs) (s s' : Vfs Fs) : Prop :=
  ∃ c : Call, c.Allowed f s ∧ (c.run (volumeOps f other) s = .ok () s'
    ∨ ∃ e, c.run (volumeOps f other) s = .err e s')

/-- The states that allowed calls lead to. -/
abbrev Reaches (f : AbsFs) (other : VnodeOps Fs) : Vfs Fs → Vfs Fs → Prop :=
  Relation.ReflTransGen (Step f other)

/-- A call leaves the volume consistent, and does not panic in SFS. -/
theorem Call.run_safe (hother : Apart f other) (hs : s.Mounted) {c : Call} (hc : c.Allowed f s) :
  Safe (c.run (volumeOps f other)) s (fun _ s' => s'.Mounted) (fun _ s' => s'.Mounted)
  := by
  cases c with
  | openFile path openflags =>
    simp only [Call.run, Safe, wlp_bind, wlp_pure]
    have hgood : Good (Sfs.SameFiles s.volume) s [] s := hs.good (Sfs.SameFiles.refl _)
    exact wlp_mono (vfsOpen_safe hother hgood path openflags)
      (fun _ _ h => h.mounted) (fun _ _ h => h.mounted)
  | link oldpath newpath =>
    exact wlp_mono (link_safe hother hs hc) (fun _ _ h => h.mounted) (fun _ _ h => h.mounted)
  | remove path =>
    exact wlp_mono (remove_safe hother hs path) (fun _ _ h => h.mounted) (fun _ _ h => h.mounted)
  | rename oldpath newpath =>
    exact wlp_mono (rename_safe hother hs oldpath newpath) (fun _ _ h => h.mounted)
      (fun _ _ h => h.mounted)

theorem Mounted.step (hother : Apart f other) (hs : s.Mounted) (h : Step f other s s') :
  s'.Mounted
  := by
  obtain ⟨c, hc, hok | ⟨e, herr⟩⟩ := h
  · have hmounted := wlp_ok (Call.run_safe hother hs hc) hok
    exact hmounted
  · have hmounted := wlp_err (Call.run_safe hother hs hc) herr
    exact hmounted

theorem Mounted.reaches (hother : Apart f other) (hs : s₀.Mounted) (h : Reaches f other s₀ s) :
  s.Mounted
  := by
  induction h with
  | refl => exact hs
  | tail _ hstep ih => exact ih.step hother hstep

/-- In every state that is reached by calls that do not give another name to the root directory,
each entry is the name of a regular file, `sfs_rename` does not find a file of another type, and
`vfs_link` refuses the root directory and leaves the files. -/
theorem names_regular (hother : Apart f other) (hs : s₀.Mounted) (h : Reaches f other s₀ s) :
  (∀ x ino, (x, ino) ∈ Slots.entries s.volume.dir →
      ino ≠ 1 ∧ (s.volume.inodeOf ino).type = Sfs.typeFile)
    ∧ (∀ c : Call, c.Allowed f s → c.run (volumeOps f other) s ≠ .panic (.fs .renameType))
    ∧ ∀ oldpath newpath, namesRoot f s oldpath → ¬ nameable f s newpath →
        (∀ s', link (volumeOps f other) oldpath newpath s ≠ .ok () s')
          ∧ ∀ e s', link (volumeOps f other) oldpath newpath s = .err e s' →
            Sfs.SameFiles s.volume s'.volume
  := by
  have hmounted := hs.reaches hother h
  obtain ⟨lost, hc⟩ := hmounted.consistent
  refine ⟨?_, ?_, ?_⟩
  · intro x ino hx
    have hne := hc.ne_root hx
    have htype := hc.catalog.type ino (Sfs.Consistent.live_of_entry hx)
    rw [if_neg hne] at htype
    exact ⟨hne, htype⟩
  · intro c hallowed hpanic
    have htol := wlp_reason (Call.run_safe hother hmounted hallowed) hpanic
    exact absurd (htol _ rfl) (by decide)
  · intro oldpath newpath hroot hnot
    have hallowed : ¬ (namesRoot f s oldpath ∧ nameable f s newpath) := fun hboth => hnot hboth.2
    have hlink := link_safe hother hmounted hallowed
    refine ⟨fun s' hok => ?_, fun e s' herr => ?_⟩
    · exact (wlp_ok hlink hok).files hroot
    · exact (wlp_err hlink herr).files

end Runs

/-- `d:a` is created. -/
def createA : Call := .openFile [100, 58, 97] 5

/-- A file that was created. -/
theorem names_regular_created :
  ∃ s, Reaches diskFs noOther justMounted s ∧ Slots.lookup s.volume.dir [97] = some 3
    ∧ (s.volume.inodeOf 3).type = Sfs.typeFile
  := by
  obtain ⟨s, hrun, hlookup⟩ : ∃ s, createA.run (volumeOps diskFs noOther) justMounted = .ok () s
      ∧ Slots.lookup s.volume.dir [97] = some 3 := by
    decide +kernel
  have hreach : Reaches diskFs noOther justMounted s :=
    Relation.ReflTransGen.single ⟨createA, trivial, .inl hrun⟩
  have hregular := (names_regular (apart_noOther diskFs) mounted_justMounted hreach).1
  exact ⟨s, hreach, hlookup, (hregular [97] 3 (Slots.mem_of_lookup hlookup)).2⟩

/-! ### A name of the root directory -/

/-- `d:` is linked to `d:x`. -/
def linkRoot : Call := .link [100, 58] [100, 58, 120]

/-- `d:x` is renamed to `d:y`. -/
def renameRoot : Call := .rename [100, 58, 120] [100, 58, 121]

/-- `vfs_link` gives another name to the root directory, and to rename that panics. -/
theorem link_names_root :
  ∃ s, justMounted.Mounted ∧ Apart diskFs noOther ∧ Slots.entries justMounted.volume.dir = []
    ∧ linkRoot.run (volumeOps diskFs noOther) justMounted = .ok () s
    ∧ ([120], 1) ∈ Slots.entries s.volume.dir
    ∧ renameRoot.run (volumeOps diskFs noOther) s = .panic (.fs .renameType)
  := by
  obtain ⟨s, hrun, hlookup, hpanic⟩ :
      ∃ s, linkRoot.run (volumeOps diskFs noOther) justMounted = .ok () s
        ∧ Slots.lookup s.volume.dir [120] = some 1
        ∧ (renameRoot.run (volumeOps diskFs noOther) s).reason = some (.fs .renameType) := by
    decide +kernel
  exact ⟨s, mounted_justMounted, apart_noOther diskFs, by decide +kernel, hrun,
    Slots.mem_of_lookup hlookup, Outcome.reason_eq_some.mp hpanic⟩

end Vfs
