import AzureSpider.Sfs.Holding
import AzureSpider.Vfs.Balance

/-!
# A volume under the VFS layer

SFS as one of the file systems that the VFS layer works on.  The counts of a vnode are in the
vnode, where both the layer and the file system change them: the routines of SFS run on the volume
with the counts that the layer has, and hand the counts back.

The vnodes of the volume have the even numbers, and the vnodes of the devices and of the other
file systems, whose operations are a parameter, have the odd ones.  All that is assumed of the
other file systems is that they leave the volume and its vnodes alone.

The specifications below say what each operation does to the references that are held and to the
files of the volume, whatever vnode it is done on.
-/

open Routine

open Sfs (Fs Ptr Name)

namespace Vfs

/-! ### The volume -/

/-- The number of a vnode of the volume. -/
def vnodeOf (p : Ptr) : VnodeId := 2 * p

/-- The vnodes of the volume among some vnodes. -/
def ptrs (refs : List VnodeId) : List Ptr :=
  refs.filterMap fun vn => if vn % 2 = 0 then some (vn / 2) else none

/-- The volume, with the counts that the layer has. -/
def volume (s : Vfs Fs) : Fs :=
  { s.world with
    heap := fun p =>
      { s.world.heap p with
        refcount := s.refcount (vnodeOf p)
        opencount := s.opencount (vnodeOf p) } }

/-- The state with another volume. -/
def setVolume (v : Fs) (s : Vfs Fs) : Vfs Fs :=
  { s with
    refcount := fun vn => if vn % 2 = 0 then (v.heap (vn / 2)).refcount else s.refcount vn
    opencount := fun vn => if vn % 2 = 0 then (v.heap (vn / 2)).opencount else s.opencount vn
    world := v }

/-- A routine of SFS. -/
def onVolume {α : Type} (m : Sfs.Run α) : Run Fs α :=
  embed volume setVolume .fs m

/-- An operation on a vnode of the volume, or on another one. -/
def dispatch {α : Type} (vn : VnodeId) (mine : Ptr → Sfs.Run α) (other : Run Fs α) : Run Fs α :=
  if vn % 2 = 0 then onVolume (mine (vn / 2)) else other

/-- A C string as a name. -/
def nameOf (path : CString) : Name where
  bytes := path.takeWhile (· ≠ 0)
  not_mem := by
    intro hmem
    have hne := List.mem_takeWhile_imp hmem
    simp at hne

/-- The number of the vnode that a routine hands back. -/
def handBack (m : Sfs.Run Ptr) : Sfs.Run VnodeId := do
  let q ← m
  pure (vnodeOf q)

/-- The operations of the volume `f` and of the other file systems. -/
def volumeOps (f : AbsFs) (other : VnodeOps Fs) : VnodeOps Fs where
  vnFs vn s := if vn % 2 = 0 then some f else other.vnFs vn s
  getroot g := if g.addr = f.addr then onVolume (handBack Sfs.fsGetroot) else other.getroot g
  openFile vn openflags :=
    dispatch vn (fun p => Sfs.vopOpen p openflags) (other.openFile vn openflags)
  close vn := dispatch vn Sfs.vopClose (other.close vn)
  reclaim vn := dispatch vn Sfs.vopReclaim (other.reclaim vn)
  readlink vn := dispatch vn Sfs.vopReadlink (other.readlink vn)
  gettype vn := dispatch vn Sfs.vopGettype (other.gettype vn)
  truncate vn len := dispatch vn (fun p => Sfs.vopTruncate p len) (other.truncate vn len)
  creat dir name excl :=
    dispatch dir (fun p => handBack (Sfs.vopCreat p (nameOf name) excl))
      (other.creat dir name excl)
  symlink dir name contents := dispatch dir Sfs.vopUnimp (other.symlink dir name contents)
  mkdir dir name := dispatch dir Sfs.vopUnimp (other.mkdir dir name)
  link dir name file :=
    dispatch dir
      (fun p =>
        -- `sfs_link` asserts that the file is on the file system of the directory
        if file % 2 = 0 then Sfs.vopLink p (nameOf name) (file / 2)
        else Sfs.vop p (fail .enotdir) (Routine.panic .linkFs))
      (other.link dir name file)
  remove dir name := dispatch dir (fun p => Sfs.vopRemove p (nameOf name)) (other.remove dir name)
  rmdir dir name := dispatch dir Sfs.vopUnimp (other.rmdir dir name)
  rename d1 n1 d2 n2 :=
    dispatch d1
      (fun p =>
        -- `sfs_rename` asserts that the directories are the same
        if d2 % 2 = 0 then Sfs.vopRename p (nameOf n1) (d2 / 2) (nameOf n2)
        else Sfs.vop p (fail .enotdir) (Routine.panic .renameDirs))
      (other.rename d1 n1 d2 n2)
  lookup dir path :=
    dispatch dir (fun p => handBack (Sfs.vopLookup p (nameOf path))) (other.lookup dir path)
  lookparent dir path buflen :=
    dispatch dir
      (fun p => do
        let q ← handBack (Sfs.vopLookparent p (nameOf path) buflen)
        pure (q, path))
      (other.lookparent dir path buflen)

section Volume

variable {s s' : Vfs Fs} {v : Fs} {vn : VnodeId} {n : ℕ} {refs : List VnodeId} {p : Ptr}

@[simp]
theorem volume_setVolume :
  (s.setVolume v).volume = v
  := by
  simp [volume, setVolume, vnodeOf]

@[simp]
theorem vnodeOf_mod (p : Ptr) :
  vnodeOf p % 2 = 0
  := Nat.mul_mod_right 2 p

@[simp]
theorem vnodeOf_div (p : Ptr) :
  vnodeOf p / 2 = p
  := Nat.mul_div_cancel_left p (by decide)

theorem vnodeOf_half (h : vn % 2 = 0) :
  vnodeOf (vn / 2) = vn
  := Nat.mul_div_cancel' (Nat.dvd_of_mod_eq_zero h)

theorem ptrs_append (refs refs' : List VnodeId) :
  ptrs (refs ++ refs') = ptrs refs ++ ptrs refs'
  := List.filterMap_append

theorem ptrs_even (h : vn % 2 = 0) :
  ptrs (vn :: refs) = vn / 2 :: ptrs refs
  := by
  simp [ptrs, h]

theorem ptrs_odd (h : vn % 2 = 1) :
  ptrs (vn :: refs) = ptrs refs
  := by
  simp [ptrs, h]

theorem mem_ptrs (h : vn % 2 = 0) (hmem : vn ∈ refs) :
  vn / 2 ∈ ptrs refs
  := by
  rw [ptrs, List.mem_filterMap]
  exact ⟨vn, hmem, if_pos h⟩

theorem mem_ptrs_cons (h : p ∈ ptrs refs) :
  p ∈ ptrs (vn :: refs)
  := by
  have hsplit : ptrs (vn :: refs) = ptrs [vn] ++ ptrs refs := ptrs_append [vn] refs
  rw [hsplit]
  exact List.mem_append_right _ h

/-- The counts of a vnode of the volume. -/
theorem refcount_volume (h : vn % 2 = 0) :
  (s.volume.heap (vn / 2)).refcount = s.refcount vn
  := by
  simp only [volume, vnodeOf_half h]

theorem opencount_volume (h : vn % 2 = 0) :
  (s.volume.heap (vn / 2)).opencount = s.opencount vn
  := by
  simp only [volume, vnodeOf_half h]

theorem vnodeOf_eq_iff (h : vn % 2 = 0) :
  vnodeOf p = vn ↔ p = vn / 2
  := by
  constructor
  · rintro rfl
    exact (vnodeOf_div p).symm
  · rintro rfl
    exact vnodeOf_half h

theorem not_even (h : vn % 2 = 1) :
  ¬ vn % 2 = 0
  := by
  rw [h]
  decide

theorem vnodeOf_ne (h : vn % 2 = 1) (p : Ptr) :
  vnodeOf p ≠ vn
  := by
  rintro rfl
  exact not_even h (vnodeOf_mod p)

/-- The layer changes the count of a vnode of the volume. -/
theorem volume_setRefcount (h : vn % 2 = 0) :
  (s.setRefcount vn n).volume = s.volume.update (vn / 2) fun sv => { sv with refcount := n }
  := by
  simp only [volume, setRefcount, Fs.update, Function.update_apply, vnodeOf_eq_iff h]
  congr 1
  funext p
  by_cases hp : p = vn / 2
  · subst hp
    simp only [if_true]
  · simp only [if_neg hp]

theorem volume_setOpencount (h : vn % 2 = 0) :
  (s.setOpencount vn n).volume = s.volume.update (vn / 2) fun sv => { sv with opencount := n }
  := by
  simp only [volume, setOpencount, Fs.update, Function.update_apply, vnodeOf_eq_iff h]
  congr 1
  funext p
  by_cases hp : p = vn / 2
  · subst hp
    simp only [if_true]
  · simp only [if_neg hp]

/-- The counts of the other vnodes are not in the volume. -/
theorem volume_setRefcount_other (h : vn % 2 = 1) :
  (s.setRefcount vn n).volume = s.volume
  := by
  simp only [volume, setRefcount, Function.update_of_ne (vnodeOf_ne h _)]

theorem volume_setOpencount_other (h : vn % 2 = 1) :
  (s.setOpencount vn n).volume = s.volume
  := by
  simp only [volume, setOpencount, Function.update_of_ne (vnodeOf_ne h _)]

end Volume

/-! ### The other file systems -/

/-- A step that leaves the volume, the current directory and the table of the devices. -/
structure Beside (s s' : Vfs Fs) : Prop where
  volume : s'.volume = s.volume
  cwd : s'.cwd = s.cwd
  bootfs : s'.bootfs = s.bootfs
  knowndevs : s'.knowndevs = s.knowndevs

/-- A panic that is none of the volume, apart from the one of `sfs_getroot` when memory is
refused. -/
def Tolerated (p : VfsPanic) : Prop := ∀ q, p = .fs q → q = .getroot

/-- A specification that admits the panics that are not of the volume. -/
abbrev Safe {α : Type} (m : Run Fs α) (s : Vfs Fs) (Q : α → Vfs Fs → Prop)
    (E : Errno → Vfs Fs → Prop) : Prop :=
  wlp Tolerated m s Q E

/-- An operation of another file system, which leaves the volume. -/
def Foreign {α : Type} (m : Run Fs α) (ok : α → Prop) : Prop :=
  ∀ s, Safe m s (fun a s' => ok a ∧ Beside s s') (fun _ s' => Beside s s')

/-- The other file systems leave the volume `f`, and hand back vnodes of their own. -/
structure Apart (f : AbsFs) (other : VnodeOps Fs) : Prop where
  vnFs : ∀ vn s g, other.vnFs vn s = some g → g.addr ≠ f.addr
  getroot : ∀ g s, g.addr ≠ f.addr →
    Safe (other.getroot g) s (fun vn s' => vn % 2 = 1 ∧ Beside s s') (fun _ _ => False)
  openFile : ∀ vn openflags, vn % 2 = 1 → Foreign (other.openFile vn openflags) fun _ => True
  close : ∀ vn, vn % 2 = 1 → Foreign (other.close vn) fun _ => True
  reclaim : ∀ vn, vn % 2 = 1 → Foreign (other.reclaim vn) fun _ => True
  truncate : ∀ vn len, vn % 2 = 1 → Foreign (other.truncate vn len) fun _ => True
  creat : ∀ dir name excl, dir % 2 = 1 → Foreign (other.creat dir name excl) (· % 2 = 1)
  link : ∀ dir name file, dir % 2 = 1 → Foreign (other.link dir name file) fun _ => True
  remove : ∀ dir name, dir % 2 = 1 → Foreign (other.remove dir name) fun _ => True
  rename : ∀ d1 n1 d2 n2, d1 % 2 = 1 → Foreign (other.rename d1 n1 d2 n2) fun _ => True
  lookup : ∀ dir path, dir % 2 = 1 → Foreign (other.lookup dir path) (· % 2 = 1)
  lookparent : ∀ dir path buflen, dir % 2 = 1 →
    Foreign (other.lookparent dir path buflen) (·.1 % 2 = 1)

/-! ### The references that are held -/

/-- The property of volumes is kept by steps that leave the files, while the vnodes `refs` are
held. -/
def Stable (refs : List VnodeId) (R : Fs → Prop) : Prop :=
  ∀ v v', R v → Sfs.SameFiles v v' →
    (∀ p ∈ ptrs refs, (v'.heap p).ino = (v.heap p).ino) → R v'

/-- During a call that started in `s₀`, the references `refs` are held besides the ones of the
layer, and `R` holds of the volume. -/
structure Good (R : Fs → Prop) (s₀ : Vfs Fs) (refs : List VnodeId) (s : Vfs Fs) : Prop where
  holding : Sfs.Holding (ptrs s₀.holders) (ptrs refs) s.volume
  files : R s.volume
  cwd : s.cwd = s₀.cwd
  bootfs : s.bootfs = s₀.bootfs
  knowndevs : s.knowndevs = s₀.knowndevs

section Good

variable {R R' : Fs → Prop} {s₀ s s' : Vfs Fs} {refs refs' : List VnodeId} {vn : VnodeId} {v : Fs}

theorem Stable.mono (h : Stable refs R) (hsub : ∀ p ∈ ptrs refs, p ∈ ptrs refs') :
  Stable refs' R
  := by
  intro v v' hv hsame hinos
  exact h v v' hv hsame fun p hp => hinos p (hsub p hp)

theorem Stable.cons (h : Stable refs R) :
  Stable (vn :: refs) R
  := by
  apply h.mono
  intro p hp
  exact mem_ptrs_cons hp

theorem Stable.and (h : Stable refs R) (h' : Stable refs R') :
  Stable refs fun v => R v ∧ R' v
  := by
  intro v v' hv hsame hinos
  exact ⟨h v v' hv.1 hsame hinos, h' v v' hv.2 hsame hinos⟩

/-- What is said of the inode number of a vnode that is held. -/
theorem Stable.ino (P : ℕ → Prop) :
  Stable (vn :: refs) fun v => vn % 2 = 0 → P (v.heap (vn / 2)).ino
  := by
  intro v v' hv _ hinos heven
  rw [hinos _ (mem_ptrs heven List.mem_cons_self)]
  exact hv heven

theorem Stable.even_ino (P : ℕ → Prop) :
  Stable (vn :: refs) fun v => vn % 2 = 0 ∧ P (v.heap (vn / 2)).ino
  := by
  intro v v' hv _ hinos
  refine ⟨hv.1, ?_⟩
  rw [hinos _ (mem_ptrs hv.1 List.mem_cons_self)]
  exact hv.2

theorem Stable.or (h : Stable refs R) (h' : Stable refs R') :
  Stable refs fun v => R v ∨ R' v
  := by
  intro v v' hv hsame hinos
  rcases hv with hv | hv
  · exact .inl (h v v' hv hsame hinos)
  · exact .inr (h' v v' hv hsame hinos)

theorem Stable.const (c : Prop) :
  Stable refs fun _ => c
  := fun _ _ hc _ _ => hc

theorem Stable.imp (c : Prop) (h : Stable refs R) :
  Stable refs fun v => c → R v
  := fun v v' hv hsame hinos hc => h v v' (hv hc) hsame hinos

theorem Stable.added (name : Name) (v : Fs) :
  Stable refs (Sfs.Added name v)
  := by
  intro v₁ v₂ hv hsame _
  exact hv.sameFiles hsame

theorem Stable.sameFiles (v : Fs) :
  Stable refs (Sfs.SameFiles v)
  := by
  intro v₁ v₂ hv hsame _
  exact hv.trans hsame

namespace Good

theorem imp (h : Good R s₀ refs s) (hR : R s.volume → R' s.volume) :
  Good R' s₀ refs s
  := { h with files := hR h.files }

theorem perm (h : Good R s₀ refs s) (hperm : refs.Perm refs') :
  Good R s₀ refs' s
  := { h with holding := h.holding.perm (hperm.filterMap _) }

theorem beside (h : Good R s₀ refs s) (hb : Beside s s') :
  Good R s₀ refs s'
  := by
  refine ⟨?_, ?_, hb.cwd.trans h.cwd, hb.bootfs.trans h.bootfs, hb.knowndevs.trans h.knowndevs⟩
  · rw [hb.volume]
    exact h.holding
  · rw [hb.volume]
    exact h.files

/-- A reference to a vnode of another file system. -/
theorem cons_odd (h : Good R s₀ refs s) (hodd : vn % 2 = 1) :
  Good R s₀ (vn :: refs) s
  := by
  refine { h with holding := ?_ }
  rw [ptrs_odd hodd]
  exact h.holding

theorem tail_odd (h : Good R s₀ (vn :: refs) s) (hodd : vn % 2 = 1) :
  Good R s₀ refs s
  := by
  have hold := h.holding
  rw [ptrs_odd hodd] at hold
  exact { h with holding := hold }

variable (h : Good R s₀ refs s)
include h

/-- The volume after a routine of SFS. -/
theorem setVolume (hv : Sfs.Holding (ptrs s₀.holders) (ptrs refs') v) (hR : R' v) :
  Good R' s₀ refs' (s.setVolume v)
  := by
  refine { h with holding := ?_, files := ?_ }
  · rw [volume_setVolume]
    exact hv
  · rw [volume_setVolume]
    exact hR

/-- What is true of the volume stays true when the files do. -/
theorem files_unchanged {held held' : List Ptr} (hR : Stable refs' R)
    (hu : Sfs.Unchanged held held' s.volume v)
    (hsub : ∀ p ∈ ptrs refs', p ∈ ptrs refs ∧ p ∈ held') :
  R v
  := by
  apply hR s.volume v h.files hu.same
  intro p hp
  exact hu.inos p (h.holding.loaded p (List.mem_append_right _ (hsub p hp).1))
    (hu.holding.loaded p (List.mem_append_right _ (hsub p hp).2))

/-- The layer changes the counts of the volume, and with them the references. -/
theorem recount {refs₁ : List VnodeId} (hR : Stable refs₁ R)
    (hu : Sfs.Unchanged (ptrs s₀.holders) (ptrs refs') s.volume s'.volume)
    (hsub : ∀ p ∈ ptrs refs₁, p ∈ ptrs refs ∧ p ∈ ptrs refs') (hcwd : s'.cwd = s.cwd)
    (hbootfs : s'.bootfs = s.bootfs) (hknowndevs : s'.knowndevs = s.knowndevs) :
  Good R s₀ refs' s'
  := ⟨hu.holding, h.files_unchanged hR hu hsub, hcwd.trans h.cwd, hbootfs.trans h.bootfs,
    hknowndevs.trans h.knowndevs⟩

/-- A routine of SFS leaves the files and the references. -/
theorem unchanged (hR : Stable refs R)
    (hu : Sfs.Unchanged (ptrs s₀.holders) (ptrs refs) s.volume v) :
  Good R s₀ refs (s.setVolume v)
  := h.setVolume hu.holding (h.files_unchanged hR hu fun _ hp => ⟨hp, hp⟩)

/-- A routine of SFS leaves the files and hands back a vnode. -/
theorem handed (hR : Stable refs R) {q : Ptr}
    (hu : Sfs.Unchanged (ptrs s₀.holders) (q :: ptrs refs) s.volume v) :
  Good R s₀ (vnodeOf q :: refs) (s.setVolume v)
  := by
  have hptrs : ptrs (vnodeOf q :: refs) = q :: ptrs refs := by
    rw [ptrs_even (vnodeOf_mod q), vnodeOf_div]
  apply h.setVolume
  · rw [hptrs]
    exact hu.holding
  · exact h.files_unchanged hR hu fun _ hp => ⟨hp, List.mem_cons_of_mem _ hp⟩

/-- A vnode that is held is loaded. -/
theorem mem (heven : vn % 2 = 0) (hvn : vn ∈ refs) :
  vn / 2 ∈ s.volume.vnodes.guys
  := h.holding.loaded _ (List.mem_append_right _ (mem_ptrs heven hvn))

end Good

end Good

/-! ### Counts -/

section Counts

variable {α : Type} {R : Fs → Prop} {s₀ s : Vfs Fs} {refs : List VnodeId} {vn : VnodeId}
  {Q : α → Vfs Fs → Prop} {E : Errno → Vfs Fs → Prop}

theorem touch_safe {Q : Unit → Vfs Fs → Prop} (hQ : Q () s) :
  Safe (touch vn) s Q E
  := by
  simp only [Safe, touch, wlp_bind, wlp_get, wlp_assert]
  refine ⟨fun _ => hQ, fun _ => ?_⟩
  rintro q ⟨⟩

theorem vop_safe (hm : Safe m s Q E) :
  Safe (vop vn m) s Q E
  := by
  simp only [Safe, vop, wlp_bind, wlp_get, wlp_assert]
  refine ⟨fun _ => hm, fun _ => ?_⟩
  rintro q ⟨⟩

/-- A routine of SFS that does not panic. -/
theorem onVolume_safe
    (hm : wp m s.volume (fun a v => Q a (s.setVolume v)) (fun e v => E e (s.setVolume v))) :
  Safe (onVolume m) s Q E
  := by
  rw [Safe, onVolume, wlp_embed]
  exact wlp_of_wp hm

theorem dispatch_safe {mine : Ptr → Sfs.Run α} {other : Run Fs α}
    (hmine : vn % 2 = 0 → Safe (onVolume (mine (vn / 2))) s Q E)
    (hother : vn % 2 = 1 → Safe other s Q E) :
  Safe (dispatch vn mine other) s Q E
  := by
  rw [Safe, dispatch, wlp_ite]
  exact ⟨hmine, fun hodd => hother (Nat.mod_two_ne_zero.mp hodd)⟩

theorem Foreign.safe {ok : α → Prop} (hm : Foreign m ok) (hQ : ∀ a s', ok a → Beside s s' → Q a s')
    (hE : ∀ e s', Beside s s' → E e s') :
  Safe m s Q E
  := by
  apply wlp_mono (hm s)
  · rintro a s' ⟨ha, hb⟩
    exact hQ a s' ha hb
  · exact hE

/-- An operation on a vnode: the one of SFS does not panic, or the vnode is of another file
system, which leaves the volume. -/
theorem op_safe {mine : Ptr → Sfs.Run α} {op : Run Fs α} {ok : α → Prop}
    (hop : vn % 2 = 1 → Foreign op ok)
    (hmine : vn % 2 = 0 → wp (mine (vn / 2)) s.volume (fun a v => Q a (s.setVolume v))
      (fun e v => E e (s.setVolume v)))
    (hQ : vn % 2 = 1 → ∀ a s', ok a → Beside s s' → Q a s')
    (hE : vn % 2 = 1 → ∀ e s', Beside s s' → E e s') :
  Safe (vop vn (dispatch vn mine op)) s Q E
  := by
  apply vop_safe
  apply dispatch_safe
  · intro heven
    exact onVolume_safe (hmine heven)
  · intro hodd
    exact (hop hodd).safe (hQ hodd) (hE hodd)

/-- `vnode_incref`, of a vnode that is held or that the layer refers to. -/
theorem incref_safe (hR : Stable refs R) (h : Good R s₀ refs s) (hvn : vn ∈ s₀.holders ++ refs) :
  Safe (incref vn) s (fun _ s' => Good R s₀ (vn :: refs) s') E
  := by
  rw [Safe, incref, wlp_bind]
  apply touch_safe
  rw [wlp_modify]
  rcases Nat.mod_two_eq_zero_or_one vn with heven | hodd
  · have hu := h.holding.incref (q := vn / 2) (by
      rw [← ptrs_append]
      exact mem_ptrs heven hvn)
    refine h.recount hR ?_ (fun _ hp => ⟨hp, mem_ptrs_cons hp⟩) rfl rfl rfl
    rw [volume_setRefcount heven, ← refcount_volume heven, ptrs_even heven]
    exact hu
  · apply Good.cons_odd _ hodd
    exact h.beside ⟨volume_setRefcount_other hodd, rfl, rfl, rfl⟩

variable {f : AbsFs} {other : VnodeOps Fs}

/-- Whoever holds a reference can drop it. -/
theorem decref_safe (hother : Apart f other) (hR : Stable refs R) (h : Good R s₀ (vn :: refs) s) :
  Safe (decref (volumeOps f other) vn) s (fun _ s' => Good R s₀ refs s') E
  := by
  have hsub : ∀ p ∈ ptrs refs, p ∈ ptrs (vn :: refs) ∧ p ∈ ptrs refs :=
    fun p hp => ⟨mem_ptrs_cons hp, hp⟩
  simp only [Safe, decref, wlp_bind, wlp_get, wlp_assert,
    wlp_ite, wlp_modify, wlp_attempt, wlp_pure]
  refine ⟨fun hpos => ⟨fun hlt => ?_, fun hlast => ?_⟩, ?_⟩
  · rcases Nat.mod_two_eq_zero_or_one vn with heven | hodd
    · have hold := h.holding
      rw [ptrs_even heven] at hold
      have hu := hold.decref (by rw [refcount_volume heven]; exact hlt)
      refine h.recount hR ?_ hsub rfl rfl rfl
      rw [volume_setRefcount heven, ← refcount_volume heven]
      exact hu
    · exact (h.tail_odd hodd).beside ⟨volume_setRefcount_other hodd, rfl, rfl, rfl⟩
  · apply dispatch_safe
    · intro heven
      have hold := h.holding
      rw [ptrs_even heven] at hold
      have href : (s.volume.heap (vn / 2)).refcount = 1 := by
        rw [refcount_volume heven]
        omega
      apply onVolume_safe
      apply wp_sure (Sfs.vopReclaim_spec hold href)
      intro _ v hu
      exact h.setVolume hu.holding (h.files_unchanged hR hu hsub)
    · intro hodd
      apply (hother.reclaim vn hodd).safe
      · intro _ s' _ hb
        exact (h.tail_odd hodd).beside hb
      · intro _ s' hb
        exact (h.tail_odd hodd).beside hb
  · rintro - q ⟨⟩

/-- A reference is dropped after an operation, whatever it returns. -/
theorem thenDecref_safe (hother : Apart f other) {m : Run Fs α} {g : α → List VnodeId}
    {R' : α → Fs → Prop} (hR : Stable refs R) (hR' : ∀ a, Stable (g a ++ refs) (R' a))
    (h : Safe m s (fun a s' => Good (R' a) s₀ (g a ++ vn :: refs) s')
      (fun _ s' => Good R s₀ (vn :: refs) s')) :
  Safe (thenDecref (volumeOps f other) vn m) s (fun a s' => Good (R' a) s₀ (g a ++ refs) s')
    (fun _ s' => Good R s₀ refs s')
  := by
  rw [Safe, thenDecref, wlp_bind, wlp_attempt]
  apply wlp_mono h
  · intro a s₁ hs₁
    rw [wlp_bind]
    apply wlp_imp (decref_safe hother (hR' a) (hs₁.perm List.perm_middle))
    intro _ s₂ hs₂
    exact hs₂
  · intro e s₁ hs₁
    rw [wlp_bind]
    apply wlp_imp (decref_safe hother hR hs₁)
    intro _ s₂ hs₂
    exact hs₂

/-! ### Open files -/

/-- A vnode that has been opened, with an inode number in `P`. -/
def Opened (P : ℕ → Prop) (vn : VnodeId) (s : Vfs Fs) : Prop :=
  vn % 2 = 0 → vn / 2 ∈ s.volume.vnodes.guys ∧ 0 < s.opencount vn
    ∧ s.volume.HasName (s.volume.heap (vn / 2)).ino ∧ P (s.volume.heap (vn / 2)).ino

variable {P : ℕ → Prop}

theorem Opened.odd (h : vn % 2 = 1) :
  Opened P vn s
  := fun heven => absurd heven (not_even h)

/-- `vnode_incopen`: the reference that is held is the one of the open file then. -/
theorem incopen_safe (hR : Stable refs R) (h : Good R s₀ (vn :: refs) s)
    (hP : vn % 2 = 0 → P (s.volume.heap (vn / 2)).ino) :
  Safe (incopen vn) s (fun _ s' => Good R s₀ refs s' ∧ Opened P vn s') E
  := by
  rw [Safe, incopen, wlp_bind]
  apply touch_safe
  rw [wlp_modify]
  rcases Nat.mod_two_eq_zero_or_one vn with heven | hodd
  · have hold := h.holding
    rw [ptrs_even heven] at hold
    have hu := hold.opened
    have hvol := volume_setOpencount (s := s) (n := s.opencount vn + 1) heven
    rw [← opencount_volume heven] at hvol
    rw [← opencount_volume heven]
    refine ⟨?_, fun _ => ⟨?_, ?_, ?_, ?_⟩⟩
    · refine h.recount hR ?_ (fun _ hp => ⟨mem_ptrs_cons hp, hp⟩) rfl rfl rfl
      rw [hvol]
      exact hu
    · rw [hvol]
      exact hold.mem
    · simp only [setOpencount, Function.update_self]
      omega
    · have hname := hold.named _ List.mem_cons_self
      rw [← hu.same.hasName] at hname
      rw [hvol, Fs.heap_update_self]
      exact hname
    · rw [hvol, Fs.heap_update_self]
      exact hP heven
  · refine ⟨?_, Opened.odd hodd⟩
    exact (h.tail_odd hodd).beside ⟨volume_setOpencount_other hodd, rfl, rfl, rfl⟩

/-- `vnode_decopen`: the reference of the open file is left. -/
theorem decopen_safe (hother : Apart f other) (hR : Stable refs R) (h : Good R s₀ refs s)
    (hopen : Opened P vn s) :
  Safe (decopen (volumeOps f other) vn) s (fun _ s' => Good R s₀ (vn :: refs) s') E
  := by
  have hclosed : Good R s₀ (vn :: refs) (s.setOpencount vn (s.opencount vn - 1)) := by
    rcases Nat.mod_two_eq_zero_or_one vn with heven | hodd
    · obtain ⟨hmem, hpos, hname, -⟩ := hopen heven
      rw [← opencount_volume heven] at hpos
      have hu := h.holding.closed hmem hpos hname
      refine h.recount hR ?_ (fun _ hp => ⟨hp, mem_ptrs_cons hp⟩) rfl rfl rfl
      rw [volume_setOpencount heven, ← opencount_volume heven, ptrs_even heven]
      exact hu
    · apply Good.cons_odd _ hodd
      exact h.beside ⟨volume_setOpencount_other hodd, rfl, rfl, rfl⟩
  rw [Safe, decopen, wlp_bind]
  apply touch_safe
  simp only [wlp_bind, wlp_get, wlp_assert, wlp_modify, wlp_ite, wlp_pure, wlp_attempt]
  refine ⟨fun _ => ⟨fun _ => hclosed, fun _ => ?_⟩, ?_⟩
  · apply op_safe (hother.close vn)
    · intro heven
      apply wp_sure (Sfs.vopClose_spec hclosed.holding (hclosed.mem heven List.mem_cons_self))
      intro _ v hu
      exact hclosed.unchanged hR.cons hu
    · exact fun _ _ s' _ hb => hclosed.beside hb
    · exact fun _ _ s' hb => hclosed.beside hb
  · rintro - q ⟨⟩

/-! ### Operations -/

variable (hother : Apart f other)
include hother

/-- `VOP_OPEN`, which refuses `O_APPEND`, and to open a directory for writing. -/
theorem vopOpen_safe (hR : Stable refs R) (h : Good R s₀ refs s) (hvn : vn ∈ refs)
    (openflags : UInt32) :
  Safe (vop vn ((volumeOps f other).openFile vn openflags)) s
    (fun _ s' => Good R s₀ refs s'
      ∧ (vn % 2 = 0 → (s'.volume.heap (vn / 2)).ino = 1 → openflags &&& 3 = 0))
    (fun _ s' => Good R s₀ refs s'
      ∧ (vn % 2 = 0 → (s.volume.heap (vn / 2)).ino ≠ 1 → openflags &&& 32 ≠ 0))
  := by
  simp only [volumeOps]
  apply op_safe (hother.openFile vn openflags)
  · intro heven
    apply wp_mono (Sfs.vopOpen_spec h.holding (h.mem heven hvn) openflags)
    · rintro _ v ⟨hdir, rfl⟩
      refine ⟨h.unchanged hR (Sfs.Unchanged.refl h.holding), fun _ => ?_⟩
      rw [volume_setVolume]
      exact hdir
    · rintro _ v ⟨hfile, rfl⟩
      exact ⟨h.unchanged hR (Sfs.Unchanged.refl h.holding), fun _ => hfile⟩
  · intro hodd _ s' _ hb
    exact ⟨h.beside hb, fun heven => absurd heven (not_even hodd)⟩
  · intro hodd _ s' hb
    exact ⟨h.beside hb, fun heven => absurd heven (not_even hodd)⟩

/-- `VOP_TRUNCATE` of a file that has been opened: it fails for a directory of the volume, or for
a vnode of another file system. -/
theorem vopTruncate_safe (h : Good R s₀ refs s) (hopen : Opened P vn s) :
  Safe (vop vn ((volumeOps f other).truncate vn 0)) s
    (fun _ s' => Good (fun _ => True) s₀ refs s')
    (fun _ s' => Good R s₀ refs s' ∧ Opened P vn s' ∧ (vn % 2 = 0 → P 1))
  := by
  simp only [volumeOps]
  apply op_safe (hother.truncate vn 0)
  · intro heven
    obtain ⟨hmem, hpos, hname, hP⟩ := hopen heven
    apply wp_mono (Sfs.vopTruncate_spec h.holding hmem)
    · intro _ v hv
      exact h.setVolume hv trivial
    · rintro _ v ⟨hone, rfl⟩
      refine ⟨h.setVolume h.holding h.files, fun _ => ?_, fun _ => by rw [← hone]; exact hP⟩
      rw [volume_setVolume]
      refine ⟨hmem, ?_, hname, hP⟩
      simp only [setVolume, heven, if_true, opencount_volume heven]
      exact hpos
  · intro _ _ s' _ hb
    exact (h.beside hb).imp fun _ => trivial
  · intro hodd _ s' hb
    exact ⟨h.beside hb, Opened.odd hodd, fun heven => absurd heven (not_even hodd)⟩

/-- `VOP_LOOKUP` hands back a regular file. -/
theorem vopLookup_safe (hR : Stable refs R) (h : Good R s₀ refs s) (hvn : vn ∈ refs)
    (path : CString) :
  Safe (vop vn ((volumeOps f other).lookup vn path)) s
    (fun q s' => Good (fun v => R v ∧ (q % 2 = 0 → (v.heap (q / 2)).ino ≠ 1)) s₀ (q :: refs) s')
    (fun _ s' => Good R s₀ refs s')
  := by
  simp only [volumeOps]
  apply op_safe (hother.lookup vn path)
  · intro heven
    simp only [handBack, wp_bind, wp_pure]
    apply wp_mono (Sfs.vopLookup_spec h.holding (h.mem heven hvn) (nameOf path))
    · rintro q v ⟨hne, hu⟩
      apply (h.handed hR hu).imp
      intro hv
      refine ⟨hv, fun _ => ?_⟩
      rw [volume_setVolume, vnodeOf_div]
      exact hne
    · intro _ v hu
      exact h.unchanged hR hu
  · intro _ q s' hq hb
    apply ((h.beside hb).cons_odd hq).imp
    intro hv
    exact ⟨hv, fun heven => absurd heven (not_even hq)⟩
  · exact fun _ _ s' hb => h.beside hb

/-- `VOP_LOOKPARENT` hands back a directory, and the path as it is. -/
theorem vopLookparent_safe (hR : Stable refs R) (h : Good R s₀ refs s) (hvn : vn ∈ refs)
    (path : CString) (buflen : ℕ) :
  Safe (vop vn ((volumeOps f other).lookparent vn path buflen)) s
    (fun r s' => Good (fun v => R v ∧ (r.1 % 2 = 0 → (v.heap (r.1 / 2)).ino = 1)
      ∧ (r.1 % 2 = 0 → vn % 2 = 0 ∧ r.2 = path)) s₀ (r.1 :: refs) s')
    (fun _ s' => Good R s₀ refs s')
  := by
  simp only [volumeOps]
  apply op_safe (hother.lookparent vn path buflen)
  · intro heven
    simp only [handBack, wp_bind, wp_pure]
    apply wp_mono (Sfs.vopLookparent_spec h.holding
      (List.mem_append_right _ (mem_ptrs heven hvn)) (nameOf path) buflen)
    · rintro q v ⟨hone, hu⟩
      apply (h.handed hR hu).imp
      intro hv
      refine ⟨hv, fun _ => ?_, fun _ => ⟨heven, trivial⟩⟩
      rw [volume_setVolume, vnodeOf_div]
      exact hone
    · intro _ v hu
      exact h.unchanged hR hu
  · intro _ r s' hr hb
    apply ((h.beside hb).cons_odd hr).imp
    intro hv
    exact ⟨hv, fun heven => absurd heven (not_even hr), fun heven => absurd heven (not_even hr)⟩
  · exact fun _ _ s' hb => h.beside hb

/-- `VOP_CREAT` hands back a file that was there, or makes one. -/
theorem vopCreat_safe (hR : Stable refs R) (h : Good R s₀ refs s) (hvn : vn ∈ refs) (name : CString)
    (excl : Bool) :
  Safe (vop vn ((volumeOps f other).creat vn name excl)) s
    (fun q s' => Good (fun v => R v ∨ vn % 2 = 0 ∧ Sfs.Added (nameOf name) s.volume v
      ∧ q % 2 = 0 ∧ (v.heap (q / 2)).ino ≠ 1) s₀ (q :: refs) s')
    (fun _ s' => Good R s₀ refs s')
  := by
  simp only [volumeOps]
  apply op_safe (hother.creat vn name excl)
  · intro heven
    simp only [handBack, wp_bind, wp_pure]
    apply wp_mono (Sfs.vopCreat_spec h.holding (h.mem heven hvn) (nameOf name) excl)
    · rintro q v (hu | ⟨hv, hadded, hne⟩)
      · exact (h.handed hR hu).imp .inl
      · apply h.setVolume
        · rw [ptrs_even (vnodeOf_mod q), vnodeOf_div]
          exact hv
        · rw [vnodeOf_div]
          exact .inr ⟨heven, hadded, vnodeOf_mod q, hne⟩
    · intro _ v hu
      exact h.unchanged hR hu
  · intro _ q s' hq hb
    exact ((h.beside hb).cons_odd hq).imp .inl
  · exact fun _ _ s' hb => h.beside hb

end Counts

end Vfs
