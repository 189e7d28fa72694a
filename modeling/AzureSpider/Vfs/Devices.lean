import AzureSpider.Errno
import AzureSpider.Kern.Panic
import AzureSpider.Lib.Routine
import AzureSpider.Kern.Table
import Mathlib.Data.List.Perm.Basic

/-!
# The table of named devices

`vfslist.c`: the table of the devices and file systems that paths can name.  An entry answers
to its name, to the name of its raw device, and to the volume name of the file system that is
mounted on it.

`vfs_doadd` refuses an entry with a name that is in use, whereas `vfs_mount` takes the volume
name of the file system that it mounts as it comes.  As long as no volume name is one of another
entry, no two entries share a name, and what a name stands for does not depend on the order of
the table.
-/

open Routine

/-- A C string: its bytes, without the NUL at the end. -/
abbrev CString := List UInt8

/-- A vnode, by its address. -/
abbrev VnodeId := ℕ

/-- A device, by its address. -/
abbrev DeviceId := ℕ

/-- `struct fs`, by its address, with the volume name, which `fs.h` asks to consider fixed. -/
structure AbsFs where
  addr : ℕ
  volname : Option CString
  deriving DecidableEq, Repr

/-- `struct knowndev`. -/
structure KnownDev where
  name : CString
  rawname : Option CString
  device : Option DeviceId
  vnode : VnodeId
  fs : Option AbsFs
  deriving DecidableEq, Repr

/-- The places where the VFS layer panics. -/
inductive VfsPanic where
  -- `vfs_getroot`
  | getrootFs | getrootRawname | getrootDevice | getrootRawDevice
  -- `dev_create_vnode`
  | vopInit
  -- `vfs_mount`, `vfs_unmount`
  | mountRawname | mountDevice | unmountRawname | unmountDevice
  -- `vnode.c`, and any access to a vnode without references
  | vnodeCheck | decrefRefcount | decopenOpencount | unreferenced
  -- `getdevice`
  | getdeviceFs
  -- a file system
  | fs (p : FsPanic)
  deriving DecidableEq, Repr

/-- What the name of a device stands for: the root of a file system, or the device. -/
inductive DevRoot where
  | fs (fs : AbsFs)
  | device (vn : VnodeId)
  deriving DecidableEq, Repr

/-- The device table, with the answers that `kmalloc` will give; when none are left it
succeeds. -/
structure Devices where
  knowndevs : Table KnownDev
  kmallocs : List Bool
  deriving DecidableEq, Repr

/-! ### Names -/

namespace KnownDev

/-- The names an entry answers to. -/
def names (kd : KnownDev) : List CString :=
  kd.name :: (kd.rawname.toList ++ (kd.fs.bind AbsFs.volname).toList)

theorem mem_names {kd : KnownDev} {n : CString} :
  n ∈ kd.names
    ↔ some kd.name = some n ∨ kd.rawname = some n ∨ kd.fs.bind AbsFs.volname = some n
  := by
  simp only [names, List.mem_cons, List.mem_append, Option.mem_toList, Option.some.injEq,
    @eq_comm _ n]

/-- The two entries have a name in common. -/
def Shares (kd kd' : KnownDev) : Prop := ∃ n, n ∈ kd.names ∧ n ∈ kd'.names

/-- The second half of the body of the loop of `vfs_getroot`: the device itself, or what is
`next`. -/
def orDevice {σ : Type} (kd : KnownDev) (devname : CString)
    (next : Routine Errno VfsPanic σ DevRoot) : Routine Errno VfsPanic σ DevRoot :=
  if kd.name = devname then do
    assert (kd.fs = none) .getrootFs
    assert (kd.rawname = none) .getrootRawname
    assert (kd.device ≠ none) .getrootDevice
    pure (.device kd.vnode)
  else if kd.rawname = some devname then do
    assert (kd.device ≠ none) .getrootRawDevice
    pure (.device kd.vnode)
  else
    next

end KnownDev

namespace Devices

/-- Routines on the device table. -/
abbrev Run (α : Type) := Routine Errno VfsPanic Devices α

/-- The loop of `vfs_getroot`, up to the reference it takes to the vnode. -/
def findRoot {σ : Type} (devname : CString) : List KnownDev → Routine Errno VfsPanic σ DevRoot
  | [] => fail .enodev
  | kd :: rest =>
    match kd.fs with
    | some fs =>
      if kd.name = devname ∨ fs.volname = some devname then
        pure (.fs fs)
      else
        kd.orDevice devname (findRoot devname rest)
    | none =>
      if kd.rawname ≠ none ∧ kd.name = devname then
        fail .enxio
      else
        kd.orDevice devname (findRoot devname rest)

/-- `mkrawname`. -/
def mkrawname (name : CString) : CString := name ++ [114, 97, 119]

/-- `samestring`. -/
def samestring : Option CString → Option CString → Bool
  | some a, some b => a == b
  | _, _ => false

/-- `samestring3`. -/
def samestring3 (a b c d : Option CString) : Bool :=
  samestring a b || samestring a c || samestring a d

/-- `badnames`. -/
def badnames (devs : List KnownDev) (n1 n2 n3 : Option CString) : Bool :=
  devs.any fun kd =>
    (match kd.fs with
      | some fs => samestring3 fs.volname n1 n2 n3
      | none => false)
    || samestring3 kd.rawname n1 n2 n3 || samestring3 (some kd.name) n1 n2 n3

/-! ### Operations -/

/-- `kmalloc`. -/
def kmalloc : Run Bool := do
  let s ← get
  modify fun s => { s with kmallocs := s.kmallocs.tail }
  pure (s.kmallocs.headD true)

/-- An allocation without which the caller returns `ENOMEM`. -/
def kmallocOrFail : Run Unit := do
  if ← kmalloc then pure () else fail .enomem

/-- `dev_create_vnode`, which panics when there is no memory for the lock of the vnode. -/
def devCreateVnode : Run Unit := do
  kmallocOrFail
  if ← kmalloc then pure () else Routine.panic .vopInit

/-- The name of the raw device, for a device that can be mounted. -/
def rawnameOf (name : CString) (mountable : Bool) : Run (Option CString) :=
  if mountable then do
    kmallocOrFail
    pure (some (mkrawname name))
  else
    pure none

/-- `vfs_doadd`; `vnode` is what `dev_create_vnode` hands back. -/
def doadd (dname : CString) (mountable : Bool) (dev : Option DeviceId) (fs : Option AbsFs)
    (vnode : VnodeId) : Run Unit := do
  kmallocOrFail
  let rawname ← rawnameOf dname mountable
  devCreateVnode
  kmallocOrFail
  let kd : KnownDev := ⟨dname, rawname, dev, vnode, fs⟩
  let s ← get
  if badnames s.knowndevs.guys (some kd.name) kd.rawname (fs.bind AbsFs.volname) then
    fail .eexist
  else
    let mem ← kmalloc
    match s.knowndevs.add kd mem with
    | none => fail .enomem
    | some t => modify fun s => { s with knowndevs := t }

/-- `vfs_adddev`. -/
def adddev (devname : CString) (dev : DeviceId) (mountable : Bool) (vnode : VnodeId) : Run Unit :=
  doadd devname mountable (some dev) none vnode

/-- `vfs_addfs`. -/
def addfs (devname : CString) (fs : AbsFs) (vnode : VnodeId) : Run Unit :=
  doadd devname false none (some fs) vnode

/-- `findmount`: the mountable device, with its index. -/
def findmount (devname : CString) (devs : List KnownDev) : Option (KnownDev × ℕ) :=
  devs.zipIdx.find? fun p => p.1.rawname ≠ none ∧ devname = p.1.name

/-- Change the file system of the entry `i`. -/
def setFs (i : ℕ) (fs : Option AbsFs) : Run Unit :=
  modify fun s =>
    { s with knowndevs := { s.knowndevs with
      guys := s.knowndevs.guys.modify i fun kd => { kd with fs := fs } } }

/-- `vfs_mount`; the function sets up the file system on the device. -/
def mount (devname : CString) (mountfunc : DeviceId → Except Errno AbsFs) : Run Unit := do
  let s ← get
  match findmount devname s.knowndevs.guys with
  | none => fail .enodev
  | some (kd, i) =>
    if kd.fs ≠ none then
      fail .ebusy
    else
      assert (kd.rawname ≠ none) .mountRawname
      match kd.device with
      | none => Routine.panic .mountDevice
      | some dev =>
        match mountfunc dev with
        | .error e => fail e
        | .ok fs => setFs i (some fs)

/-- What `FSOP_SYNC` returns, and again the second time, and `FSOP_UNMOUNT`. -/
structure FsAnswers where
  sync : Option Errno
  resync : Option Errno
  unmount : Option Errno

/-- `vfs_unmount`. -/
def unmount (devname : CString) (a : FsAnswers) : Run Unit := do
  let s ← get
  match findmount devname s.knowndevs.guys with
  | none => fail .enodev
  | some (kd, i) =>
    if kd.fs = none then
      fail .einval
    else
      assert (kd.rawname ≠ none) .unmountRawname
      assert (kd.device ≠ none) .unmountDevice
      match a.sync, a.unmount with
      | some e, _ => fail e
      | none, some e => fail e
      | none, none => setFs i none

/-- The body of the loop of `vfs_unmountall`. -/
def unmountOne (a : FsAnswers) (kd : KnownDev) : KnownDev :=
  if kd.rawname = none then
    kd
  else if kd.fs = none then
    kd
  else if a.sync ≠ none ∧ a.resync ≠ none then
    kd
  else
    match a.unmount with
    | some _ => kd
    | none => { kd with fs := none }

/-- `vfs_unmountall`; the file system of the entry `i` answers `a i`. -/
def unmountall (a : ℕ → FsAnswers) : Run Unit :=
  modify fun s =>
    { s with knowndevs := { s.knowndevs with
      guys := s.knowndevs.guys.mapIdx fun i kd => unmountOne (a i) kd } }

/-- The calls that change the table. -/
inductive Event where
  | adddev (devname : CString) (dev : DeviceId) (mountable : Bool) (vnode : VnodeId)
  | addfs (devname : CString) (fs : AbsFs) (vnode : VnodeId)
  | mount (devname : CString) (mountfunc : DeviceId → Except Errno AbsFs)
  | unmount (devname : CString) (a : FsAnswers)
  | unmountall (a : ℕ → FsAnswers)

/-- What a call does. -/
def act : Event → Run Unit
  | .adddev devname dev mountable vnode => adddev devname dev mountable vnode
  | .addfs devname fs vnode => addfs devname fs vnode
  | .mount devname mountfunc => mount devname mountfunc
  | .unmount devname a => unmount devname a
  | .unmountall a => unmountall a

/-- The table that `vfs_bootstrap` makes. -/
def boot : Devices := ⟨⟨[], 0⟩, []⟩

/-- A condition on the calls. -/
abbrev Condition := Devices → Event → Prop

/-- Every call is admitted. -/
def anyCall : Condition := fun _ _ => True

/-- The call returns, with or without an error. -/
def Returns (e : Event) (s s' : Devices) : Prop :=
  ∃ mem, act e { s with kmallocs := mem } = .ok () s'
    ∨ ∃ err, act e { s with kmallocs := mem } = .err err s'

/-- One call, which meets the condition. -/
def Step (allow : Condition) (s s' : Devices) : Prop := ∃ e, allow s e ∧ Returns e s s'

/-- The tables that a sequence of calls reaches. -/
abbrev Reaches (allow : Condition) : Devices → Devices → Prop :=
  Relation.ReflTransGen (Step allow)

/-! ### What a name stands for -/

/-- No two entries have a name in common. -/
def Unambiguous (devs : List KnownDev) : Prop := devs.Pairwise fun kd kd' => ¬ kd.Shares kd'

section FindRoot

variable {σ : Type} {devname : CString} {kd : KnownDev} {devs devs' : List KnownDev}

/-- An entry that does not answer to the name is passed over. -/
theorem findRoot_cons_of_not_mem (h : devname ∉ kd.names) :
  (findRoot devname (kd :: devs) : Routine Errno VfsPanic σ DevRoot) = findRoot devname devs
  := by
  simp only [KnownDev.mem_names, Option.some.injEq, not_or] at h
  obtain ⟨hname, hraw, hvol⟩ := h
  have hnext : kd.orDevice devname (findRoot devname devs : Routine Errno VfsPanic σ DevRoot)
      = findRoot devname devs := by
    rw [KnownDev.orDevice, if_neg hname, if_neg hraw]
  rw [findRoot]
  cases hfs : kd.fs with
  | none =>
    simp only
    rw [if_neg (fun hboth => hname hboth.2), hnext]
  | some fs =>
    simp only [hfs, Option.bind_some] at hvol ⊢
    rw [if_neg (not_or.mpr ⟨hname, hvol⟩), hnext]

/-- An entry that answers to the name decides what it stands for. -/
theorem findRoot_cons_of_mem (h : devname ∈ kd.names) (devs devs' : List KnownDev) :
  (findRoot devname (kd :: devs) : Routine Errno VfsPanic σ DevRoot)
    = findRoot devname (kd :: devs')
  := by
  simp only [KnownDev.mem_names, Option.some.injEq] at h
  rw [findRoot, findRoot]
  cases hfs : kd.fs with
  | none =>
    simp only [hfs, Option.bind_none, reduceCtorEq, or_false] at h ⊢
    rcases h with hname | hraw
    · simp [KnownDev.orDevice, hname]
    · simp [KnownDev.orDevice, hraw]
  | some fs =>
    simp only [hfs, Option.bind_some] at h ⊢
    rcases h with hname | hraw | hvol
    · simp [hname]
    · simp [KnownDev.orDevice, hraw]
    · simp [hvol]

/-- In an unambiguous table, the entry that answers to the name decides. -/
theorem Unambiguous.findRoot_eq (h : Unambiguous devs) (hkd : kd ∈ devs)
    (hname : devname ∈ kd.names) :
  (findRoot devname devs : Routine Errno VfsPanic σ DevRoot) = findRoot devname [kd]
  := by
  induction devs with
  | nil => cases hkd
  | cons kd' rest ih =>
    obtain ⟨hhead, hrest⟩ := List.pairwise_cons.mp h
    rcases List.mem_cons.mp hkd with rfl | hkd
    · apply findRoot_cons_of_mem hname
    · rw [findRoot_cons_of_not_mem]
      · apply ih hrest hkd
      · intro hname'
        exact hhead kd hkd ⟨devname, hname', hname⟩

theorem findRoot_eq_fail (h : ∀ kd ∈ devs, devname ∉ kd.names) :
  (findRoot devname devs : Routine Errno VfsPanic σ DevRoot) = fail .enodev
  := by
  induction devs with
  | nil => rfl
  | cons kd rest ih =>
    rw [findRoot_cons_of_not_mem (h kd List.mem_cons_self)]
    apply ih
    intro kd' hkd'
    exact h kd' (List.mem_cons_of_mem _ hkd')

theorem unambiguous_perm (hperm : devs'.Perm devs) :
  Unambiguous devs' ↔ Unambiguous devs
  := by
  apply hperm.pairwise_iff
  intro kd kd' hnot ⟨n, hn, hn'⟩
  exact hnot ⟨n, hn', hn⟩

/-- What a name stands for does not depend on the order of an unambiguous table. -/
theorem Unambiguous.findRoot_perm (h : Unambiguous devs) (hperm : devs'.Perm devs)
    (devname : CString) :
  (findRoot devname devs' : Routine Errno VfsPanic σ DevRoot) = findRoot devname devs
  := by
  by_cases hsome : ∃ kd ∈ devs, devname ∈ kd.names
  · obtain ⟨kd, hkd, hname⟩ := hsome
    rw [h.findRoot_eq hkd hname,
      ((unambiguous_perm hperm).mpr h).findRoot_eq (hperm.mem_iff.mpr hkd) hname]
  · have hnone : ∀ kd ∈ devs, devname ∉ kd.names := by
      intro kd hkd hname
      exact hsome ⟨kd, hkd, hname⟩
    rw [findRoot_eq_fail hnone, findRoot_eq_fail]
    intro kd hkd
    exact hnone kd (hperm.mem_iff.mp hkd)

end FindRoot

/-! ### The calls keep the names apart -/

section Names

variable {devs devs' : List KnownDev} {kd kd' : KnownDev} {i j : ℕ}

/-- An entry of an unambiguous table shares no name with the others. -/
theorem unambiguous_middle {l₁ l₂ : List KnownDev} :
  Unambiguous (l₁ ++ kd :: l₂) ↔ (∀ kd' ∈ l₁ ++ l₂, ¬ kd.Shares kd') ∧ Unambiguous (l₁ ++ l₂)
  := (unambiguous_perm List.perm_middle).trans List.pairwise_cons

/-- A table whose entries answer to fewer names stays unambiguous. -/
theorem Unambiguous.mono (h : Unambiguous devs)
    (hsub : ∀ (i : ℕ) (kd' : KnownDev), devs'[i]? = some kd' →
      ∃ kd : KnownDev, devs[i]? = some kd ∧ ∀ n ∈ kd'.names, n ∈ kd.names) :
  Unambiguous devs'
  := by
  rw [Unambiguous, List.pairwise_iff_getElem] at h ⊢
  intro i j hi hj hlt ⟨n, hn, hn'⟩
  obtain ⟨old, hold, hnames⟩ := hsub i _ (List.getElem?_eq_getElem hi)
  obtain ⟨old', hold', hnames'⟩ := hsub j _ (List.getElem?_eq_getElem hj)
  obtain ⟨hi', rfl⟩ := List.getElem?_eq_some_iff.mp hold
  obtain ⟨hj', rfl⟩ := List.getElem?_eq_some_iff.mp hold'
  exact h i j hi' hj' hlt ⟨n, hnames n hn, hnames' n hn'⟩

theorem samestring_iff {a b : Option CString} :
  samestring a b = true ↔ ∃ n, a = some n ∧ b = some n
  := by
  cases a with
  | none => simp [samestring]
  | some a =>
    cases b with
    | none => simp [samestring]
    | some b =>
      simp only [samestring, beq_iff_eq, Option.some.injEq, exists_eq_left']
      exact eq_comm

/-- `samestring3` looks a name up among those of an entry. -/
theorem samestring3_iff {a : Option CString} :
  samestring3 a (some kd.name) kd.rawname (kd.fs.bind AbsFs.volname) = true
    ↔ ∃ n, a = some n ∧ n ∈ kd.names
  := by
  simp only [samestring3, Bool.or_eq_true, samestring_iff, KnownDev.mem_names, and_or_left,
    exists_or, or_assoc]

/-- `badnames` finds the names of a new entry among those in use. -/
theorem badnames_iff :
  badnames devs (some kd.name) kd.rawname (kd.fs.bind AbsFs.volname) = true
    ↔ ∃ kd' ∈ devs, kd'.Shares kd
  := by
  simp only [badnames, List.any_eq_true]
  apply exists_congr
  intro kd'
  apply and_congr_right
  intro _
  have hvol : (match kd'.fs with
      | some fs => samestring3 fs.volname (some kd.name) kd.rawname (kd.fs.bind AbsFs.volname)
      | none => false) = true ↔ ∃ n, kd'.fs.bind AbsFs.volname = some n ∧ n ∈ kd.names := by
    cases hfs : kd'.fs with
    | none => simp
    | some fs => exact samestring3_iff
  rw [Bool.or_eq_true, Bool.or_eq_true, hvol, samestring3_iff, samestring3_iff]
  simp only [KnownDev.Shares, @KnownDev.mem_names kd', or_and_right, exists_or]
  rw [or_comm, or_comm (a := ∃ n, kd'.fs.bind AbsFs.volname = some n ∧ n ∈ kd.names)]

/-- An entry whose names are not in use may be added. -/
theorem Unambiguous.append (h : Unambiguous devs)
    (hnew : badnames devs (some kd.name) kd.rawname (kd.fs.bind AbsFs.volname) ≠ true) :
  Unambiguous (devs ++ [kd])
  := by
  apply List.pairwise_append.mpr
  refine ⟨h, List.pairwise_singleton _ _, ?_⟩
  intro kd' hkd' x hx hshares
  rw [List.mem_singleton] at hx
  subst hx
  exact hnew (badnames_iff.mpr ⟨kd', hkd', hshares⟩)

theorem findmount_eq_some {devname : CString} (h : findmount devname devs = some (kd, i)) :
  devs[i]? = some kd ∧ kd.rawname ≠ none ∧ kd.name = devname
  := by
  have hmem := List.mem_of_find?_eq_some h
  have htest := List.find?_some h
  simp only [decide_eq_true_eq] at htest
  exact ⟨List.mem_zipIdx_iff_getElem?.mp hmem, htest.1, htest.2.symm⟩

/-- Without its file system, an entry answers to fewer names. -/
theorem names_unmounted {n : CString} (h : n ∈ ({ kd with fs := none } : KnownDev).names) :
  n ∈ kd.names
  := by
  simp only [KnownDev.mem_names, Option.bind_none, reduceCtorEq, or_false] at h
  rw [KnownDev.mem_names]
  rcases h with hname | hraw
  · exact .inl hname
  · exact .inr (.inl hraw)

theorem names_unmountOne {a : FsAnswers} {n : CString} (h : n ∈ (unmountOne a kd).names) :
  n ∈ kd.names
  := by
  unfold unmountOne at h
  split at h
  · exact h
  · split at h
    · exact h
    · split at h
      · exact h
      · cases ha : a.unmount with
        | none =>
          simp only [ha] at h
          exact names_unmounted h
        | some e =>
          simp only [ha] at h
          exact h

theorem Unambiguous.unmount (h : Unambiguous devs) (i : ℕ) :
  Unambiguous (devs.modify i fun kd => { kd with fs := none })
  := by
  apply h.mono
  intro j kd' hkd'
  rw [List.getElem?_modify, Option.map_eq_map, Option.map_eq_some_iff] at hkd'
  obtain ⟨kd, hkd, rfl⟩ := hkd'
  refine ⟨kd, hkd, fun n hn => ?_⟩
  split at hn
  · exact names_unmounted hn
  · exact hn

theorem Unambiguous.unmountall (h : Unambiguous devs) (a : ℕ → FsAnswers) :
  Unambiguous (devs.mapIdx fun i kd => unmountOne (a i) kd)
  := by
  apply h.mono
  intro j kd' hkd'
  rw [List.getElem?_mapIdx, Option.map_eq_some_iff] at hkd'
  obtain ⟨kd, hkd, rfl⟩ := hkd'
  exact ⟨kd, hkd, fun n hn => names_unmountOne hn⟩

/-- A file system may be mounted exactly when its volume name is no name of another entry. -/
theorem Unambiguous.mount_iff (h : Unambiguous devs) (hkd : devs[i]? = some kd) (fs : AbsFs) :
  Unambiguous (devs.modify i fun kd => { kd with fs := some fs })
    ↔ ∀ kd' ∈ devs, kd'.name ≠ kd.name → ∀ v, fs.volname = some v → v ∉ kd'.names
  := by
  obtain ⟨hi, rfl⟩ := List.getElem?_eq_some_iff.mp hkd
  obtain ⟨l₁, kd, l₂, rfl, rfl, hmounted⟩ :=
    List.exists_of_modify (fun kd => { kd with fs := some fs }) hi
  obtain ⟨happart, hrest⟩ := unambiguous_middle.mp h
  rw [hmounted, unambiguous_middle, and_iff_left hrest]
  simp only [List.getElem_append_right (Nat.le_refl _), Nat.sub_self, List.getElem_cons_zero,
    List.mem_append, List.mem_cons] at happart ⊢
  constructor
  · rintro hnew kd' (hkd' | rfl | hkd') hne v hv hmem
    · exact hnew kd' (.inl hkd') ⟨v, KnownDev.mem_names.mpr (.inr (.inr hv)), hmem⟩
    · exact hne rfl
    · exact hnew kd' (.inr hkd') ⟨v, KnownDev.mem_names.mpr (.inr (.inr hv)), hmem⟩
  · -- the entry has one name more, which no other entry has
    rintro hfree kd' hkd' ⟨n, hn, hn'⟩
    have hne : kd'.name ≠ kd.name := by
      intro hname
      exact happart kd' hkd' ⟨kd.name, List.mem_cons_self, hname ▸ List.mem_cons_self⟩
    rcases KnownDev.mem_names.mp hn with hname | hraw | hvol
    · exact happart kd' hkd' ⟨n, KnownDev.mem_names.mpr (.inl hname), hn'⟩
    · exact happart kd' hkd' ⟨n, KnownDev.mem_names.mpr (.inr (.inl hraw)), hn'⟩
    · exact hfree kd' (hkd'.imp_right .inr) hne n hvol hn'

end Names

/-! ### What the calls do -/

section Calls

variable {s s' : Devices}
  {E : Errno → Devices → Prop}

theorem wlp_kmalloc :
  wlp (fun _ => True) kmalloc s Q E
    ↔ Q (s.kmallocs.headD true) { s with kmallocs := s.kmallocs.tail }
  := Iff.rfl

theorem wlp_kmallocOrFail
    (h : ∀ ks, Q () { s with kmallocs := ks } ∧ E .enomem { s with kmallocs := ks }) :
  wlp (fun _ => True) kmallocOrFail s Q E
  := by
  simp only [kmallocOrFail, wlp_bind, wlp_kmalloc, wlp_ite, wlp_pure, wlp_fail]
  exact ⟨fun _ => (h _).1, fun _ => (h _).2⟩

theorem wlp_rawnameOf {name : CString} {mountable : Bool}
    (h : ∀ rawname ks, Q rawname { s with kmallocs := ks } ∧ E .enomem { s with kmallocs := ks }) :
  wlp (fun _ => True) (rawnameOf name mountable) s Q E
  := by
  rw [rawnameOf, wlp_ite]
  constructor
  · intro _
    rw [wlp_bind]
    apply wlp_kmallocOrFail
    intro ks
    exact h _ ks
  · intro _
    exact (h none s.kmallocs).1

/-- `vfs_doadd` adds an entry whose names are not in use, or leaves the table. -/
theorem doadd_spec (dname : CString) (mountable : Bool) (dev : Option DeviceId)
    (fs : Option AbsFs) (vnode : VnodeId) :
  wlp (fun _ => True) (doadd dname mountable dev fs vnode) s
    (fun _ s' => ∃ kd : KnownDev,
      badnames s.knowndevs.guys (some kd.name) kd.rawname (kd.fs.bind AbsFs.volname) ≠ true
        ∧ s'.knowndevs.guys = s.knowndevs.guys ++ [kd])
    (fun _ s' => s'.knowndevs.guys = s.knowndevs.guys)
  := by
  simp only [doadd, devCreateVnode, wlp_bind]
  refine wlp_kmallocOrFail fun _ => ⟨wlp_rawnameOf fun _ _ => ⟨?_, rfl⟩, rfl⟩
  refine wlp_kmallocOrFail fun _ => ⟨?_, rfl⟩
  rw [wlp_kmalloc, wlp_ite]
  refine ⟨fun _ => ?_, fun _ => trivial⟩
  rw [wlp_pure]
  refine wlp_kmallocOrFail fun _ => ⟨?_, rfl⟩
  rw [wlp_get, wlp_ite]
  refine ⟨fun _ => rfl, fun hnew => ?_⟩
  rw [wlp_bind, wlp_kmalloc]
  split
  · rfl
  · rename_i t ht
    exact ⟨_, hnew, (Table.add_spec ht).1⟩

/-- `vfs_mount` finds the unmounted device `i`, and sets up the file system `fs` on it. -/
def Mounts (devname : CString) (mountfunc : DeviceId → Except Errno AbsFs) (devs : List KnownDev)
    (i : ℕ) (fs : AbsFs) : Prop :=
  ∃ kd dev, findmount devname devs = some (kd, i) ∧ kd.fs = none ∧ kd.device = some dev
    ∧ mountfunc dev = .ok fs

/-- `vfs_mount` mounts the file system that the function sets up, or leaves the table. -/
theorem mount_spec (devname : CString) (mountfunc : DeviceId → Except Errno AbsFs) :
  wlp (fun _ => True) (mount devname mountfunc) s
    (fun _ s' => ∃ i fs, Mounts devname mountfunc s.knowndevs.guys i fs
      ∧ s'.knowndevs.guys = s.knowndevs.guys.modify i fun kd => { kd with fs := some fs })
    (fun _ s' => (∀ i fs, ¬ Mounts devname mountfunc s.knowndevs.guys i fs)
      ∧ s'.knowndevs.guys = s.knowndevs.guys)
  := by
  simp only [mount, wlp_bind, wlp_get]
  cases hfind : findmount devname s.knowndevs.guys with
  | none =>
    refine ⟨?_, rfl⟩
    rintro i fs ⟨kd, dev, hfound, -⟩
    cases hfind.symm.trans hfound
  | some p =>
    obtain ⟨kd, i⟩ := p
    have hsame : ∀ {j fs}, Mounts devname mountfunc s.knowndevs.guys j fs →
        kd.fs = none ∧ ∃ dev, kd.device = some dev ∧ mountfunc dev = .ok fs := by
      rintro j fs ⟨kd', dev, hfound, hfs, hdev, hmount⟩
      cases hfind.symm.trans hfound
      exact ⟨hfs, dev, hdev, hmount⟩
    simp only [wlp_ite, wlp_fail, wlp_bind, wlp_assert, implies_true, and_true]
    refine ⟨fun hbusy j fs hm => hbusy (hsame hm).1, fun hfree _ => ?_⟩
    cases hdev : kd.device with
    | none => trivial
    | some dev =>
      simp only
      cases hmount : mountfunc dev with
      | error e =>
        refine ⟨fun j fs hm => ?_, rfl⟩
        obtain ⟨-, dev', hdev', hok⟩ := hsame hm
        rw [hdev, Option.some.injEq] at hdev'
        subst hdev'
        cases hmount.symm.trans hok
      | ok fs => exact ⟨i, fs, ⟨kd, dev, hfind, not_not.mp hfree, hdev, hmount⟩, rfl⟩

/-- `vfs_unmount` takes the file system from one entry, or leaves the table. -/
theorem unmount_spec (devname : CString) (a : FsAnswers) :
  wlp (fun _ => True) (unmount devname a) s
    (fun _ s' => ∃ i,
      s'.knowndevs.guys = s.knowndevs.guys.modify i fun kd => { kd with fs := none })
    (fun _ s' => s'.knowndevs.guys = s.knowndevs.guys)
  := by
  simp only [unmount, wlp_bind, wlp_get]
  cases hfind : findmount devname s.knowndevs.guys with
  | none => rfl
  | some p =>
    obtain ⟨kd, i⟩ := p
    simp only [wlp_ite, wlp_fail, wlp_bind, wlp_assert, implies_true, and_true]
    refine ⟨trivial, fun _ _ _ => ?_⟩
    cases a.sync with
    | some e => rfl
    | none =>
      cases a.unmount with
      | some e => rfl
      | none => exact ⟨i, rfl⟩

end Calls

/-! ### Runs -/

section Runs

variable {s s' : Devices}

/-- A file system is mounted only if its volume name is no name of an entry other than the
device's. -/
def volnameFree : Condition := fun s e =>
  match e with
  | .mount devname mountfunc => ∀ i fs, Mounts devname mountfunc s.knowndevs.guys i fs →
      ∀ kd ∈ s.knowndevs.guys, kd.name ≠ devname → ∀ v, fs.volname = some v → v ∉ kd.names
  | _ => True

/-- A call leaves an unambiguous table unambiguous exactly when it meets the condition. -/
theorem Unambiguous.act (h : Unambiguous s.knowndevs.guys) (e : Event) :
  wlp (fun _ => True) (act e) s (fun _ s' => Unambiguous s'.knowndevs.guys ↔ volnameFree s e)
    (fun _ s' => Unambiguous s'.knowndevs.guys ↔ volnameFree s e)
  := by
  cases e with
  | adddev | addfs =>
    apply wlp_mono (doadd_spec _ _ _ _ _)
    · rintro _ s' ⟨kd, hnew, hguys⟩
      rw [hguys]
      exact iff_of_true (h.append hnew) trivial
    · intro _ s' hguys
      rw [hguys]
      exact iff_of_true h trivial
  | mount devname mountfunc =>
    apply wlp_mono (mount_spec devname mountfunc)
    · rintro _ s' ⟨i, fs, hm, hguys⟩
      have hmounts := hm
      obtain ⟨kd, dev, hfind, -, hdev, hfs⟩ := hm
      obtain ⟨hkd, -, rfl⟩ := findmount_eq_some hfind
      rw [hguys, h.mount_iff hkd fs]
      constructor
      · rintro hfree j fs' ⟨kd', dev', hfind', -, hdev', hfs'⟩
        cases hfind.symm.trans hfind'
        cases hdev.symm.trans hdev'
        cases hfs.symm.trans hfs'
        exact hfree
      · intro hfree
        exact hfree i fs hmounts
    · rintro _ s' ⟨hnone, hguys⟩
      rw [hguys]
      exact iff_of_true h fun i fs hm => absurd hm (hnone i fs)
  | unmount devname a =>
    apply wlp_mono (unmount_spec devname a)
    · rintro _ s' ⟨i, hguys⟩
      rw [hguys]
      exact iff_of_true (h.unmount i) trivial
    · intro _ s' hguys
      rw [hguys]
      exact iff_of_true h trivial
  | unmountall a => exact iff_of_true (h.unmountall a) trivial

theorem Unambiguous.returns {e : Event} (h : Unambiguous s.knowndevs.guys) (hret : Returns e s s') :
  Unambiguous s'.knowndevs.guys ↔ volnameFree s e
  := by
  obtain ⟨mem, hret⟩ := hret
  have hact := Unambiguous.act (s := { s with kmallocs := mem }) h e
  rcases hret with hok | ⟨err, herr⟩
  · apply wlp_ok hact hok
  · apply wlp_err hact herr

theorem Reaches.unambiguous (hrun : Reaches volnameFree boot s) :
  Unambiguous s.knowndevs.guys
  := by
  induction hrun with
  | refl => exact List.Pairwise.nil
  | tail _ hstep ih =>
    obtain ⟨e, hallow, hret⟩ := hstep
    exact (ih.returns hret).mpr hallow

/-- After every sequence of calls that mount no file system under a name in use, no two entries
share a name, what a name stands for does not depend on the order of the table, and a mounted
device answers to its name; and a call keeps this exactly when it meets the condition. -/
theorem names_unambiguous (hrun : Reaches volnameFree boot s) :
  Unambiguous s.knowndevs.guys
    ∧ (∀ (σ : Type) devname devs, devs.Perm s.knowndevs.guys →
      (findRoot devname devs : Routine Errno VfsPanic σ DevRoot)
        = findRoot devname s.knowndevs.guys)
    ∧ (∀ (σ : Type), ∀ kd ∈ s.knowndevs.guys, ∀ fs, kd.fs = some fs →
      (findRoot kd.name s.knowndevs.guys : Routine Errno VfsPanic σ DevRoot) = pure (.fs fs))
    ∧ ∀ e s', Returns e s s' → (Unambiguous s'.knowndevs.guys ↔ volnameFree s e)
  := by
  have h := hrun.unambiguous
  refine ⟨h, ?_, ?_, ?_⟩
  · intro σ devname devs hperm
    exact h.findRoot_perm hperm devname
  · intro σ kd hkd fs hfs
    rw [h.findRoot_eq hkd List.mem_cons_self, findRoot]
    simp [hfs]
  · intro e s' hret
    exact h.returns hret

/-- Two devices, with a volume `a` mounted on `lhd0`. -/
theorem names_unambiguous_two :
  ∃ s, s.knowndevs.guys.map KnownDev.names
      = [[[108, 104, 100, 48], [108, 104, 100, 48, 114, 97, 119], [97]],
        [[108, 104, 100, 49], [108, 104, 100, 49, 114, 97, 119]]]
    ∧ Unambiguous s.knowndevs.guys
    ∧ ∀ e s', Returns e s s' → (Unambiguous s'.knowndevs.guys ↔ volnameFree s e)
  := by
  have hrun : Reaches volnameFree boot _ := .tail (.tail (.tail .refl
    ⟨.adddev [108, 104, 100, 48] 0 true 2, trivial, [], .inl rfl⟩)
    ⟨.adddev [108, 104, 100, 49] 1 true 3, trivial, [], .inl rfl⟩)
    ⟨.mount [108, 104, 100, 48] fun _ => .ok ⟨0, some [97]⟩, by
      rintro i fs ⟨_, _, -, -, -, hmount⟩ kd hkd hne v hv
      cases hmount
      cases hv
      rcases List.mem_pair.mp hkd with rfl | rfl
      · exact absurd rfl hne
      · decide, [], .inl rfl⟩
  obtain ⟨h, -, -, hcalls⟩ := names_unambiguous hrun
  exact ⟨_, rfl, h, hcalls⟩

/-- A volume that is called `lhd1`, mounted on `lhd0`, hides the file system on `lhd1`, unless
the two devices were added in the other order. -/
theorem volname_hides_device :
  ∃ s, Reaches anyCall boot s ∧ ¬ Unambiguous s.knowndevs.guys
    ∧ ∃ kd ∈ s.knowndevs.guys, ∃ fs fs', kd.fs = some fs ∧ fs ≠ fs'
      ∧ (findRoot kd.name s.knowndevs.guys : Routine Errno VfsPanic Unit DevRoot) = pure (.fs fs')
      ∧ (findRoot kd.name s.knowndevs.guys.reverse : Routine Errno VfsPanic Unit DevRoot)
        = pure (.fs fs)
  := by
  have hrun : Reaches anyCall boot _ := .tail (.tail (.tail (.tail .refl
    ⟨.adddev [108, 104, 100, 48] 0 true 2, trivial, [], .inl rfl⟩)
    ⟨.adddev [108, 104, 100, 49] 1 true 3, trivial, [], .inl rfl⟩)
    ⟨.mount [108, 104, 100, 48] fun _ => .ok ⟨0, some [108, 104, 100, 49]⟩, trivial, [], .inl rfl⟩)
    ⟨.mount [108, 104, 100, 49] fun _ => .ok ⟨1, none⟩, trivial, [], .inl rfl⟩
  refine ⟨_, hrun, ?_, _, List.mem_cons_of_mem _ List.mem_cons_self, ⟨1, none⟩,
    ⟨0, some [108, 104, 100, 49]⟩, rfl, by decide, rfl, rfl⟩
  intro h
  apply (List.pairwise_cons.mp h).1 _ List.mem_cons_self
  exact ⟨[108, 104, 100, 49], by decide, by decide⟩

end Runs

end Devices
