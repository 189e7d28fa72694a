import AzureSpider.Sfs.Namespace

/-!
# Histories of a volume

The calls that are made on a mounted volume, one at a time, and what holds of every volume that
they lead to.  A call is admissible if its vnodes are loaded and its arguments are such as the
system calls pass on.  No admissible call panics on a consistent volume, and each one leaves a
consistent volume, whether it succeeds or fails.
-/

open Machine Routine

namespace Sfs

/-- What a call hands back. -/
inductive Reply where
  | done
  | vnode (v : Ptr)
  | moved (result : Except Errno Unit) (u : Uio)

/-- The calls on a volume. -/
inductive Op where
  | getroot
  | creat (dir : Ptr) (name : Name) (excl : Bool)
  | link (dir : Ptr) (name : Name) (file : Ptr)
  | remove (dir : Ptr) (name : Name)
  | rename (d1 : Ptr) (n1 : Name) (d2 : Ptr) (n2 : Name)
  | lookup (dir : Ptr) (path : Name)
  | read (v : Ptr) (u : Uio)
  | write (v : Ptr) (u : Uio)
  | truncate (v : Ptr) (len : ℤ)
  | fsync (v : Ptr)
  | incref (v : Ptr)
  | decref (v : Ptr)

namespace Op

/-- The routine of a call. -/
def run : Op → Run Reply
  | getroot => do
      let v ← fsGetroot
      pure (.vnode v)
  | creat dir name excl => do
      let v ← vopCreat dir name excl
      pure (.vnode v)
  | link dir name file => do
      vopLink dir name file
      pure .done
  | remove dir name => do
      vopRemove dir name
      pure .done
  | rename d1 n1 d2 n2 => do
      vopRename d1 n1 d2 n2
      pure .done
  | lookup dir path => do
      let v ← vopLookup dir path
      pure (.vnode v)
  | read v u => do
      let r ← vopRead v u
      pure (.moved r.1 r.2)
  | write v u => do
      let r ← vopWrite v u
      pure (.moved r.1 r.2)
  | truncate v len => do
      vopTruncate v len
      pure .done
  | fsync v => do
      vopFsync v
      pure .done
  | incref v => do
      Sfs.incref v
      pure .done
  | decref v => do
      Sfs.decref v
      pure .done

/-- The vnodes are loaded, a file that is linked is a regular file, a file is moved to a
directory, and offsets and lengths are not negative and fit in an `off_t`. -/
def Admissible (s : Fs) : Op → Prop
  | getroot => True
  | creat dir _ _ => dir ∈ s.vnodes.guys
  | link dir _ file =>
    dir ∈ s.vnodes.guys ∧ file ∈ s.vnodes.guys ∧ (s.heap file).i.type = typeFile
  | remove dir _ => dir ∈ s.vnodes.guys
  | rename d1 _ d2 _ =>
    d1 ∈ s.vnodes.guys ∧ d2 ∈ s.vnodes.guys ∧ (s.heap d2).i.type = typeDir
  | lookup dir _ => dir ∈ s.vnodes.guys
  | read v u => v ∈ s.vnodes.guys ∧ u.Within ∧ u.rw = .read
  | write v u => v ∈ s.vnodes.guys ∧ u.Within ∧ u.rw = .write
  | truncate v len => v ∈ s.vnodes.guys ∧ 0 ≤ len ∧ len < 2 ^ 31
  | fsync v => v ∈ s.vnodes.guys
  | incref v => v ∈ s.vnodes.guys
  | decref v => v ∈ s.vnodes.guys

instance (s : Fs) : (op : Op) → Decidable (op.Admissible s)
  | getroot => inferInstanceAs (Decidable True)
  | creat v _ _ | remove v _ | lookup v _ | fsync v | incref v | decref v =>
    inferInstanceAs (Decidable (v ∈ s.vnodes.guys))
  | link _ _ _ | rename _ _ _ _ | read _ _ | write _ _ | truncate _ _ =>
    inferInstanceAs (Decidable (_ ∧ _))

/-- What a call returns: nothing or an error. -/
def status (op : Op) (s : Fs) : Option (Except Errno Unit) :=
  match op.run s with
  | .ok (.moved r _) _ => some r
  | .ok _ _ => some (.ok ())
  | .err e _ => some (.error e)
  | .panic _ => none

/-- The volume after an admissible call that returns. -/
def after (op : Op) (s : Fs) : Option Fs :=
  if op.Admissible s then
    match op.run s with
    | .ok _ s' => some s'
    | .err _ s' => some s'
    | .panic _ => none
  else
    none

/-- The calls that leave the contents of the files. -/
def KeepsContents : Op → Prop
  | write _ _ => False
  | truncate _ _ => False
  | _ => True

/-- The files that a call erases if it succeeds: the file whose last name is removed, if it is
not in memory, and the file without names whose last reference is dropped. -/
def Erases (s : Fs) : Op → ℕ → Prop
  | remove dir name => fun j => (s.heap dir).ino = 1 ∧ Slots.lookup s.dir name.bytes = some j
      ∧ Slots.count s.dir j = 1 ∧ ¬ s.Resident j
  | decref v => fun j => j = (s.heap v).ino ∧ s.Last v
  | _ => fun _ => False

end Op

/-- A volume is consistent after a call, with the same blocks lost if no memory is refused. -/
structure Advances (lost : ℕ → Prop) (s s' : Fs) : Prop where
  consistent : ∃ lost', Consistent lost' s' ∧ (s.kmallocs = [] → lost' = lost)
  calm : s.Calm → s'.Calm
  kmallocs : s.kmallocs = [] → s'.kmallocs = []

/-- An inode that becomes live is the one of an empty file. -/
def Born (s s' : Fs) : Prop :=
  ∀ j, s'.Live j → s.Live j ∨ (s'.file j).size = 0 ∧ ∀ pos, (s'.file j).bytes pos = 0

/-! ### What the calls do -/

/-- A write of a region to the file of `v`: its first `t` bytes are put, all of them if the write
succeeds. -/
structure Put (v : Ptr) (u : Uio) (s : Fs) (r : Except Errno Unit) (u' : Uio) (t : ℕ) (s' : Fs) :
    Prop where
  ne_root : (s.heap v).ino ≠ 1
  le : t ≤ u.resid
  all : r = .ok () → t = u.resid
  written : Written v s s' u.offset.toNat t (dataOf u)
  taken : Uio.Taken u u' t

/-- A read of a region from the file of `v`. -/
structure Got (v : Ptr) (u : Uio) (s : Fs) (r : Except Errno Unit) (u' : Uio) (s' : Fs) :
    Prop where
  same : s' = s
  given : r = .ok () → Uio.Given u u' (s.readable v u.offset.toNat u.resid)
    (fun j => s.byteAt v (u.offset.toNat + j))
  ok : u.Reliable → (u.offset.toNat < s.size v →
    u.offset.toNat + s.readable v u.offset.toNat u.resid ≤ 73216) → r = .ok ()

section Calls

variable {lost : ℕ → Prop} {s s' : Fs} {p q : Ptr}

theorem Kept.advances {gone : ℕ → Prop} (h : Kept gone s s') (hc : Consistent lost s') :
  Advances lost s s'
  := ⟨⟨lost, hc, fun _ => rfl⟩, h.calm, h.kmallocs⟩

theorem Born.of_live (h : s'.Live = s.Live) :
  Born s s'
  := by
  intro j hl
  rw [h] at hl
  exact .inl hl

theorem Created.born {name : Name} (h : Created lost s name q s') :
  Born s s'
  := by
  intro j hl
  rcases h.live j hl with hold | rfl
  · exact .inl hold
  · exact .inr ⟨h.empty, h.blank⟩

/-- A call that leaves the files and the inodes that are live. -/
theorem Stays.works (hstays : Stays s s') (h : Consistent lost s') (hlive : s'.Live = s.Live)
    {keeps : Prop} :
  Advances lost s s' ∧ Born s s' ∧ (keeps → Stays s s')
  := ⟨Kept.advances hstays h, Born.of_live hlive, fun _ => hstays⟩

/-- A call that fails, and makes no inode live. -/
theorem DeclinedOr.fails (h : DeclinedOr lost s s') {keeps : Prop} :
  Advances lost s s' ∧ s'.Live = s.Live ∧ (keeps → Stays s s')
  := by
  obtain ⟨lost', hdecl, hsame⟩ := h
  have hstays := hdecl.stays
  exact ⟨⟨⟨lost', hdecl.consistent, hsame⟩, hstays.calm, hstays.kmallocs⟩, hdecl.live,
    fun _ => hstays⟩

/-- A call that fails at once. -/
theorem Consistent.fails (h : Consistent lost s) {keeps : Prop} :
  Advances lost s s ∧ s.Live = s.Live ∧ (keeps → Stays s s)
  := (Declined.refl h).orLost.fails

/-- A regular file is not the root directory. -/
theorem Consistent.ino_ne_one (h : Consistent lost s) (hq : q ∈ s.vnodes.guys)
    (htype : (s.heap q).i.type = typeFile) :
  (s.heap q).ino ≠ 1
  := by
  intro hone
  have hdir := (h.isDir hq hone).type
  rw [htype] at hdir
  exact absurd hdir (by decide)

/-- A directory is the root directory. -/
theorem Consistent.ino_eq_one (h : Consistent lost s) (hq : q ∈ s.vnodes.guys)
    (htype : (s.heap q).i.type = typeDir) :
  (s.heap q).ino = 1
  := by
  by_contra hne
  have hfile := h.catalog.type _ (Fs.live_of_mem hq)
  rw [if_neg hne, h.catalog.inodeOf hq, htype] at hfile
  exact absurd hfile (by decide)

theorem Consistent.size_lt (h : Consistent lost s) (hp : p ∈ s.vnodes.guys) :
  s.size p < 2 ^ 31
  := by
  have hsize := h.catalog.size _ (Fs.live_of_mem hp)
  rwa [h.catalog.inodeOf hp] at hsize

theorem Advances.of_fileStep (h : Consistent lost s) (hp : p ∈ s.vnodes.guys)
    (hne : (s.heap p).ino ≠ 1) (hstep : FileStep p s s') (hsize : s'.size p < 2 ^ 31) :
  Advances lost s s'
  := by
  refine ⟨⟨lost, h.fileStep hp hstep hne hsize, fun _ => rfl⟩, hstep.calm, ?_⟩
  intro hnil
  rw [hstep.kmallocs]
  exact hnil

section Transfers

variable {v : Ptr} {u : Uio} (h : Consistent lost s) (hv : v ∈ s.vnodes.guys) (hu : u.Within)

include h hv hu

theorem write_spec (hrw : u.rw = .write) :
  wp (Op.write v u).run s (fun a s' => ∃ r u' t, a = .moved r u' ∧ Put v u s r u' t s')
    (fun _ s' => s' = s)
  := by
  have hsize := h.size_lt hv
  have ho : u.offset = (u.offset.toNat : ℕ) := (Int.toNat_of_nonneg hu.offset_nonneg).symm
  simp only [Op.run, wp_bind, wp_pure, vopWrite]
  apply wp_vop_file h.catalog.toVnodesOk hv fun _ => rfl
  intro hne
  simp only [transfer, wp_withState, write, wp_bind, wp_get, wp_assert]
  refine ⟨hrw, ?_⟩
  apply wp_mono (io_write h.catalog.sound (h.catalog.fileOk hv) hsize hu.toReady.ahead hrw ho rfl)
  · rintro - ⟨s', u'⟩ ⟨hwritten, htaken, -⟩
    exact ⟨.ok (), u', u.resid, rfl, hne, Nat.le_refl _, fun _ => rfl, hwritten, htaken⟩
  · rintro e ⟨s', u'⟩ ⟨⟨t, ht, -, hwritten, htaken, -⟩, -⟩
    refine ⟨.error e, u', t, rfl, hne, ht, ?_, hwritten, htaken⟩
    intro hok
    cases hok

omit hu in
theorem truncate_run_spec {len : ℤ} (hnonneg : 0 ≤ len) (hlt : len < 2 ^ 31) :
  wp (Op.truncate v len).run s
    (fun _ s' => (s.heap v).ino ≠ 1 ∧ Truncated v s s' (blocklen len) len.toNat)
    (fun _ s' => s' = s)
  := by
  obtain ⟨n, rfl⟩ := Int.eq_ofNat_of_zero_le hnonneg
  simp only [Op.run, wp_bind, wp_pure, vopTruncate]
  apply wp_vop_file h.catalog.toVnodesOk hv fun _ => rfl
  intro hne
  have hn : n < 2 ^ 31 := by omega
  apply wp_sure (truncate_spec h.catalog.sound (h.catalog.fileOk hv) hn)
  intro _ s' htrunc
  exact ⟨hne, htrunc⟩

theorem read_spec (hrw : u.rw = .read) :
  wp (Op.read v u).run s (fun a s' => ∃ r u', a = .moved r u' ∧ Got v u s r u' s')
    (fun _ s' => (s.heap v).ino = 1 ∧ s' = s)
  := by
  have hsize := h.size_lt hv
  have ho : u.offset = (u.offset.toNat : ℕ) := (Int.toNat_of_nonneg hu.offset_nonneg).symm
  simp only [Op.run, wp_bind, wp_pure, vopRead]
  apply wp_vop_file h.catalog.toVnodesOk hv fun hroot => ⟨hroot, rfl⟩
  intro _
  simp only [transfer, wp_withState, read, wp_bind, wp_get, wp_assert]
  refine ⟨hrw, ?_⟩
  apply wp_mono (io_read h.catalog.sound (h.catalog.fileOk hv) hsize hu hrw ho rfl)
  · rintro - ⟨s', u'⟩ ⟨hsame, hgiven, -⟩
    exact ⟨.ok (), u', rfl, hsame, fun _ => hgiven, fun _ _ => rfl⟩
  · rintro e ⟨s', u'⟩ ⟨hsame, hcause⟩
    refine ⟨.error e, u', rfl, hsame, ?_, ?_⟩
    · intro hok
      cases hok
    · intro hrel hfits
      obtain ⟨-, hlt, hfar⟩ := hcause hrel
      exact absurd (hfits hlt) (Nat.not_le.mpr hfar)

end Transfers

/-- What a call does on a consistent volume where no file is open: it does not panic unless memory
is refused, and it leaves a consistent volume, and the contents of the files unless it is there to
change them.  A call that fails makes no inode live. -/
def Op.Works (op : Op) (lost : ℕ → Prop) (s : Fs) : Prop :=
  wlp (fun _ => s.kmallocs ≠ []) op.run s
    (fun _ s' => Advances lost s s' ∧ Born s s' ∧ (op.KeepsContents → Kept (op.Erases s) s s'))
    (fun _ s' => Advances lost s s' ∧ s'.Live = s.Live ∧ (op.KeepsContents → Stays s s'))

section Works

variable (h : Consistent lost s)

include h

section

variable (hp : p ∈ s.vnodes.guys)
include hp

theorem works_creat (name : Name) (excl : Bool) :
  (Op.creat p name excl).Works lost s
  := by
  apply wlp_of_wp
  simp only [Op.run, wp_bind, wp_pure, vopCreat]
  apply wp_vop_dir h.catalog.toVnodesOk hp fun _ => h.fails
  intro hroot
  apply wp_mono (creat_spec h hp hroot name excl)
  · rintro q s' (hcreated | ⟨-, hfound⟩)
    · exact ⟨Kept.advances hcreated.stays hcreated.consistent, hcreated.born,
        fun _ => hcreated.stays⟩
    · exact hfound.stays.works hfound.consistent hfound.live
  · rintro e s' ⟨hdecl, -⟩
    exact hdecl.fails

theorem works_link (hq : q ∈ s.vnodes.guys) (htype : (s.heap q).i.type = typeFile) (name : Name) :
  (Op.link p name q).Works lost s
  := by
  apply wlp_of_wp
  simp only [Op.run, wp_bind, wp_pure, vopLink]
  apply wp_vop_dir h.catalog.toVnodesOk hp fun _ => h.fails
  intro hroot
  apply wp_mono (link_spec h hp hroot hq (h.ino_ne_one hq htype) name)
  · intro _ s' hnamed
    exact hnamed.stays.works hnamed.consistent hnamed.live
  · rintro e s' ⟨hdecl, -⟩
    exact hdecl.orLost.fails

theorem works_remove (name : Name) :
  (Op.remove p name).Works lost s
  := by
  apply wlp_of_wp
  simp only [Op.run, wp_bind, wp_pure, vopRemove]
  apply wp_vop_dir h.catalog.toVnodesOk hp fun _ => h.fails
  intro hroot
  apply wp_mono (remove_spec h hp hroot name)
  · intro _ s' hremoved
    refine ⟨Kept.advances hremoved.kept hremoved.consistent,
      fun j hl => .inl (hremoved.live j hl), fun _ => ?_⟩
    apply hremoved.kept.congr
    intro j _
    exact and_iff_right hroot
  · rintro e s' ⟨hdecl, -⟩
    exact hdecl.orLost.fails

theorem works_rename (hq : q ∈ s.vnodes.guys) (htype : (s.heap q).i.type = typeDir) (n1 n2 : Name) :
  (Op.rename p n1 q n2).Works lost s
  := by
  apply wlp_of_wp
  simp only [Op.run, wp_bind, wp_pure, vopRename]
  apply wp_vop_dir h.catalog.toVnodesOk hp fun _ => h.fails
  intro hroot
  -- there is only one directory
  obtain rfl : p = q := h.catalog.inos p hp q hq (hroot.trans (h.ino_eq_one hq htype).symm)
  apply wp_mono (rename_spec h hp hroot n1 n2)
  · intro _ s' hrenamed
    exact ⟨Kept.advances hrenamed.stays hrenamed.consistent,
      fun j hl => .inl (hrenamed.live j hl), fun _ => hrenamed.stays⟩
  · rintro e s' ⟨hdecl, -⟩
    exact hdecl.orLost.fails

theorem works_lookup (path : Name) :
  (Op.lookup p path).Works lost s
  := by
  apply wlp_of_wp
  simp only [Op.run, wp_bind, wp_pure, vopLookup]
  apply wp_vop_dir h.catalog.toVnodesOk hp fun _ => h.fails
  intro hroot
  apply wp_mono (lookup_spec h hp hroot path)
  · intro q s' hfound
    exact hfound.stays.works hfound.consistent hfound.live
  · rintro e s' ⟨hdecl, -⟩
    exact hdecl.orLost.fails

theorem works_read {u : Uio} (hu : u.Within) (hrw : u.rw = .read) :
  (Op.read p u).Works lost s
  := by
  apply wlp_of_wp
  apply wp_mono (read_spec h hp hu hrw)
  · rintro - s' ⟨r, u', -, hgot⟩
    rw [hgot.same]
    exact (Stays.refl s).works h rfl
  · rintro e s' ⟨-, rfl⟩
    exact h.fails

theorem works_write {u : Uio} (hu : u.Within) (hrw : u.rw = .write) :
  (Op.write p u).Works lost s
  := by
  apply wlp_of_wp
  apply wp_mono (write_spec h hp hu hrw)
  · rintro - s' ⟨r, u', t, -, hput⟩
    have hstep := hput.written.toFileStep
    refine ⟨Advances.of_fileStep h hp hput.ne_root hstep ?_,
      Born.of_live (h.live_fileStep hp hstep hput.ne_root), fun hf => hf.elim⟩
    have hold := h.size_lt hp
    have hend := hu.end_lt
    have hnonneg := hu.offset_nonneg
    have hle := hput.le
    rw [hput.written.size]
    omega
  · rintro e s' rfl
    exact h.fails

theorem works_truncate {len : ℤ} (hnonneg : 0 ≤ len) (hlt : len < 2 ^ 31) :
  (Op.truncate p len).Works lost s
  := by
  apply wlp_of_wp
  apply wp_mono (truncate_run_spec h hp hnonneg hlt)
  · rintro - s' ⟨hne, htrunc⟩
    refine ⟨Advances.of_fileStep h hp hne htrunc.toFileStep ?_,
      Born.of_live (h.live_fileStep hp htrunc.toFileStep hne), fun hf => hf.elim⟩
    rw [htrunc.size]
    omega
  · rintro e s' rfl
    exact h.fails

theorem works_fsync :
  (Op.fsync p).Works lost s
  := by
  apply wlp_of_wp
  simp only [Op.run, wp_bind, wp_pure, vopFsync]
  apply wp_vop h.catalog.toVnodesOk hp
  all_goals
    intro _
    apply wp_sure (syncInode_spec h.catalog hp)
    intro _ s' hflush
    have hlive := Consistent.live_flushed hflush
    have hstays : Stays s s' := by
      apply Stays.of_file
      · intro j hl
        rw [hlive]
        exact hl
      · intro j hl
        exact hflush.toSame.file hl
      · intro hcalm q hq
        rw [hflush.vnodes] at hq
        by_cases hqp : q = p
        · subst hqp
          rw [hflush.self]
          exact hcalm q hq
        · rw [hflush.others q hqp]
          exact hcalm q hq
      · intro hnil
        rw [hflush.kmallocs]
        exact hnil
    exact hstays.works (h.flushed hflush) hlive

theorem works_incref :
  (Op.incref p).Works lost s
  := by
  have hf := Fetched.incref h.catalog hp
  have hlive : s.Live (s.heap p).ino := Fs.live_of_mem hp
  apply wlp_of_wp
  simp only [Op.run, wp_bind, wp_pure, incref, wp_modify]
  exact (hf.stays hlive).works (h.fetched hf hlive) (Consistent.live_fetched hf hlive)

end

theorem works_decref (hcalm : s.Calm) (hp : p ∈ s.vnodes.guys) :
  (Op.decref p).Works lost s
  := by
  have hspare : (s.heap p).opencount < (s.heap p).refcount := by
    rw [hcalm p hp]
    exact h.catalog.refs p hp
  have hroot : (s.heap p).ino = 1 → (s.heap p).i.linkcount ≠ 0 := by
    intro hone hzero
    apply h.rootLinks
    rw [h.file_root hp hone]
    exact hzero
  apply wlp_of_wp
  simp only [Op.run, wp_bind, wp_pure]
  apply wp_sure (decref_spec h.catalog hp hspare hroot)
  intro _ s' hr
  refine ⟨Kept.advances (hr.kept h hp) (Consistent.released hr h hp), ?_, fun _ => hr.kept h hp⟩
  intro j hl
  rw [Consistent.live_released hr h hp] at hl
  exact .inl hl.1

/-- `sfs_getroot` hands out the root directory unless memory is refused. -/
theorem works_getroot :
  Op.getroot.Works lost s
  := by
  simp only [Op.Works, Op.run, wlp_bind, wlp_pure, fsGetroot, wlp_attempt]
  apply wlp_mono (wlp_of_wp (loadvnode_spec h.catalog s.live_root))
  · intro p s' hf
    exact (hf.stays s.live_root).works (h.fetched hf s.live_root)
      (Consistent.live_fetched hf s.live_root)
  · intro e s' hstarved
    exact (wlp_panic _).mpr (List.ne_nil_of_mem hstarved.refused)

theorem Op.works (hcalm : s.Calm) (op : Op) (hadm : op.Admissible s) :
  op.Works lost s
  := by
  cases op with
  | getroot => exact works_getroot h
  | creat dir name excl => exact works_creat h hadm name excl
  | link dir name file => exact works_link h hadm.1 hadm.2.1 hadm.2.2 name
  | remove dir name => exact works_remove h hadm name
  | rename d1 n1 d2 n2 => exact works_rename h hadm.1 hadm.2.1 hadm.2.2 n1 n2
  | lookup dir path => exact works_lookup h hadm path
  | read v u => exact works_read h hadm.1 hadm.2.1 hadm.2.2
  | write v u => exact works_write h hadm.1 hadm.2.1 hadm.2.2
  | truncate v len => exact works_truncate h hadm.1 hadm.2.1 hadm.2.2
  | fsync v => exact works_fsync h hadm
  | incref v => exact works_incref h hadm
  | decref v => exact works_decref h hcalm hadm

end Works

end Calls

/-! ### Runs -/

/-- An admissible call leads from one volume to another, whether it succeeds or fails. -/
def Fs.Step (s s' : Fs) : Prop :=
  ∃ op : Op, op.Admissible s ∧ ((∃ r, op.run s = .ok r s') ∨ ∃ e, op.run s = .err e s')

/-- A sequence of admissible calls leads from one volume to another. -/
def Fs.Reaches : Fs → Fs → Prop := Relation.ReflTransGen Fs.Step

/-- The volume after a list of admissible calls that return. -/
def Fs.replay (s : Fs) : List Op → Option Fs
  | [] => some s
  | op :: ops => (op.after s).bind fun s' => s'.replay ops

section Runs

variable {lost : ℕ → Prop} {s₀ s s' : Fs}

theorem Fs.replay_append (s : Fs) (ops ops' : List Op) :
  s.replay (ops ++ ops') = (s.replay ops).bind fun s' => s'.replay ops'
  := by
  induction ops generalizing s with
  | nil => rfl
  | cons op ops ih =>
    simp only [List.cons_append, Fs.replay, Option.bind_assoc]
    congr 1
    funext s₁
    exact ih s₁

/-- The calls that return. -/
theorem Op.of_after {op : Op} (h : op.after s = some s') :
  op.Admissible s ∧ ((∃ r, op.run s = .ok r s') ∨ ∃ e, op.run s = .err e s')
  := by
  unfold after at h
  split at h
  · next hadm =>
      refine ⟨hadm, ?_⟩
      cases hrun : op.run s with
      | ok r s₁ =>
        rw [hrun] at h
        cases h
        exact .inl ⟨r, rfl⟩
      | err e s₁ =>
        rw [hrun] at h
        cases h
        exact .inr ⟨e, rfl⟩
      | panic q =>
        rw [hrun] at h
        cases h
  · cases h

theorem Fs.reaches_of_replay {ops : List Op} (h : s.replay ops = some s') :
  s.Reaches s'
  := by
  induction ops generalizing s with
  | nil =>
    cases h
    exact .refl
  | cons op ops ih =>
    obtain ⟨s₁, hafter, hrest⟩ := Option.bind_eq_some_iff.mp h
    exact .head ⟨op, Op.of_after hafter⟩ (ih hrest)

section Returns

variable (h : Consistent lost s) (hcalm : s.Calm) {op : Op} (hadm : op.Admissible s)

include h hcalm hadm

theorem Op.works_ok {r : Reply} (hrun : op.run s = .ok r s') :
  Advances lost s s' ∧ Born s s' ∧ (op.KeepsContents → Kept (op.Erases s) s s')
  := by
  apply wlp_ok (Op.works h hcalm op hadm) hrun

theorem Op.works_err {e : Errno} (hrun : op.run s = .err e s') :
  Advances lost s s' ∧ s'.Live = s.Live ∧ (op.KeepsContents → Stays s s')
  := by
  apply wlp_err (Op.works h hcalm op hadm) hrun

/-- A call that is not refused memory does not panic. -/
theorem Op.not_panic (hk : s.kmallocs = []) (q : FsPanic) :
  op.run s ≠ .panic q
  := fun hpanic => wlp_reason (Op.works h hcalm op hadm) hpanic hk

end Returns

/-- One call leaves a consistent volume. -/
theorem Fs.Step.advances (hstep : s.Step s') (h : Consistent lost s) (hcalm : s.Calm) :
  Advances lost s s'
  := by
  obtain ⟨op, hadm, ⟨r, hrun⟩ | ⟨e, hrun⟩⟩ := hstep
  · exact (Op.works_ok h hcalm hadm hrun).1
  · exact (Op.works_err h hcalm hadm hrun).1

/-- A run leaves a consistent volume. -/
theorem Fs.Reaches.advances (hrun : s₀.Reaches s) (h : Consistent lost s₀) (hcalm : s₀.Calm) :
  Advances lost s₀ s
  := by
  induction hrun with
  | refl => exact Kept.advances (Stays.refl s₀) h
  | tail _ hstep ih =>
    obtain ⟨lost', hc, hlost⟩ := ih.consistent
    have hadv := hstep.advances hc (ih.calm hcalm)
    obtain ⟨lost'', hc', hlost'⟩ := hadv.consistent
    refine ⟨⟨lost'', hc', ?_⟩, ?_, ?_⟩
    · intro hnil
      rw [hlost' (ih.kmallocs hnil), hlost hnil]
    · intro _
      exact hadv.calm (ih.calm hcalm)
    · intro hnil
      exact hadv.kmallocs (ih.kmallocs hnil)

end Runs

/-! ### Empty volumes -/

/-- A volume that was just mounted, with a correct free map and a root directory without
entries. -/
structure Fs.Empty (s : Fs) : Prop where
  sound : s.Sound
  nbits : s.freemap.nbits = bitmapSize s.nblocks
  vnodes : s.vnodes.guys = []
  /-- The blocks in use are the reserved ones, the root inode and the blocks that it holds. -/
  freemap : Ledger (s.Fixed fun _ => False) s.Used (s.cells fun ino => ino = 1)
  type : (s.file 1).type = typeDir
  links : (s.file 1).linkcount ≠ 0
  dvd : 64 ∣ (s.file 1).size
  le : (s.file 1).size ≤ 73216
  entries : Slots.entries s.dir = []

namespace Fs.Empty

variable {s : Fs}

theorem live (h : s.Empty) :
  s.Live = fun ino => ino = 1
  := by
  funext ino
  apply propext
  constructor
  · rintro (hone | ⟨q, hq, -⟩ | ⟨x, hx⟩)
    · exact hone
    · rw [h.vnodes] at hq
      cases hq
    · rw [h.entries] at hx
      cases hx
  · intro hone
    exact .inl hone

theorem calm (h : s.Empty) :
  s.Calm
  := by
  intro q hq
  rw [h.vnodes] at hq
  cases hq

theorem vnodesOk (h : s.Empty) (L : ℕ → Prop) :
  VnodesOk L s
  := by
  refine ⟨by rw [h.vnodes]; exact List.nodup_nil, ?_, ?_, ?_, ?_, ?_, ?_, ?_⟩
  all_goals
    intro q hq
    rw [h.vnodes] at hq
    cases hq

/-- An empty volume is consistent. -/
theorem consistent (h : s.Empty) :
  Consistent (fun _ => False) s
  := by
  have hle := h.le
  refine ⟨?_, h.dvd, h.le, h.links, ?_, ?_, ?_⟩
  · rw [h.live]
    refine ⟨h.vnodesOk _, h.sound, h.nbits, h.freemap, rfl, Nat.zero_ne_one, ?_, ?_⟩
    · rintro ino rfl
      exact h.type
    · rintro ino rfl
      have hsize : (s.inodeOf 1).size.toNat ≤ 73216 := hle
      omega
  · rw [Slots.Distinct, h.entries]
    exact List.nodup_nil
  · intro x hx
    rw [h.entries] at hx
    cases hx
  · intro ino hne hlive
    rw [h.live] at hlive
    exact absurd hlive hne

end Fs.Empty

/-- A volume of 4096 blocks with an empty root directory, in blocks 0 to 2. -/
def fresh : Fs where
  device :=
    { disk := fun b =>
      if b = 1 then { Inode.cleared with type := typeDir, linkcount := 1 }.encode else zeroBlock
      dBlocks := 4096
      results := [] }
  nblocks := 4096
  vnodes := ⟨[], 0⟩
  freemap := ⟨4096, 7 :: List.replicate 511 0⟩
  freemapdirty := false
  heap := fun _ => ⟨none, 0, 0, Inode.cleared, 0, false⟩
  next := 0
  kmallocs := []

theorem used_fresh (b : ℕ) :
  fresh.Used b ↔ b < 3
  := by
  have hbit : fresh.freemap.isset b = BitWords.getBit (7 :: List.replicate 511 (0 : BitVec 8)) b :=
    rfl
  rw [Fs.Used, hbit]
  by_cases hb : b < 8
  · have hlow : ∀ c < 8, ((7 : BitVec 8).getLsbD c = true ↔ c < 3) := by decide
    rw [BitWords.getBit_cons_of_lt hb]
    exact hlow b hb
  · obtain ⟨c, rfl⟩ : ∃ c, b = c + 8 := ⟨b - 8, by omega⟩
    rw [BitWords.getBit_cons_add (by decide), BitWords.getBit_replicate_zero]
    exact iff_of_false Bool.false_ne_true (by omega)

theorem inodeOf_fresh :
  fresh.inodeOf 1 = { Inode.cleared with type := typeDir, linkcount := 1 }
  := Inode.decode_encode _

theorem fresh_empty :
  fresh.Empty
  := by
  have hnbits : fresh.freemap.nbits = 4096 := rfl
  have hwords : fresh.freemap.v = 7 :: List.replicate 511 0 := rfl
  have hfull : fresh.freemap.Full := by
    constructor
    · rw [hwords, hnbits, List.length_cons, List.length_replicate]
    · decide
  have hnblocks : fresh.nblocks = 4096 := rfl
  have hfile : fresh.file 1
      = Inode.view fresh.disk { Inode.cleared with type := typeDir, linkcount := 1 } := by
    rw [Fs.file, inodeOf_fresh]
  have hptr : ∀ k, (fresh.inodeOf 1).ptr fresh.disk k = 0 := by
    intro k
    rw [inodeOf_fresh]
    exact Inode.ptr_cleared rfl rfl
  have hcell : ∀ ino k, fresh.cells (fun ino => ino = 1) ino k
      = if ino = 1 ∧ k = 144 then 1 else 0 := by
    intro ino k
    by_cases hino : ino = 1
    · subst hino
      rw [Catalog.cells_of_mem (L := fun ino => ino = 1) rfl, Inode.cell, hptr]
      simp
    · have hzero : fresh.cells (fun ino => ino = 1) ino k = 0 := if_neg hino
      rw [hzero, if_neg (fun hand => hino hand.1)]
  have hfixed : ∀ b, fresh.Fixed (fun _ => False) b ↔ b = 0 ∨ b = 2 := by
    intro b
    have hblocks : bitBlocks 4096 = 1 := by decide
    simp only [Fs.Fixed, hnbits, hnblocks, hblocks, or_false]
    omega
  constructor
  · refine ⟨⟨rfl, Nat.le_refl _, by decide⟩, hfull, Nat.le_refl _, ?_, ?_⟩
    · intro b hle hlt
      rw [hnblocks] at hle
      rw [hnbits] at hlt
      omega
    · exact (used_fresh 0).mpr (by decide)
  · decide
  · rfl
  · refine ⟨?_, ?_, ?_⟩
    · intro b
      rw [used_fresh, hfixed]
      constructor
      · intro hb
        by_cases hone : b = 1
        · subst hone
          exact .inr ⟨1, 144, by rw [hcell, if_pos ⟨rfl, rfl⟩], Nat.one_ne_zero⟩
        · left
          omega
      · rintro (hb | ⟨ino, k, hk, hne⟩)
        · omega
        · rw [hcell] at hk
          split at hk
          · omega
          · exact absurd hk.symm hne
    · intro ino k ino' k' hne heq
      simp only [hcell] at hne heq
      grind
    · intro ino k hne
      rw [hfixed]
      simp only [hcell] at hne ⊢
      grind
  · rw [hfile]
    rfl
  · rw [hfile]
    exact (by decide : (1 : UInt16) ≠ 0)
  · rw [hfile]
    exact ⟨0, rfl⟩
  · rw [hfile]
    exact Nat.zero_le _
  · rw [Fs.dir, hfile]
    rfl

/-- The name `b`. -/
def nameB : Name := ⟨[98], by decide⟩

/-- The volume after some calls on one with a file `a`, whose vnode is at 1. -/
def started (ops : List Op) : Fs :=
  (fresh.replay (.getroot :: .creat 0 nameA true :: ops)).getD fresh

/-- A region of the kernel with `n` bytes, which are all the same. -/
def filled (b : UInt8) (n : ℕ) (o : ℤ) (rw : UioRw) : Uio :=
  Uio.mkKuio (Buf.ofFn fun _ => b : Buf n UInt8) n o rw

/-- Bytes are written to the file `a`. -/
def writeA : Op := .write 1 (filled 7 2 0 .write)

/-- Another file `b` is made, written to, cut and removed, and its vnode is dropped. -/
def passing : List Op :=
  [.creat 0 nameB true, .write 2 (filled 9 600 0 .write), .truncate 2 1, .remove 0 nameB, .decref 2]

/-- Another file `b` is made and loses its name, which the file `a` gets as a second one. -/
def relinking : List Op := [.creat 0 nameB true, .remove 0 nameB, .link 0 nameB 1]

section Started

variable (ops : List Op)
    (h : (fresh.replay (.getroot :: .creat 0 nameA true :: ops)).isSome = true)
include h

theorem started_eq :
  fresh.replay (.getroot :: .creat 0 nameA true :: ops) = some (started ops)
  := by
  obtain ⟨s, hs⟩ := Option.isSome_iff_exists.mp h
  rw [started, hs]
  rfl

theorem reaches_started :
  fresh.Reaches (started ops)
  := Fs.reaches_of_replay (started_eq ops h)

end Started

/-! ### Every reachable volume -/

/-- The blocks in use are the reserved ones and the ones that the live inodes hold, each once,
in every volume that is reached from an empty one.  No call panics on it. -/
theorem blocks_owned_once {s₀ s : Fs} (hempty : s₀.Empty) (hk : s₀.kmallocs = [])
    (hrun : s₀.Reaches s) :
  Ledger (s.Fixed fun _ => False) s.Used (s.cells s.Live)
    ∧ ∀ op : Op, op.Admissible s → ∀ q, op.run s ≠ .panic q
  := by
  have hadv := hrun.advances hempty.consistent hempty.calm
  obtain ⟨lost, hc, hlost⟩ := hadv.consistent
  rw [hlost hk] at hc
  refine ⟨hc.catalog.ledger, ?_⟩
  intro op hadm q
  exact Op.not_panic hc (hadv.calm hempty.calm) hadm (hadv.kmallocs hk) q

/-- A file with bytes, after another one has come and gone. -/
theorem blocks_owned_once_passing :
  Ledger ((started (writeA :: passing)).Fixed fun _ => False) (started (writeA :: passing)).Used
      ((started (writeA :: passing)).cells (started (writeA :: passing)).Live)
    ∧ ∀ op : Op, op.Admissible (started (writeA :: passing)) →
      ∀ q, op.run (started (writeA :: passing)) ≠ .panic q
  := blocks_owned_once fresh_empty rfl (reaches_started _ (by decide +kernel))

/-- The inode of a file and the blocks that it held are free. -/
def Fs.Returned (s : Fs) (ino : ℕ) (s' : Fs) : Prop :=
  ¬ s'.Used ino ∧ ∀ k, (s.file ino).blocks k ≠ 0 → ¬ s'.Used ((s.file ino).blocks k)

/-- The inode of a file and the blocks that it held are in use. -/
def Fs.Retained (s : Fs) (ino : ℕ) (s' : Fs) : Prop :=
  s'.Used ino ∧ ∀ k, (s.file ino).blocks k ≠ 0 → s'.Used ((s.file ino).blocks k)

/-- A file that is not erased keeps its blocks. -/
theorem Kept.retained {gone lost : ℕ → Prop} {s s' : Fs} {ino : ℕ} (h : Kept gone s s')
    (hc : Consistent lost s') (hne : ino ≠ 1) (hlive : s.Live ino) (hnot : ¬ gone ino) :
  s.Retained ino s'
  := by
  have hlive' := (h.live ino hlive).mpr hnot
  have hfile := h.file ino hne hlive hnot
  refine ⟨hc.catalog.used hlive', ?_⟩
  intro k hk
  have hblock : (s'.file ino).blocks k = (s.file ino).blocks k := by
    rw [hfile]
  rw [← hblock] at hk ⊢
  have hlt : k < 144 := Inode.lt_of_ptr_ne_zero hk
  have hcell : s'.cells s'.Live ino k = (s'.file ino).blocks k := by
    rw [Catalog.cells_of_mem hlive', Inode.cell_of_lt hlt]
    rfl
  rw [← hcell] at hk ⊢
  exact (hc.catalog.ledger.account ino).used k hk

/-- In every volume that is reached from a consistent one, the link count of a file is the
number of slots that name it.  No call panics, a call that succeeds returns the blocks of the
files that it erases and of no others, and one that fails returns none.  A file that a call began
to make is gone when the call fails: no other inode is live, and the blocks in use are the
reserved ones and those of the live inodes. -/
theorem linkcounts_counted {s₀ s : Fs} (hstart : Consistent (fun _ => False) s₀)
    (hcalm : s₀.Calm) (hk : s₀.kmallocs = []) (hrun : s₀.Reaches s) :
  (∀ ino, ino ≠ 1 → s.Live ino → (s.file ino).linkcount.toNat = Slots.count s.dir ino
      ∧ Slots.count s.dir ino ≤ 1144)
    ∧ ∀ op : Op, op.Admissible s → (∀ q, op.run s ≠ .panic q)
      ∧ (op.KeepsContents → ∀ ino, ino ≠ 1 → s.Live ino →
        (∀ r s', op.run s = .ok r s' →
          (op.Erases s ino → s.Returned ino s') ∧ (¬ op.Erases s ino → s.Retained ino s'))
        ∧ ∀ e s', op.run s = .err e s' → s.Retained ino s')
      ∧ ∀ e s', op.run s = .err e s' → s'.Live = s.Live
        ∧ Ledger (s'.Fixed fun _ => False) s'.Used (s'.cells s'.Live)
  := by
  have hadv := hrun.advances hstart hcalm
  obtain ⟨lost, hc, hlost⟩ := hadv.consistent
  rw [hlost hk] at hc
  refine ⟨fun ino hne hlive => ⟨hc.links ino hne hlive, hc.count_le ino⟩, ?_⟩
  intro op hadm
  have hcalm' := hadv.calm hcalm
  refine ⟨Op.not_panic hc hcalm' hadm (hadv.kmallocs hk), ?_, ?_⟩
  · intro hkeeps ino hne hlive
    constructor
    · intro r s' hrun'
      obtain ⟨hadv', -, hkept⟩ := Op.works_ok hc hcalm' hadm hrun'
      obtain ⟨lost', hc', -⟩ := hadv'.consistent
      exact ⟨(hkept hkeeps).freed ino hlive, (hkept hkeeps).retained hc' hne hlive⟩
    · intro e s' hrun'
      obtain ⟨hadv', -, hkept⟩ := Op.works_err hc hcalm' hadm hrun'
      obtain ⟨lost', hc', -⟩ := hadv'.consistent
      exact (hkept hkeeps).retained hc' hne hlive id
  · intro e s' hrun'
    obtain ⟨hadv', hsame, -⟩ := Op.works_err hc hcalm' hadm hrun'
    obtain ⟨lost', hc', hlost'⟩ := hadv'.consistent
    rw [hlost' (hadv.kmallocs hk)] at hc'
    exact ⟨hsame, hc'.catalog.ledger⟩

/-- A file with two names, and one without names whose last reference is dropped. -/
theorem linkcounts_counted_relinking :
  Slots.count (started relinking).dir 3 = 2 ∧ ((started relinking).file 3).linkcount.toNat = 2
    ∧ ∃ r s', (Op.decref 2).run (started relinking) = .ok r s' ∧ (started relinking).Returned 5 s'
  := by
  have hcount : Slots.count (started relinking).dir 3 = 2 := by decide +kernel
  have hreach := reaches_started relinking (by decide +kernel)
  have hadm : (Op.decref 2).Admissible (started relinking) := by decide +kernel
  obtain ⟨hmem, hino, hino', hlast⟩ : 1 ∈ (started relinking).vnodes.guys
      ∧ ((started relinking).heap 1).ino = 3 ∧ 5 = ((started relinking).heap 2).ino
      ∧ ((started relinking).heap 2).refcount = 1
      ∧ ((started relinking).heap 2).i.linkcount = 0 := by
    decide +kernel
  obtain ⟨r, s', hrun, -⟩ : ∃ r s', (Op.decref 2).run (started relinking) = .ok r s'
      ∧ 2 ∉ s'.vnodes.guys := by decide +kernel
  generalize started relinking = s at *
  obtain ⟨hlinks, hcalls⟩ :=
    linkcounts_counted fresh_empty.consistent fresh_empty.calm rfl hreach
  have hlive := Fs.live_of_mem hmem
  rw [hino] at hlive
  have hlive' := Fs.live_of_mem hadm
  rw [← hino'] at hlive'
  refine ⟨hcount, (hlinks 3 (by decide) hlive).1.trans hcount, r, s', hrun, ?_⟩
  obtain ⟨-, hblocks, -⟩ := hcalls _ hadm
  exact ((hblocks trivial 5 (by decide) hlive').1 r s' hrun).1 ⟨hino', hlast⟩

end Sfs
