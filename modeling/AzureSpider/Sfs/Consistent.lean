import AzureSpider.Sfs.Lifetime

/-!
# Consistent volumes

A volume is consistent if its catalog is in order for the inodes that are live (the root
directory, the inodes in memory and the inodes that the root directory names), the names in the
root directory are different and do not name the root directory, and the link count of every
other live inode is the number of its names.

The routines keep volumes consistent: each section below takes a step that one of the routines
makes, and shows which inodes are live after it.
-/

open Machine

namespace Sfs

namespace Fs

/-- The table of the slots of the root directory. -/
def dir (s : Fs) : List (Option (List UInt8 × ℕ)) := slotsOf (s.file 1).size (s.file 1).bytes

/-- The inode of the root directory, or one that is in memory or has a name. -/
def Live (s : Fs) (ino : ℕ) : Prop :=
  ino = 1 ∨ s.Resident ino ∨ ∃ x, (x, ino) ∈ Slots.entries s.dir

end Fs

/-- A consistent volume, with some blocks that are in use and belong to nothing. -/
structure Consistent (lost : ℕ → Prop) (s : Fs) : Prop where
  catalog : Catalog lost s.Live s
  dvd : 64 ∣ (s.file 1).size
  le : (s.file 1).size ≤ 73216
  rootLinks : (s.file 1).linkcount ≠ 0
  distinct : Slots.Distinct s.dir
  noRoot : ∀ x, (x, 1) ∉ Slots.entries s.dir
  links : ∀ ino, ino ≠ 1 → s.Live ino → (s.file ino).linkcount.toNat = Slots.count s.dir ino

/-! ### Live inodes -/

section Live

variable {s s' : Fs} {p : Ptr} {j : ℕ}

theorem Fs.live_root (s : Fs) :
  s.Live 1
  := .inl rfl

theorem Fs.live_of_mem (hp : p ∈ s.vnodes.guys) :
  s.Live (s.heap p).ino
  := .inr (.inl ⟨p, hp, rfl⟩)

theorem Fs.dir_congr (h : s'.file 1 = s.file 1) :
  s'.dir = s.dir
  := by
  rw [Fs.dir, Fs.dir, h]

theorem Fs.live_congr (hres : ∀ j, s'.Resident j ↔ s.Resident j) (hdir : s'.dir = s.dir) :
  s'.Live = s.Live
  := by
  funext j
  rw [Fs.Live, Fs.Live, hdir, hres]

/-- The inodes in memory, apart from the one of a vnode. -/
theorem SameVnodes.resident (h : SameVnodes p s s') (j : ℕ) :
  s'.Resident j ↔ (∃ q ∈ s.vnodes.guys, q ≠ p ∧ (s.heap q).ino = j)
    ∨ p ∈ s'.vnodes.guys ∧ (s'.heap p).ino = j
  := by
  constructor
  · rintro ⟨q, hq, rfl⟩
    by_cases hqp : q = p
    · subst hqp
      exact .inr ⟨hq, rfl⟩
    · have hq' := (h.mem q hqp).mp hq
      exact .inl ⟨q, hq', hqp, by rw [h.heap q hq' hqp]⟩
  · rintro (⟨q, hq, hqp, rfl⟩ | ⟨hp, rfl⟩)
    · exact ⟨q, (h.mem q hqp).mpr hq, by rw [h.heap q hq hqp]⟩
    · exact ⟨p, hp, rfl⟩

theorem FileStep.resident (h : FileStep p s s') (j : ℕ) :
  s'.Resident j ↔ s.Resident j
  := Fs.resident_congr h.vnodes (fun q _ => h.ino_eq q) j

/-- A change of one vnode that leaves its inode number. -/
theorem Fs.resident_update {f : SfsVnode → SfsVnode} (hf : (f (s.heap p)).ino = (s.heap p).ino)
    (j : ℕ) :
  (s.update p f).Resident j ↔ s.Resident j
  := by
  have hv : (s.update p f).vnodes = s.vnodes := rfl
  apply Fs.resident_congr hv
  intro q _
  rw [Fs.heap_update]
  split
  · next hq => rw [hq, hf]
  · rfl

/-- A file that is in memory gets a name. -/
theorem Fs.live_of_perm {e : List UInt8 × ℕ} (hres : ∀ j, s'.Resident j ↔ s.Resident j)
    (hperm : (Slots.entries s'.dir).Perm (e :: Slots.entries s.dir)) (he : s.Resident e.2) :
  s'.Live = s.Live
  := by
  funext j
  apply propext
  simp only [Fs.Live, hres, hperm.mem_iff, List.mem_cons]
  constructor
  · rintro (hj | hj | ⟨x, rfl | hx⟩)
    · exact .inl hj
    · exact .inr (.inl hj)
    · exact .inr (.inl he)
    · exact .inr (.inr ⟨x, hx⟩)
  · rintro (hj | hj | ⟨x, hx⟩)
    · exact .inl hj
    · exact .inr (.inl hj)
    · exact .inr (.inr ⟨x, .inr hx⟩)

end Live

namespace Consistent

variable {lost lost' : ℕ → Prop} {s s' s₁ : Fs} {p q : Ptr} {ino j k b : ℕ} {name : Name}
  {x : List UInt8}

/-! ### The root directory -/

theorem live_of_entry (hx : (x, ino) ∈ Slots.entries s.dir) :
  s.Live ino
  := .inr (.inr ⟨x, hx⟩)

theorem ne_root (h : Consistent lost s) (hx : (x, ino) ∈ Slots.entries s.dir) :
  ino ≠ 1
  := by
  rintro rfl
  exact h.noRoot x hx

section Root

variable (h : Consistent lost s) (hp : p ∈ s.vnodes.guys) (hroot : (s.heap p).ino = 1)

include h hp hroot

theorem file_root :
  s.file 1 = ⟨s.size p, (s.heap p).i.type, (s.heap p).i.linkcount, s.byteAt p, s.ptr p⟩
  := by
  rw [← hroot]
  exact h.catalog.file_eq hp

/-- The slots of the vnode of the root directory. -/
theorem slots_eq :
  s.slots p = s.dir
  := by
  rw [Fs.dir, h.file_root hp hroot]
  rfl

theorem isDir :
  s.IsDir p
  := by
  have hfile := h.file_root hp hroot
  have hdvd := h.dvd
  have hle := h.le
  rw [hfile] at hdvd hle
  refine ⟨?_, hdvd, hle⟩
  have htype := h.catalog.type 1 s.live_root
  rw [if_pos rfl] at htype
  rw [← htype, ← hroot, h.catalog.inodeOf hp]

end Root

/-- The directory has at most 1144 slots. -/
theorem length_dir_le (h : Consistent lost s) :
  s.dir.length ≤ 1144
  := by
  have hle := h.le
  rw [Fs.dir, length_slotsOf]
  omega

theorem count_le (h : Consistent lost s) (ino : ℕ) :
  Slots.count s.dir ino ≤ 1144
  := Nat.le_trans (Slots.count_le_length s.dir ino) h.length_dir_le

/-- The link count of a vnode in the table. -/
theorem linkcount_eq (h : Consistent lost s) (hq : q ∈ s.vnodes.guys) (hne : (s.heap q).ino ≠ 1) :
  (s.heap q).i.linkcount.toNat = Slots.count s.dir (s.heap q).ino
  := by
  have hlinks := h.links _ hne (Fs.live_of_mem hq)
  rwa [h.catalog.file_eq hq] at hlinks

/-- A file with a name has links. -/
theorem linkcount_ne_zero (h : Consistent lost s) (hx : (x, ino) ∈ Slots.entries s.dir) :
  (s.file ino).linkcount ≠ 0
  := by
  intro hzero
  have hlinks := h.links ino (h.ne_root hx) (live_of_entry hx)
  have hpos : 0 < Slots.count s.dir ino := Slots.count_pos_iff.mpr ⟨x, hx⟩
  rw [hzero] at hlinks
  have hz : (0 : UInt16).toNat = 0 := rfl
  omega

/-! ### Steps that leave the root directory -/

/-- A step that leaves the file of the root directory. -/
theorem of_file (h : Consistent lost s) (hcat : Catalog lost' s'.Live s')
    (hfile : s'.file 1 = s.file 1)
    (hlinks : ∀ ino, ino ≠ 1 → s'.Live ino →
      (s'.file ino).linkcount.toNat = Slots.count s.dir ino) :
  Consistent lost' s'
  := by
  have hdir := Fs.dir_congr hfile
  refine ⟨hcat, ?_, ?_, ?_, ?_, ?_, ?_⟩
  · rw [hfile]
    exact h.dvd
  · rw [hfile]
    exact h.le
  · rw [hfile]
    exact h.rootLinks
  · rw [hdir]
    exact h.distinct
  · rw [hdir]
    exact h.noRoot
  · rw [hdir]
    exact hlinks

/-- A step that leaves all files, and the inodes that are live. -/
theorem of_same (h : Consistent lost s) (hlive : s'.Live = s.Live)
    (hcat : Catalog lost' s.Live s') (hfile : ∀ j, s.Live j → s'.file j = s.file j) :
  Consistent lost' s'
  := by
  apply h.of_file
  · rw [hlive]
    exact hcat
  · exact hfile 1 s.live_root
  · intro i hi hl
    rw [hlive] at hl
    rw [hfile i hl]
    exact h.links i hi hl

/-! A vnode is fetched -/

section Fetched

variable (hf : Fetched lost s.Live ino s p s')

include hf

theorem dir_fetched :
  s'.dir = s.dir
  := Fs.dir_congr (hf.file 1 s.live_root)

theorem live_fetched (hlive : s.Live ino) :
  s'.Live = s.Live
  := by
  funext j
  apply propext
  rw [Fs.Live, dir_fetched hf, hf.vnodes.resident]
  constructor
  · rintro (hj | (⟨q, hq, -, rfl⟩ | ⟨-, rfl⟩) | hx)
    · exact .inl hj
    · exact Fs.live_of_mem hq
    · rw [hf.ino_eq]
      exact hlive
    · exact .inr (.inr hx)
  · rintro (hj | ⟨q, hq, rfl⟩ | hx)
    · exact .inl hj
    · right
      left
      by_cases hqp : q = p
      · subst hqp
        exact .inr ⟨hf.mem, by rw [hf.old hq]⟩
      · exact .inl ⟨q, hq, hqp, rfl⟩
    · exact .inr (.inr hx)

theorem fetched (h : Consistent lost s) (hlive : s.Live ino) :
  Consistent lost s'
  := h.of_same (live_fetched hf hlive) hf.catalog hf.file

end Fetched

/-! A file is made -/

section Made

variable (hm : Made lost s.Live s b p s')

include hm

theorem dir_made :
  s'.dir = s.dir
  := Fs.dir_congr (hm.file 1 s.live_root)

theorem live_made :
  s'.Live = fun j => s.Live j ∨ j = b
  := by
  have hino : (s'.heap p).ino = b := by
    rw [hm.heap]
    rfl
  funext j
  apply propext
  rw [Fs.Live, dir_made hm, hm.vnodes.resident]
  constructor
  · rintro (hj | (⟨q, hq, -, rfl⟩ | ⟨-, rfl⟩) | hx)
    · exact .inl (.inl hj)
    · exact .inl (Fs.live_of_mem hq)
    · exact .inr hino
    · exact .inl (.inr (.inr hx))
  · rintro ((hj | ⟨q, hq, rfl⟩ | hx) | rfl)
    · exact .inl hj
    · have hqp : q ≠ p := by
        rintro rfl
        exact hm.new hq
      exact .inr (.inl (.inl ⟨q, hq, hqp, rfl⟩))
    · exact .inr (.inr hx)
    · exact .inr (.inl (.inr ⟨hm.mem, hino⟩))

/-- The block of a new file was not live. -/
theorem not_live_made (h : Consistent lost s) :
  ¬ s.Live b
  := by
  intro hlive
  exact hm.free (h.catalog.used hlive)

theorem made (h : Consistent lost s) :
  Consistent lost s'
  := by
  have hsame := live_made hm
  apply h.of_file
  · rw [hsame]
    exact hm.catalog
  · exact hm.file 1 s.live_root
  · intro i hi hl
    rw [hsame] at hl
    rcases hl with hl | rfl
    · rw [hm.file i hl]
      exact h.links i hi hl
    · -- the new file has no name and no links
      have hfile := hm.catalog.file_eq hm.mem
      have hcount : Slots.count s.dir i = 0 := by
        by_contra hne
        obtain ⟨x, hx⟩ := Slots.count_pos_iff.mp (Nat.pos_of_ne_zero hne)
        exact not_live_made hm h (live_of_entry hx)
      have hino : (s'.heap p).ino = i := by
        rw [hm.heap]
        rfl
      rw [hino] at hfile
      rw [hfile, hm.heap, hcount]
      rfl

end Made

/-! A reference is dropped -/

section Released

variable (hr : Released lost s.Live p s s') (h : Consistent lost s) (hp : p ∈ s.vnodes.guys)

include h hp in
/-- The root directory has links. -/
theorem not_last_root :
  ¬ (1 = (s.heap p).ino ∧ s.Last p)
  := by
  rintro ⟨hone, -, hlinks⟩
  apply h.rootLinks
  rw [h.file_root hp hone.symm]
  exact hlinks

include hr h hp

theorem dir_released :
  s'.dir = s.dir
  := Fs.dir_congr (hr.file 1 s.live_root (h.not_last_root hp))

/-- The inodes that are live after a reference is dropped. -/
theorem live_released :
  s'.Live = fun j => s.Live j ∧ ¬ (j = (s.heap p).ino ∧ s.Last p)
  := by
  funext j
  apply propext
  rw [Fs.Live, dir_released hr h hp, hr.vnodes.resident]
  constructor
  · rintro (rfl | (⟨q, hq, hqp, rfl⟩ | ⟨hmem, rfl⟩) | ⟨x, hx⟩)
    · exact ⟨s.live_root, h.not_last_root hp⟩
    · refine ⟨Fs.live_of_mem hq, ?_⟩
      rintro ⟨heq, -⟩
      exact hqp (h.catalog.inos q hq p hp heq)
    · have hlt := hr.mem.mp hmem
      rw [hr.heap hlt]
      exact ⟨Fs.live_of_mem hp, fun hl => Nat.ne_of_gt hlt hl.2.1⟩
    · refine ⟨live_of_entry hx, ?_⟩
      rintro ⟨rfl, -, hlinks⟩
      apply h.linkcount_ne_zero hx
      rw [h.catalog.file_eq hp]
      exact hlinks
  · rintro ⟨rfl | ⟨q, hq, rfl⟩ | hx, hnot⟩
    · exact .inl rfl
    · by_cases hqp : q = p
      · subst hqp
        by_cases hone : (s.heap q).ino = 1
        · exact .inl hone
        · by_cases hlt : 1 < (s.heap q).refcount
          · right
            left
            right
            exact ⟨hr.mem.mpr hlt, by rw [hr.heap hlt]⟩
          · -- the file has a name, as it has links
            have href : (s.heap q).refcount = 1 := by
              have hpos := h.catalog.refs q hq
              omega
            have hlinks : (s.heap q).i.linkcount ≠ 0 := fun hz => hnot ⟨rfl, href, hz⟩
            have hcount := h.linkcount_eq hq hone
            right
            right
            apply Slots.count_pos_iff.mp
            apply Nat.pos_of_ne_zero
            rw [← hcount]
            intro hz
            exact hlinks (UInt16.toNat_inj.mp hz)
      · exact .inr (.inl (.inl ⟨q, hq, hqp, rfl⟩))
    · exact .inr (.inr hx)

theorem released :
  Consistent lost s'
  := by
  have hsame := live_released hr h hp
  apply h.of_file
  · rw [hsame]
    exact hr.catalog
  · exact hr.file 1 s.live_root (h.not_last_root hp)
  · intro i hi hl
    rw [hsame] at hl
    rw [hr.file i hl.1 hl.2]
    exact h.links i hi hl.1

end Released

/-! A step of a file other than the root directory -/

section FileStep

variable (h : Consistent lost s) (hp : p ∈ s.vnodes.guys) (hstep : FileStep p s s')
  (hne : (s.heap p).ino ≠ 1)

include h hp hstep hne

theorem file_root_fileStep :
  s'.file 1 = s.file 1
  := h.catalog.file_fileStep hp hstep s.live_root hne.symm

theorem live_fileStep :
  s'.Live = s.Live
  := Fs.live_congr hstep.resident (Fs.dir_congr (h.file_root_fileStep hp hstep hne))

theorem fileStep (hsize : s'.size p < 2 ^ 31) :
  Consistent lost s'
  := by
  have hsame := h.live_fileStep hp hstep hne
  have hcat := h.catalog.fileStep hp hstep hsize
  apply h.of_file
  · rw [hsame]
    exact hcat
  · exact h.file_root_fileStep hp hstep hne
  · intro i hi hl
    rw [hsame] at hl
    by_cases hip : i = (s.heap p).ino
    · subst hip
      have hp' : p ∈ s'.vnodes.guys := by
        rw [hstep.vnodes]
        exact hp
      have hfile := hcat.file_eq hp'
      rw [hstep.kept.ino] at hfile
      rw [hfile, hstep.kept.linkcount]
      exact h.linkcount_eq hp hi
    · rw [h.catalog.file_fileStep hp hstep hl hip]
      exact h.links i hi hl

end FileStep

/-! ### Steps of the root directory -/

section Root

variable (h : Consistent lost s) (hp : p ∈ s.vnodes.guys) (hroot : (s.heap p).ino = 1)

include h hp

theorem catalog_dir (hstep : FileStep p s s') (hdir : s'.IsDir p) :
  Catalog lost s.Live s'
  := by
  have hle := hdir.le
  exact h.catalog.fileStep hp hstep (by omega)

include hroot

/-- The file of the root directory after a step of it. -/
theorem file_dir (hstep : FileStep p s s') (hdir : s'.IsDir p) :
  s'.file 1 = ⟨s'.size p, (s'.heap p).i.type, (s.heap p).i.linkcount, s'.byteAt p, s'.ptr p⟩
  := by
  have hp' : p ∈ s'.vnodes.guys := by
    rw [hstep.vnodes]
    exact hp
  have hfile := (h.catalog_dir hp hstep hdir).file_eq hp'
  rwa [hstep.kept.ino, hroot, hstep.kept.linkcount] at hfile

/-- A volume with the root directory after a step of it. -/
theorem of_dir (hstep : FileStep p s s₁) (hdir : s₁.IsDir p) (hfile : s'.file 1 = s₁.file 1)
    (hcat : Catalog lost s'.Live s') (hdistinct : Slots.Distinct s'.dir)
    (hnoRoot : ∀ x, (x, 1) ∉ Slots.entries s'.dir)
    (hlinks : ∀ ino, ino ≠ 1 → s'.Live ino →
      (s'.file ino).linkcount.toNat = Slots.count s'.dir ino) :
  Consistent lost s'
  := by
  rw [h.file_dir hp hroot hstep hdir] at hfile
  refine ⟨hcat, ?_, ?_, ?_, hdistinct, hnoRoot, hlinks⟩
  · rw [hfile]
    exact hdir.dvd
  · rw [hfile]
    exact hdir.le
  · have hroots := h.rootLinks
    rw [h.file_root hp hroot] at hroots
    rw [hfile]
    exact hroots

theorem dir_step (hstep : FileStep p s s') (hdir : s'.IsDir p) :
  s'.dir = s'.slots p
  := by
  rw [Fs.dir, h.file_dir hp hroot hstep hdir]
  rfl

/-- A step of the root directory that leaves its entries. -/
theorem dir_grown (hgrown : Grown p s s') :
  s'.dir = s.dir
  := by
  rw [h.dir_step hp hroot hgrown.toFileStep (hgrown.isDir (h.isDir hp hroot)), hgrown.slots,
    h.slots_eq hp hroot]

theorem live_grown (hgrown : Grown p s s') :
  s'.Live = s.Live
  := Fs.live_congr hgrown.resident (h.dir_grown hp hroot hgrown)

theorem grown (hgrown : Grown p s s') :
  Consistent lost s'
  := by
  have hdir := hgrown.isDir (h.isDir hp hroot)
  have hsame := h.live_grown hp hroot hgrown
  have hslots := h.dir_grown hp hroot hgrown
  apply h.of_dir hp hroot hgrown.toFileStep hdir rfl
  · rw [hsame]
    exact h.catalog_dir hp hgrown.toFileStep hdir
  · rw [hslots]
    exact h.distinct
  · rw [hslots]
    exact h.noRoot
  · intro i hi hl
    rw [hsame] at hl
    rw [hslots, h.catalog.file_fileStep hp hgrown.toFileStep hl (by rw [hroot]; exact hi)]
    exact h.links i hi hl

end Root

/-! The entries and the link count of a file change together -/

section Relink

variable {f : Inode → Inode} (h : Consistent lost s) (hp : p ∈ s.vnodes.guys)
  (hroot : (s.heap p).ino = 1) (hq : q ∈ s.vnodes.guys) (hne : (s.heap q).ino ≠ 1)
  (hstep : FileStep p s s₁) (hdir : s₁.IsDir p)
  (hf : f (s.heap q).i = { (s.heap q).i with linkcount := (f (s.heap q).i).linkcount })

include hroot hne in
theorem ne_of_ino :
  q ≠ p
  := by
  rintro rfl
  exact hne hroot

include h hroot hq hne hstep hf in
/-- The vnode of the file with its new link count. -/
theorem adjusted :
  Catalog.Adjusted (s₁.heap q) { s₁.heap q with i := f (s₁.heap q).i, dirty := true }
  := by
  rw [hstep.heap q (ne_of_ino hroot hne)]
  refine ⟨rfl, rfl, hf, h.catalog.refs q hq, h.catalog.opens q hq, ?_⟩
  intro hclean
  cases hclean

include h hp hroot hq hne hstep hdir hf

theorem catalog_relink :
  Catalog lost s.Live (s₁.updateInode q f)
  := by
  have hq₁ : q ∈ s₁.vnodes.guys := by
    rw [hstep.vnodes]
    exact hq
  exact (h.catalog_dir hp hstep hdir).update hq₁ (h.adjusted hroot hq hne hstep hf)

/-- The files after the entries and the link count of a file have changed. -/
theorem file_relink (j : ℕ) :
  (s₁.updateInode q f).file j
    = if j = (s.heap q).ino then { s₁.file j with linkcount := (f (s.heap q).i).linkcount }
      else s₁.file j
  := by
  have hq₁ : q ∈ s₁.vnodes.guys := by
    rw [hstep.vnodes]
    exact hq
  have hfile := (h.catalog_dir hp hstep hdir).file_update
    (f := fun sv => { sv with i := f sv.i, dirty := true }) hq₁
    (h.adjusted hroot hq hne hstep hf) j
  rwa [hstep.heap q (ne_of_ino hroot hne)] at hfile

theorem dir_relink :
  (s₁.updateInode q f).dir = s₁.slots p
  := by
  have hfile := h.file_relink hp hroot hq hne hstep hdir hf 1
  rw [if_neg hne.symm] at hfile
  rw [Fs.dir_congr hfile]
  exact h.dir_step hp hroot hstep hdir

/-- The other files, and the file but for its link count, are as they were. -/
theorem file_relink_of_live (hj : j ≠ 1) (hlive : s.Live j) :
  (s₁.updateInode q f).file j
    = { s.file j with linkcount :=
        if j = (s.heap q).ino then (f (s.heap q).i).linkcount else (s.file j).linkcount }
  := by
  have hsame := h.catalog.file_fileStep hp hstep hlive (by rw [hroot]; exact hj)
  rw [h.file_relink hp hroot hq hne hstep hdir hf, hsame]
  split
  · rfl
  · rfl

/-- The volume after the entries of the directory and the link count have changed alike. -/
theorem relink (hlive : (s₁.updateInode q f).Live = s.Live)
    (hdistinct : Slots.Distinct (s₁.slots p))
    (hnoRoot : ∀ x, (x, 1) ∉ Slots.entries (s₁.slots p))
    (hself : (f (s.heap q).i).linkcount.toNat = Slots.count (s₁.slots p) (s.heap q).ino)
    (hothers : ∀ i, i ≠ (s.heap q).ino → Slots.count (s₁.slots p) i = Slots.count s.dir i) :
  Consistent lost (s₁.updateInode q f)
  := by
  have hslots := h.dir_relink hp hroot hq hne hstep hdir hf
  have hfile := h.file_relink hp hroot hq hne hstep hdir hf 1
  rw [if_neg hne.symm] at hfile
  apply h.of_dir hp hroot hstep hdir hfile
  · rw [hlive]
    exact h.catalog_relink hp hroot hq hne hstep hdir hf
  · rw [hslots]
    exact hdistinct
  · rw [hslots]
    exact hnoRoot
  · intro i hi hl
    rw [hlive] at hl
    rw [h.file_relink_of_live hp hroot hq hne hstep hdir hf hi hl, hslots]
    by_cases hiq : i = (s.heap q).ino
    · subst hiq
      simpa only [if_true] using hself
    · simp only [if_neg hiq]
      rw [hothers i hiq]
      exact h.links i hi hl

omit hp hdir in
theorem resident_relink (j : ℕ) :
  (s₁.updateInode q f).Resident j ↔ s.Resident j
  := (Fs.resident_update (h.adjusted hroot hq hne hstep hf).ino j).trans (hstep.resident j)

end Relink

/-! An entry is made -/

section Linked

variable (h : Consistent lost s) (hp : p ∈ s.vnodes.guys) (hroot : (s.heap p).ino = 1)
  (hq : q ∈ s.vnodes.guys) (hne : (s.heap q).ino ≠ 1)
  (hl : Linked p s name (s.heap q).ino k s₁)

include h hp hroot hq hne hl

omit hq hne in
theorem slots_linked :
  s₁.slots p = Slots.put s.dir k (some (name.bytes, (s.heap q).ino))
  := by
  rw [hl.slots, h.slots_eq hp hroot]

omit hq hne in
theorem free_linked (e : List UInt8 × ℕ) :
  s.dir[k]? ≠ some (some e)
  := by
  have hfree := hl.free e
  rwa [h.slots_eq hp hroot] at hfree

theorem dir_linked :
  (s₁.updateInode q fun i => { i with linkcount := i.linkcount + 1 }).dir
    = Slots.put s.dir k (some (name.bytes, (s.heap q).ino))
  := by
  rw [h.dir_relink hp hroot hq hne hl.toFileStep hl.isDir rfl, h.slots_linked hp hroot hl]

theorem live_linked :
  (s₁.updateInode q fun i => { i with linkcount := i.linkcount + 1 }).Live = s.Live
  := by
  have hperm := Slots.entries_put_perm (a := (name.bytes, (s.heap q).ino))
    (h.free_linked hp hroot hl)
  rw [← h.dir_linked hp hroot hq hne hl] at hperm
  exact Fs.live_of_perm (h.resident_relink hroot hq hne hl.toFileStep rfl) hperm ⟨q, hq, rfl⟩

theorem linked :
  Consistent lost (s₁.updateInode q fun i => { i with linkcount := i.linkcount + 1 })
  := by
  have hfree := h.free_linked hp hroot hl
  have hslots := h.slots_linked hp hroot hl
  have hnone := hl.lookup
  rw [h.slots_eq hp hroot] at hnone
  apply h.relink hp hroot hq hne hl.toFileStep hl.isDir rfl (h.live_linked hp hroot hq hne hl)
  · rw [hslots]
    exact h.distinct.put hfree (Slots.lookup_eq_none.mp hnone)
  · intro x hx
    rw [hslots, (Slots.entries_put_perm hfree).mem_iff, List.mem_cons] at hx
    rcases hx with heq | hx
    · exact hne (Prod.mk.inj heq).2.symm
    · exact h.noRoot x hx
  · have hcount := h.linkcount_eq hq hne
    have hle := h.count_le (s.heap q).ino
    have hone : (1 : UInt16).toNat = 1 := rfl
    rw [hslots, Slots.count_put hfree, if_pos rfl, UInt16.toNat_add, hone, hcount]
    omega
  · intro i hi
    rw [hslots, Slots.count_put hfree, if_neg hi, Nat.add_zero]

end Linked

/-! An entry is cleared -/

section Unlinked

variable (h : Consistent lost s) (hp : p ∈ s.vnodes.guys) (hroot : (s.heap p).ino = 1)
  (hq : q ∈ s.vnodes.guys) (hk : s.dir[k]? = some (some (x, (s.heap q).ino)))
  (hu : Unlinked p s k s₁)

include h hk in
theorem ne_root_unlinked :
  (s.heap q).ino ≠ 1
  := h.ne_root (Slots.mem_entries.mpr (List.mem_of_getElem? hk))

include h hq hk in
/-- The file of an entry has links. -/
theorem linkcount_pos_unlinked :
  0 < (s.heap q).i.linkcount.toNat
  := by
  rw [h.linkcount_eq hq (h.ne_root_unlinked hk)]
  exact Slots.count_pos_iff.mpr ⟨x, Slots.mem_entries.mpr (List.mem_of_getElem? hk)⟩

include h hp hroot hq hk hu

theorem dir_unlinked :
  (s₁.updateInode q fun i => { i with linkcount := i.linkcount - 1 }).dir
    = Slots.put s.dir k none
  := by
  rw [h.dir_relink hp hroot hq (h.ne_root_unlinked hk) hu.toFileStep hu.isDir rfl, hu.slots,
    h.slots_eq hp hroot]

theorem live_unlinked :
  (s₁.updateInode q fun i => { i with linkcount := i.linkcount - 1 }).Live = s.Live
  := by
  have hres : ∀ j, (s₁.updateInode q fun i => { i with linkcount := i.linkcount - 1 }).Resident j
      ↔ s.Resident j := h.resident_relink hroot hq (h.ne_root_unlinked hk) hu.toFileStep rfl
  have hperm := Slots.entries_clear_perm hk
  rw [← h.dir_unlinked hp hroot hq hk hu] at hperm
  exact (Fs.live_of_perm (fun j => (hres j).symm) hperm ((hres _).mpr ⟨q, hq, rfl⟩)).symm

theorem unlinked :
  Consistent lost (s₁.updateInode q fun i => { i with linkcount := i.linkcount - 1 })
  := by
  have hne := h.ne_root_unlinked hk
  have hslots : s₁.slots p = Slots.put s.dir k none := by rw [hu.slots, h.slots_eq hp hroot]
  apply h.relink hp hroot hq hne hu.toFileStep hu.isDir rfl (h.live_unlinked hp hroot hq hk hu)
  · rw [hslots]
    exact h.distinct.clear hk
  · intro y hy
    apply h.noRoot y
    rw [(Slots.entries_clear_perm hk).mem_iff]
    rw [hslots] at hy
    exact List.mem_cons_of_mem _ hy
  · have hcount := h.linkcount_eq hq hne
    have hclear := Slots.count_clear hk (s.heap q).ino
    have hpos := h.linkcount_pos_unlinked hq hk
    have hone : (1 : UInt16) ≤ (s.heap q).i.linkcount := hpos
    have hnat : (1 : UInt16).toNat = 1 := rfl
    rw [if_pos rfl] at hclear
    rw [hslots, UInt16.toNat_sub_of_le _ _ hone, hnat]
    omega
  · intro i hi
    have hclear := Slots.count_clear hk i
    rw [if_neg hi, Nat.add_zero] at hclear
    rw [hslots]
    exact hclear.symm

end Unlinked

/-! ### Steps that are not seen -/

/-! Memory is refused, or a block is lost -/

theorem kmallocs (h : Consistent lost s) (ks : List Bool) :
  Consistent lost { s with kmallocs := ks }
  := { h with catalog := h.catalog.kmallocs ks }

section Allocated

variable (h : Consistent lost s) (hb : b < s.nblocks) (hfree : ¬ s.Used b)

include h hfree

theorem file_allocated (hlive : s.Live j) :
  (s.allocated b).file j = s.file j
  := (h.catalog.same_allocated hfree).file hlive

theorem live_allocated :
  (s.allocated b).Live = s.Live
  := Fs.live_congr (fun _ => Iff.rfl) (Fs.dir_congr (h.file_allocated hfree s.live_root))

include hb in
theorem allocated :
  Consistent (fun c => lost c ∨ c = b) (s.allocated b)
  := h.of_same (h.live_allocated hfree) (h.catalog.allocated hb hfree)
    fun _ => h.file_allocated hfree

end Allocated

/-! An inode is written to the disk -/

section Flushed

variable (h : Consistent lost s) (hflush : Flushed lost s.Live p s s')

include hflush in
theorem live_flushed :
  s'.Live = s.Live
  := by
  apply Fs.live_congr
  · apply Fs.resident_congr hflush.vnodes
    intro q _
    by_cases hqp : q = p
    · rw [hqp, hflush.self]
    · rw [hflush.others q hqp]
  · exact Fs.dir_congr (hflush.toSame.file s.live_root)

include h hflush in
theorem flushed :
  Consistent lost s'
  := h.of_same (live_flushed hflush) hflush.catalog fun _ => hflush.toSame.file

end Flushed

end Consistent

end Sfs
