import AzureSpider.Sfs.Vnode
import Mathlib.Data.List.Find

/-!
# The inodes of a volume

An inode is in memory, if its vnode is in the table, or on the disk.  `Catalog lost L s` states
that the volume `s` is in order for the inodes with the numbers in `L`: the blocks in use are
the reserved ones, the ones in `lost` and the ones that the inodes hold, each held once, and the
table has at most one vnode for each inode.  What can be seen of a file does not depend on
where its inode is.

`Catalog.fileStep` is the frame rule of the volume: a step of one file keeps the catalog and all
other files.
-/

open Machine

namespace Sfs

/-- What can be seen of a file. -/
structure FileView where
  size : ℕ
  type : UInt16
  linkcount : UInt16
  bytes : ℕ → UInt8
  /-- The blocks that it holds, its inode apart. -/
  blocks : ℕ → ℕ

/-- What can be seen of the file with an inode. -/
def Inode.view (d : ℕ → Block) (i : Inode) : FileView :=
  ⟨i.size.toNat, i.type, i.linkcount, i.byteAt d, i.ptr d⟩

theorem Inode.view_of_disk {d d' : ℕ → Block} {i : Inode}
    (h : ∀ k, i.ptr d k ≠ 0 → d' (i.ptr d k) = d (i.ptr d k)) :
  i.view d' = i.view d
  := by
  have hptr : i.ptr d' = i.ptr d := funext (Inode.ptr_of_disk h)
  rw [Inode.view, Inode.view, Inode.byteAt_of_disk h, hptr]

namespace Fs

/-- The file with an inode number. -/
def file (s : Fs) (ino : ℕ) : FileView := (s.inodeOf ino).view s.disk

/-- The inode with a number is in memory. -/
def Resident (s : Fs) (ino : ℕ) : Prop := ∃ p ∈ s.vnodes.guys, (s.heap p).ino = ino

/-- The blocks that belong to no inode: the superblock, the free map, the bits that belong to no
block, and the blocks that are lost. -/
def Fixed (s : Fs) (lost : ℕ → Prop) (b : ℕ) : Prop :=
  b = 0 ∨ (2 ≤ b ∧ b < 2 + bitBlocks s.nblocks) ∨ (s.nblocks ≤ b ∧ b < s.freemap.nbits) ∨ lost b

open Classical in
/-- The blocks of the inodes with the numbers in `L`. -/
noncomputable def cells (s : Fs) (L : ℕ → Prop) (ino k : ℕ) : ℕ :=
  if L ino then (s.inodeOf ino).cell s.disk ino k else 0

end Fs

/-- The table of the vnodes is in order, with vnodes of inodes with numbers in `L`. -/
structure VnodesOk (L : ℕ → Prop) (s : Fs) : Prop where
  nodup : s.vnodes.guys.Nodup
  inos : ∀ p ∈ s.vnodes.guys, ∀ q ∈ s.vnodes.guys, (s.heap p).ino = (s.heap q).ino → p = q
  lt_next : ∀ p ∈ s.vnodes.guys, p < s.next
  loaded : ∀ p ∈ s.vnodes.guys, L (s.heap p).ino
  clean : ∀ p ∈ s.vnodes.guys, (s.heap p).dirty = false →
    Inode.decode (s.disk (s.heap p).ino) = (s.heap p).i
  ops : ∀ p ∈ s.vnodes.guys,
    (s.heap p).ops = some (if (s.heap p).ino = 1 then .dirops else .fileops)
  refs : ∀ p ∈ s.vnodes.guys, 0 < (s.heap p).refcount
  opens : ∀ p ∈ s.vnodes.guys, (s.heap p).opencount ≤ (s.heap p).refcount

/-- The volume is in order for the inodes with the numbers in `L`. -/
structure Catalog (lost L : ℕ → Prop) (s : Fs) : Prop extends VnodesOk L s where
  sound : s.Sound
  nbits : s.freemap.nbits = bitmapSize s.nblocks
  ledger : Ledger (s.Fixed lost) s.Used (s.cells L)
  root : L 1
  zero : ¬ L 0
  type : ∀ ino, L ino → (s.inodeOf ino).type = if ino = 1 then typeDir else typeFile
  size : ∀ ino, L ino → (s.inodeOf ino).size.toNat < 2 ^ 31

/-! ### Where the inodes are -/

section Inodes

variable {s s' : Fs} {p q : Ptr} {ino : ℕ}

/-- An inode whose vnode is in the table is in memory. -/
theorem inodeOf_loaded
    (hinos : ∀ p ∈ s.vnodes.guys, ∀ q ∈ s.vnodes.guys, (s.heap p).ino = (s.heap q).ino → p = q)
    (hp : p ∈ s.vnodes.guys) :
  s.inodeOf (s.heap p).ino = (s.heap p).i
  := by
  unfold Fs.inodeOf
  split
  · next q hfind =>
      have hq := List.mem_of_find?_eq_some hfind
      have hino : (s.heap q).ino = (s.heap p).ino := by simpa using List.find?_some hfind
      rw [hinos q hq p hp hino]
  · next hfind =>
      rw [List.find?_eq_none] at hfind
      exact absurd (decide_eq_true rfl) (hfind p hp)

theorem inodeOf_of_not_resident (h : ¬ s.Resident ino) :
  s.inodeOf ino = Inode.decode (s.disk ino)
  := by
  unfold Fs.inodeOf
  split
  · next q hfind =>
      have hq := List.mem_of_find?_eq_some hfind
      exact absurd ⟨q, hq, by simpa using List.find?_some hfind⟩ h
  · rfl

variable (hv : s'.vnodes = s.vnodes)
  (hino : ∀ q ∈ s.vnodes.guys, (s'.heap q).ino = (s.heap q).ino)

include hv hino

theorem Fs.resident_congr (j : ℕ) :
  s'.Resident j ↔ s.Resident j
  := by
  unfold Fs.Resident
  rw [hv]
  apply exists_congr
  intro q
  apply and_congr_right
  intro hq
  rw [hino q hq]

/-- An inode depends on the vnode that has its number, or else on the disk. -/
theorem inodeOf_congr
    (hi : ∀ q ∈ s.vnodes.guys, (s.heap q).ino = ino → (s'.heap q).i = (s.heap q).i)
    (hdisk : ¬ s.Resident ino → s'.disk ino = s.disk ino) :
  s'.inodeOf ino = s.inodeOf ino
  := by
  by_cases hres : s.Resident ino
  · have hfind : s'.vnodes.guys.find? (fun q => (s'.heap q).ino = ino)
        = s.vnodes.guys.find? fun q => (s.heap q).ino = ino := by
      rw [hv]
      apply List.find?_congr
      intro q hq
      rw [hino q hq]
    rw [Fs.inodeOf, Fs.inodeOf, hfind]
    split
    · next q hq => exact hi q (List.mem_of_find?_eq_some hq) (by simpa using List.find?_some hq)
    · next hnone =>
      obtain ⟨q, hq, hqj⟩ := hres
      exact absurd (decide_eq_true hqj) (List.find?_eq_none.mp hnone q hq)
  · have hres' := mt (Fs.resident_congr hv hino ino).mp hres
    rw [inodeOf_of_not_resident hres', inodeOf_of_not_resident hres, hdisk hres]

/-- The table is in order after a change of one vnode that leaves its number and operations. -/
theorem VnodesOk.change {L : ℕ → Prop} (h : VnodesOk L s) (hp : p ∈ s.vnodes.guys)
    (hnext : s'.next = s.next) (hheap : ∀ q, q ≠ p → s'.heap q = s.heap q)
    (hops : (s'.heap p).ops = (s.heap p).ops) (hrefs : 0 < (s'.heap p).refcount)
    (hopens : (s'.heap p).opencount ≤ (s'.heap p).refcount)
    (hclean : ∀ q ∈ s.vnodes.guys, (s'.heap q).dirty = false →
      Inode.decode (s'.disk (s.heap q).ino) = (s'.heap q).i) :
  VnodesOk L s'
  := by
  -- what holds of the vnode after the change holds of all vnodes
  have hall : ∀ P : SfsVnode → Prop, (∀ q ∈ s.vnodes.guys, P (s.heap q)) → P (s'.heap p) →
      ∀ q ∈ s.vnodes.guys, P (s'.heap q) := by
    intro P hothers hself q hq
    by_cases hqp : q = p
    · rw [hqp]
      exact hself
    · rw [hheap q hqp]
      exact hothers q hq
  constructor
  all_goals rw [hv]
  · exact h.nodup
  · intro a ha b hb
    rw [hino a ha, hino b hb]
    exact h.inos a ha b hb
  · rw [hnext]
    exact h.lt_next
  · intro q hq
    rw [hino q hq]
    exact h.loaded q hq
  · intro q hq
    rw [hino q hq]
    exact hclean q hq
  · apply hall (fun v => v.ops = some (if v.ino = 1 then .dirops else .fileops)) h.ops
    rw [hops, hino p hp]
    exact h.ops p hp
  · exact hall (fun v => 0 < v.refcount) h.refs hrefs
  · exact hall (fun v => v.opencount ≤ v.refcount) h.opens hopens

end Inodes

/-- A step of a file keeps the numbers of the inodes. -/
theorem FileStep.ino_eq {p : Ptr} {s s' : Fs} (h : FileStep p s s') (q : Ptr) :
  (s'.heap q).ino = (s.heap q).ino
  := by
  by_cases hq : q = p
  · rw [hq, h.kept.ino]
  · rw [h.heap q hq]

namespace Catalog

variable {lost L : ℕ → Prop} {s s' : Fs} {p q : Ptr} {ino j k b : ℕ}

theorem inodeOf (h : Catalog lost L s) (hp : p ∈ s.vnodes.guys) :
  s.inodeOf (s.heap p).ino = (s.heap p).i
  := inodeOf_loaded h.inos hp

/-- The file of a vnode in the table. -/
theorem file_eq (h : Catalog lost L s) (hp : p ∈ s.vnodes.guys) :
  s.file (s.heap p).ino
    = ⟨s.size p, (s.heap p).i.type, (s.heap p).i.linkcount, s.byteAt p, s.ptr p⟩
  := by
  rw [Fs.file, h.inodeOf hp]
  rfl

theorem cells_of_mem (hL : L ino) :
  s.cells L ino = (s.inodeOf ino).cell s.disk ino
  := by
  funext k
  exact if_pos hL

theorem cells_vnode (h : Catalog lost L s) (hp : p ∈ s.vnodes.guys) :
  s.cells L (s.heap p).ino = s.cell p
  := by
  rw [cells_of_mem (h.loaded p hp), h.inodeOf hp]
  rfl

theorem ne_zero (h : Catalog lost L s) (hL : L ino) :
  ino ≠ 0
  := by
  rintro rfl
  exact h.zero hL

theorem cells_ino (hL : L ino) :
  s.cells L ino 144 = ino
  := by
  rw [cells_of_mem hL]
  rfl

theorem cells_eq_ptr (hL : L ino) (hne : (s.inodeOf ino).ptr s.disk k ≠ 0) :
  s.cells L ino k = (s.inodeOf ino).ptr s.disk k
  := by
  rw [cells_of_mem hL, Inode.cell_of_lt (Inode.lt_of_ptr_ne_zero hne)]

section

variable (h : Catalog lost L s)
include h

/-- An inode is in a block that is in use. -/
theorem used (hL : L ino) :
  s.Used ino
  := by
  have hcell := cells_ino (s := s) hL
  have hused := (h.ledger.account ino).used 144 (by rw [hcell]; exact h.ne_zero hL)
  rwa [hcell] at hused

/-- The blocks of the inodes are blocks of the volume. -/
theorem cells_lt (ino k : ℕ) :
  s.cells L ino k < s.nblocks
  := by
  have hpos : 0 < s.nblocks := by
    by_contra hz
    have hused := h.used h.root
    have hbits := h.sound.lt_of_used hused
    have hcell := cells_ino (s := s) h.root
    have hapart := h.ledger.apart 1 144 (by rw [hcell]; decide)
    rw [hcell] at hapart
    exact hapart (.inr (.inr (.inl ⟨by omega, hbits⟩)))
  by_cases hz : s.cells L ino k = 0
  · rw [hz]
    exact hpos
  · by_contra hge
    have hused := (h.ledger.account ino).used k hz
    apply h.ledger.apart ino k hz
    exact .inr (.inr (.inl ⟨Nat.not_lt.mp hge, h.sound.lt_of_used hused⟩))

theorem ino_lt (hL : L ino) :
  ino < s.nblocks
  := by
  have hlt := h.cells_lt ino 144
  rwa [cells_ino hL] at hlt

/-- The vnodes in the table are the vnodes of files that hold their blocks. -/
theorem fileOk (hp : p ∈ s.vnodes.guys) :
  s.FileOk p
  := by
  have hcells := h.cells_vnode hp
  refine ⟨?_, ?_, h.ne_zero (h.loaded p hp)⟩
  · rw [← hcells]
    exact h.ledger.account _
  · intro k
    rw [← hcells]
    exact h.cells_lt _ k

/-- The blocks of an inode are foreign to the file of another one. -/
theorem foreign (hp : p ∈ s.vnodes.guys) (hj : j ≠ (s.heap p).ino) (hne : s.cells L j k ≠ 0) :
  s.Foreign p (s.cells L j k)
  := by
  have hforeign := h.ledger.foreign_other hj hne
  rwa [h.cells_vnode hp] at hforeign

theorem foreign_ino (hp : p ∈ s.vnodes.guys) (hL : L j) (hj : j ≠ (s.heap p).ino) :
  s.Foreign p j
  := by
  have hforeign := h.foreign hp hj (k := 144)
  rw [cells_ino hL] at hforeign
  exact hforeign (h.ne_zero hL)

theorem foreign_ptr (hp : p ∈ s.vnodes.guys) (hL : L j) (hj : j ≠ (s.heap p).ino)
    (hne : (s.inodeOf j).ptr s.disk k ≠ 0) :
  s.Foreign p ((s.inodeOf j).ptr s.disk k)
  := by
  have hcell := cells_eq_ptr hL hne
  rw [← hcell] at hne ⊢
  exact h.foreign hp hj hne

end

/-! ### A step of one file -/

section FileStep

variable (h : Catalog lost L s) (hp : p ∈ s.vnodes.guys) (hstep : FileStep p s s')

include h hp hstep

omit hp in
theorem inos_fileStep :
  ∀ a ∈ s'.vnodes.guys, ∀ b ∈ s'.vnodes.guys, (s'.heap a).ino = (s'.heap b).ino → a = b
  := by
  rw [hstep.vnodes]
  intro a ha b hb
  rw [hstep.ino_eq, hstep.ino_eq]
  exact h.inos a ha b hb

/-- A step of one file leaves the inodes of the other files. -/
theorem inodeOf_fileStep (hL : L j) (hj : j ≠ (s.heap p).ino) :
  s'.inodeOf j = s.inodeOf j
  := by
  apply inodeOf_congr hstep.vnodes fun q _ => hstep.ino_eq q
  · rintro q - rfl
    rw [hstep.heap]
    rintro rfl
    exact hj rfl
  · exact fun _ => hstep.disk j (h.foreign_ino hp hL hj)

theorem inodeOf_fileStep_self :
  s'.inodeOf (s.heap p).ino = (s'.heap p).i
  := by
  rw [← hstep.ino_eq p]
  apply inodeOf_loaded (h.inos_fileStep hstep)
  rw [hstep.vnodes]
  exact hp

theorem ptr_fileStep (hL : L j) (hj : j ≠ (s.heap p).ino) (k : ℕ) :
  (s'.inodeOf j).ptr s'.disk k = (s.inodeOf j).ptr s.disk k
  := by
  rw [h.inodeOf_fileStep hp hstep hL hj]
  apply Inode.ptr_of_disk
  intro l hne
  exact hstep.disk _ (h.foreign_ptr hp hL hj hne)

/-- A step of one file leaves the other files. -/
theorem file_fileStep (hL : L j) (hj : j ≠ (s.heap p).ino) :
  s'.file j = s.file j
  := by
  rw [Fs.file, Fs.file, h.inodeOf_fileStep hp hstep hL hj]
  apply Inode.view_of_disk
  intro k hne
  exact hstep.disk _ (h.foreign_ptr hp hL hj hne)

/-- A step of one file keeps the table in order. -/
theorem vnodesOk_fileStep :
  VnodesOk L s'
  := by
  apply h.toVnodesOk.change hstep.vnodes (fun q _ => hstep.ino_eq q) hp hstep.next hstep.heap
    hstep.kept.ops
  · rw [hstep.kept.refcount]
    exact h.refs p hp
  · rw [hstep.kept.refcount, hstep.kept.opencount]
    exact h.opens p hp
  · intro q hq hclean
    by_cases hqp : q = p
    · subst hqp
      obtain ⟨hold, hi⟩ := hstep.kept.clean hclean
      rw [hi, hstep.inode]
      exact h.clean q hq hold
    · have hne : (s.heap q).ino ≠ (s.heap p).ino := fun heq => hqp (h.inos q hq p hp heq)
      rw [hstep.heap q hqp] at hclean ⊢
      rw [hstep.disk _ (h.foreign_ino hp (h.loaded q hq) hne)]
      exact h.clean q hq hclean

/-- A step of one file keeps the catalog. -/
theorem fileStep (hsize : s'.size p < 2 ^ 31) :
  Catalog lost L s'
  := by
  have hself := h.inodeOf_fileStep_self hp hstep
  have hLp := h.loaded p hp
  have hcells : ∀ j, j ≠ (s.heap p).ino → s'.cells L j = s.cells L j := by
    intro j hj
    by_cases hL : L j
    · rw [cells_of_mem hL, cells_of_mem hL]
      funext k
      rw [Inode.cell, Inode.cell, h.ptr_fileStep hp hstep hL hj]
    · funext k
      exact (if_neg hL).trans (if_neg hL).symm
  have hcell : s'.cells L (s.heap p).ino = s'.cell p := by
    rw [cells_of_mem hLp, hself, ← hstep.ino_eq p]
    rfl
  have hfixed : s'.Fixed lost = s.Fixed lost := by
    funext b
    rw [Fs.Fixed, Fs.Fixed, hstep.nblocks, hstep.nbits]
  refine ⟨h.vnodesOk_fileStep hp hstep, hstep.sound, ?_, ?_, h.root, h.zero, ?_, ?_⟩
  · rw [hstep.nbits, hstep.nblocks]
    exact h.nbits
  · rw [hfixed]
    apply h.ledger.splice (s.heap p).ino hcells
    · rw [hcell]
      exact hstep.ok.account
    · intro b
      rw [hcell, h.cells_vnode hp]
      exact hstep.foreign b
  · intro j hL
    by_cases hj : j = (s.heap p).ino
    · subst hj
      rw [hself, hstep.kept.type, ← h.inodeOf hp]
      exact h.type _ hL
    · rw [h.inodeOf_fileStep hp hstep hL hj]
      exact h.type j hL
  · intro j hL
    by_cases hj : j = (s.heap p).ino
    · subst hj
      rw [hself]
      exact hsize
    · rw [h.inodeOf_fileStep hp hstep hL hj]
      exact h.size j hL

end FileStep

/-! ### A change of the counts -/

/-- A vnode with other counts of links, references and open files. -/
structure Adjusted (v v' : SfsVnode) : Prop where
  ops : v'.ops = v.ops
  ino : v'.ino = v.ino
  inode : v'.i = { v.i with linkcount := v'.i.linkcount }
  refs : 0 < v'.refcount
  opens : v'.opencount ≤ v'.refcount
  clean : v'.dirty = false → v.dirty = false ∧ v'.i = v.i

section Update

variable {f : SfsVnode → SfsVnode} (h : Catalog lost L s) (hp : p ∈ s.vnodes.guys)
  (hf : Adjusted (s.heap p) (f (s.heap p)))

include hf in
theorem ino_update (q : Ptr) :
  ((s.update p f).heap q).ino = (s.heap q).ino
  := by
  rw [Fs.heap_update]
  split_ifs with hq
  · rw [hq, hf.ino]
  · rfl

include h hf in
theorem inos_update :
  ∀ a ∈ s.vnodes.guys, ∀ b ∈ s.vnodes.guys,
    ((s.update p f).heap a).ino = ((s.update p f).heap b).ino → a = b
  := by
  intro a ha b hb
  rw [ino_update hf, ino_update hf]
  exact h.inos a ha b hb

include h hp hf

theorem inodeOf_update_self :
  (s.update p f).inodeOf (s.heap p).ino = (f (s.heap p)).i
  := by
  have hloaded := inodeOf_loaded (s := s.update p f) (h.inos_update hf) (p := p) hp
  rwa [Fs.heap_update_self, hf.ino] at hloaded

omit h hp in
theorem inodeOf_update (hj : j ≠ (s.heap p).ino) :
  (s.update p f).inodeOf j = s.inodeOf j
  := by
  have hv : (s.update p f).vnodes = s.vnodes := rfl
  apply inodeOf_congr hv fun q _ => ino_update hf q
  · rintro q - rfl
    rw [Fs.heap_update, if_neg]
    rintro rfl
    exact hj rfl
  · exact fun _ => rfl

theorem ptr_update (j k : ℕ) :
  ((s.update p f).inodeOf j).ptr s.disk k = (s.inodeOf j).ptr s.disk k
  := by
  by_cases hj : j = (s.heap p).ino
  · subst hj
    rw [h.inodeOf_update_self hp hf, h.inodeOf hp, hf.inode]
    exact Inode.ptr_congr rfl rfl (fun _ => rfl) k
  · rw [inodeOf_update hf hj]

/-- The files after a change of the counts. -/
theorem file_update (j : ℕ) :
  (s.update p f).file j
    = if j = (s.heap p).ino then { s.file j with linkcount := (f (s.heap p)).i.linkcount }
      else s.file j
  := by
  split_ifs with hj
  · subst hj
    have hptr : (f (s.heap p)).i.ptr s.disk = (s.heap p).i.ptr s.disk := by
      funext k
      have hk := h.ptr_update hp hf (s.heap p).ino k
      rwa [h.inodeOf_update_self hp hf, h.inodeOf hp] at hk
    have hbytes : (f (s.heap p)).i.byteAt s.disk = (s.heap p).i.byteAt s.disk := by
      funext pos
      apply Inode.byteAt_congr
      · rw [hptr]
      · intro _ _
        rfl
    have hsize : (f (s.heap p)).i.size = (s.heap p).i.size := by
      rw [hf.inode]
    have htype : (f (s.heap p)).i.type = (s.heap p).i.type := by
      rw [hf.inode]
    rw [Fs.file, Fs.file, h.inodeOf_update_self hp hf, h.inodeOf hp, Inode.view, Inode.view,
      Fs.disk_update, hbytes, hptr, hsize, htype]
  · rw [Fs.file, Fs.file, inodeOf_update hf hj]
    rfl

/-- A change of the counts keeps the table in order. -/
theorem vnodesOk_update :
  VnodesOk L (s.update p f)
  := by
  have hv : (s.update p f).vnodes = s.vnodes := rfl
  have hself := Fs.heap_update_self (s := s) (p := p) f
  apply h.toVnodesOk.change hv (fun q _ => ino_update hf q) hp rfl (fun q hqp => if_neg hqp)
  · rw [hself, hf.ops]
  · rw [hself]
    exact hf.refs
  · rw [hself]
    exact hf.opens
  · intro q hq hclean
    by_cases hqp : q = p
    · subst hqp
      rw [hself] at hclean ⊢
      obtain ⟨hold, hi⟩ := hf.clean hclean
      rw [hi]
      exact h.clean q hq hold
    · rw [Fs.heap_update, if_neg hqp] at hclean ⊢
      exact h.clean q hq hclean

/-- A change of the counts keeps the catalog. -/
theorem update :
  Catalog lost L (s.update p f)
  := by
  have hcells : (s.update p f).cells L = s.cells L := by
    funext j k
    by_cases hL : L j
    · rw [cells_of_mem hL, cells_of_mem hL, Inode.cell, Inode.cell, Fs.disk_update,
        h.ptr_update hp hf]
    · exact (if_neg hL).trans (if_neg hL).symm
  refine ⟨h.vnodesOk_update hp hf, h.sound.update p f, h.nbits, ?_, h.root, h.zero, ?_, ?_⟩
  · rw [hcells]
    exact h.ledger
  · intro j hL
    by_cases hj : j = (s.heap p).ino
    · subst hj
      rw [h.inodeOf_update_self hp hf, hf.inode, ← h.inodeOf hp]
      exact h.type _ hL
    · rw [inodeOf_update hf hj]
      exact h.type j hL
  · intro j hL
    by_cases hj : j = (s.heap p).ino
    · subst hj
      rw [h.inodeOf_update_self hp hf, hf.inode, ← h.inodeOf hp]
      exact h.size _ hL
    · rw [inodeOf_update hf hj]
      exact h.size j hL

end Update

end Catalog

end Sfs
