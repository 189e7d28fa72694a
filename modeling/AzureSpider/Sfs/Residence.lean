import AzureSpider.Sfs.Catalog

/-!
# Inodes that come and go

How an inode is loaded and reclaimed.  A vnode is made for an inode that is on the disk, or for
a block that was just allocated; it is reclaimed when its last reference is dropped, and its
blocks are given back if it has no links then.
-/

open Machine

namespace Sfs

/-- All vnodes but `p` are as they were. -/
structure SameVnodes (p : Ptr) (s s' : Fs) : Prop where
  mem : ∀ q, q ≠ p → (q ∈ s'.vnodes.guys ↔ q ∈ s.vnodes.guys)
  heap : ∀ q ∈ s.vnodes.guys, q ≠ p → s'.heap q = s.heap q

/-- The volume with a new vnode. -/
def Fs.load (s : Fs) (vnodes : Table Ptr) (sv : SfsVnode) : Fs :=
  { s with
    vnodes := vnodes
    heap := fun q => if q = s.next then sv else s.heap q
    next := s.next + 1 }

/-- The volume without a vnode, which is at an index of the table. -/
def Fs.evict (s : Fs) (ix : ℕ) (p : Ptr) : Fs :=
  ({ s with vnodes := s.vnodes.remove ix } : Fs).update p fun vn =>
    { vn with ops := none, refcount := 0, opencount := 0 }

/-- The volume after the inode of a vnode is written to the disk. -/
def Fs.flushed (s : Fs) (p : Ptr) : Fs :=
  (s.write (s.heap p).ino (s.heap p).i.encode).update p fun vn => { vn with dirty := false }

/-! ### The table -/

namespace VnodesOk

variable {L L' : ℕ → Prop} {s s' : Fs} {p q : Ptr} {t : Table Ptr} {sv : SfsVnode} {ix j : ℕ}

/-- A table with some of the vnodes. -/
theorem mono (h : VnodesOk L s) (hnodup : s'.vnodes.guys.Nodup) (hnext : s.next ≤ s'.next)
    (hsub : ∀ q ∈ s'.vnodes.guys, q ∈ s.vnodes.guys ∧ s'.heap q = s.heap q
      ∧ L' (s.heap q).ino ∧ s'.disk (s.heap q).ino = s.disk (s.heap q).ino) :
  VnodesOk L' s'
  := by
  constructor
  · exact hnodup
  · intro a ha b hb
    obtain ⟨ha', heqa, -⟩ := hsub a ha
    obtain ⟨hb', heqb, -⟩ := hsub b hb
    rw [heqa, heqb]
    exact h.inos a ha' b hb'
  · intro q hq
    exact Nat.lt_of_lt_of_le (h.lt_next q (hsub q hq).1) hnext
  · intro q hq
    obtain ⟨-, heq, hL, -⟩ := hsub q hq
    rw [heq]
    exact hL
  · intro q hq
    obtain ⟨hq', heq, -, hdisk⟩ := hsub q hq
    rw [heq, hdisk]
    exact h.clean q hq'
  · intro q hq
    obtain ⟨hq', heq, -⟩ := hsub q hq
    rw [heq]
    exact h.ops q hq'
  · intro q hq
    obtain ⟨hq', heq, -⟩ := hsub q hq
    rw [heq]
    exact h.refs q hq'
  · intro q hq
    obtain ⟨hq', heq, -⟩ := hsub q hq
    rw [heq]
    exact h.opens q hq'

/-! A new vnode -/

section Load

theorem heap_load_next (s : Fs) (t : Table Ptr) (sv : SfsVnode) :
  (s.load t sv).heap s.next = sv
  := if_pos rfl

theorem heap_load (h : VnodesOk L s) (hq : q ∈ s.vnodes.guys) :
  (s.load t sv).heap q = s.heap q
  := if_neg (Nat.ne_of_lt (h.lt_next q hq))

theorem mem_load (ht : t.guys = s.vnodes.guys ++ [s.next]) :
  q ∈ (s.load t sv).vnodes.guys ↔ q ∈ s.vnodes.guys ∨ q = s.next
  := by
  have hguys : (s.load t sv).vnodes.guys = t.guys := rfl
  rw [hguys, ht, List.mem_append, List.mem_singleton]

/-- A vnode is added to the table for an inode that is not in memory. -/
theorem load (h : VnodesOk L s) (ht : t.guys = s.vnodes.guys ++ [s.next])
    (hL : ∀ j, L j → L' j) (hres : ¬ s.Resident sv.ino) (hino : L' sv.ino)
    (hclean : sv.dirty = false → Inode.decode (s.disk sv.ino) = sv.i)
    (hops : sv.ops = some (if sv.ino = 1 then .dirops else .fileops)) (hrefs : 0 < sv.refcount)
    (hopens : sv.opencount ≤ sv.refcount) :
  VnodesOk L' (s.load t sv)
  := by
  have hnew : s.next ∉ s.vnodes.guys := fun hmem => Nat.lt_irrefl _ (h.lt_next _ hmem)
  -- what holds of the new vnode holds of all vnodes
  have hall : ∀ P : SfsVnode → Prop, (∀ q ∈ s.vnodes.guys, P (s.heap q)) → P sv →
      ∀ q ∈ (s.load t sv).vnodes.guys, P ((s.load t sv).heap q) := by
    intro P hothers hself q hq
    rcases (mem_load ht).mp hq with hq | rfl
    · rw [h.heap_load hq]
      exact hothers q hq
    · rw [heap_load_next]
      exact hself
  constructor
  · change t.guys.Nodup
    rw [ht]
    apply List.Nodup.append h.nodup (List.nodup_singleton _)
    intro q hq hq'
    rw [List.mem_singleton.mp hq'] at hq
    exact hnew hq
  · intro a ha b hb
    rcases (mem_load ht).mp ha with ha | rfl
    · rcases (mem_load ht).mp hb with hb | rfl
      · rw [h.heap_load ha, h.heap_load hb]
        exact h.inos a ha b hb
      · rw [h.heap_load ha, heap_load_next]
        intro heq
        exact absurd ⟨a, ha, heq⟩ hres
    · rcases (mem_load ht).mp hb with hb | rfl
      · rw [h.heap_load hb, heap_load_next]
        intro heq
        exact absurd ⟨b, hb, heq.symm⟩ hres
      · intro _
        rfl
  · intro q hq
    rcases (mem_load ht).mp hq with hq | rfl
    · exact Nat.lt_succ_of_lt (h.lt_next q hq)
    · exact Nat.lt_succ_self _
  · apply hall (fun v => L' v.ino)
    · intro q hq
      exact hL _ (h.loaded q hq)
    · exact hino
  · exact hall (fun v => v.dirty = false → Inode.decode (s.disk v.ino) = v.i) h.clean hclean
  · exact hall (fun v => v.ops = some (if v.ino = 1 then .dirops else .fileops)) h.ops hops
  · exact hall (fun v => 0 < v.refcount) h.refs hrefs
  · exact hall (fun v => v.opencount ≤ v.refcount) h.opens hopens

/-- The inodes after a vnode is added to the table. -/
theorem inodeOf_load (h : VnodesOk L s) (hload : VnodesOk L' (s.load t sv))
    (ht : t.guys = s.vnodes.guys ++ [s.next]) (j : ℕ) :
  (s.load t sv).inodeOf j = if j = sv.ino then sv.i else s.inodeOf j
  := by
  split_ifs with hj
  · have hloaded := inodeOf_loaded hload.inos ((mem_load ht).mpr (.inr rfl))
    rw [heap_load_next] at hloaded
    rw [hj, hloaded]
  · by_cases hres : s.Resident j
    · obtain ⟨q, hq, rfl⟩ := hres
      have hloaded := inodeOf_loaded hload.inos ((mem_load ht).mpr (.inl hq))
      rw [h.heap_load hq] at hloaded
      rw [hloaded, inodeOf_loaded h.inos hq]
    · have hres' : ¬ (s.load t sv).Resident j := by
        rintro ⟨q, hq, hqj⟩
        rcases (mem_load ht).mp hq with hq | rfl
        · rw [h.heap_load hq] at hqj
          exact hres ⟨q, hq, hqj⟩
        · rw [heap_load_next] at hqj
          exact hj hqj.symm
      rw [inodeOf_of_not_resident hres', inodeOf_of_not_resident hres]
      rfl

theorem sameVnodes_load (h : VnodesOk L s) (ht : t.guys = s.vnodes.guys ++ [s.next]) :
  SameVnodes s.next s (s.load t sv)
  := by
  constructor
  · intro q hq
    rw [mem_load ht]
    simp [hq]
  · intro q hq _
    exact h.heap_load hq

end Load

/-! A vnode leaves the table -/

section Evict

theorem mem_evict (h : VnodesOk L s) (hix : s.vnodes.guys[ix]? = some p) :
  q ∈ (s.evict ix p).vnodes.guys ↔ q ∈ s.vnodes.guys ∧ q ≠ p
  := by
  have hguys : (s.evict ix p).vnodes.guys = s.vnodes.guys.eraseIdx ix := rfl
  rw [hguys, List.mem_eraseIdx_iff_getElem?]
  constructor
  · rintro ⟨k, hk, hkq⟩
    refine ⟨List.mem_of_getElem? hkq, ?_⟩
    rintro rfl
    apply hk
    have hkl := (List.getElem?_eq_some_iff.mp hkq).1
    exact (List.getElem?_inj hkl h.nodup).mp (hkq.trans hix.symm)
  · rintro ⟨hq, hne⟩
    obtain ⟨k, hk⟩ := List.mem_iff_getElem?.mp hq
    refine ⟨k, ?_, hk⟩
    rintro rfl
    rw [hix] at hk
    exact hne (Option.some.inj hk).symm

theorem heap_evict (hq : q ≠ p) :
  (s.evict ix p).heap q = s.heap q
  := if_neg hq

theorem evict (h : VnodesOk L s) (hix : s.vnodes.guys[ix]? = some p)
    (hL : ∀ j, L j → j ≠ (s.heap p).ino → L' j) :
  VnodesOk L' (s.evict ix p)
  := by
  have hp := List.mem_of_getElem? hix
  have hnodup : (s.evict ix p).vnodes.guys.Nodup := h.nodup.eraseIdx ix
  apply h.mono hnodup (Nat.le_refl _)
  intro q hq
  obtain ⟨hq, hne⟩ := (h.mem_evict hix).mp hq
  refine ⟨hq, heap_evict hne, ?_, rfl⟩
  apply hL _ (h.loaded q hq)
  intro heq
  exact hne (h.inos q hq p hp heq)

/-- The inodes after a vnode has left the table: its inode is the one on the disk. -/
theorem inodeOf_evict (h : VnodesOk L s) (hix : s.vnodes.guys[ix]? = some p) (j : ℕ) :
  (s.evict ix p).inodeOf j
    = if j = (s.heap p).ino then Inode.decode (s.disk j) else s.inodeOf j
  := by
  have hp := List.mem_of_getElem? hix
  have hevict : VnodesOk L (s.evict ix p) := h.evict hix (fun j hL _ => hL)
  have hres_iff : (s.evict ix p).Resident j ↔ s.Resident j ∧ j ≠ (s.heap p).ino := by
    constructor
    · rintro ⟨q, hq, hqj⟩
      obtain ⟨hq, hne⟩ := (h.mem_evict hix).mp hq
      rw [heap_evict hne] at hqj
      refine ⟨⟨q, hq, hqj⟩, ?_⟩
      rintro rfl
      exact hne (h.inos q hq p hp hqj)
    · rintro ⟨⟨q, hq, rfl⟩, hj⟩
      have hne : q ≠ p := by
        rintro rfl
        exact hj rfl
      exact ⟨q, (h.mem_evict hix).mpr ⟨hq, hne⟩, by rw [heap_evict hne]⟩
  split_ifs with hj
  · have hres : ¬ (s.evict ix p).Resident j := fun hres => (hres_iff.mp hres).2 hj
    rw [inodeOf_of_not_resident hres]
    rfl
  · by_cases hres : s.Resident j
    · obtain ⟨q, hq, hqj⟩ := hres_iff.mpr ⟨hres, hj⟩
      have hloaded := inodeOf_loaded hevict.inos hq
      obtain ⟨hq, hne⟩ := (h.mem_evict hix).mp hq
      rw [heap_evict hne] at hqj hloaded
      rw [← hqj, hloaded, inodeOf_loaded h.inos hq]
    · have hres' : ¬ (s.evict ix p).Resident j := fun hr => hres (hres_iff.mp hr).1
      rw [inodeOf_of_not_resident hres', inodeOf_of_not_resident hres]
      rfl

end Evict

end VnodesOk

/-! ### The volume -/

namespace Catalog

variable {lost lost' L : ℕ → Prop} {s s' : Fs} {p : Ptr} {t : Table Ptr} {sv : SfsVnode}
  {ix ino j b : ℕ}

/-- The inodes and the blocks that they hold are as they were. -/
structure Same (L : ℕ → Prop) (s s' : Fs) : Prop where
  nblocks : s'.nblocks = s.nblocks
  nbits : s'.freemap.nbits = s.freemap.nbits
  inode : ∀ j, L j → s'.inodeOf j = s.inodeOf j
  disk : ∀ j k, L j → (s.inodeOf j).ptr s.disk k ≠ 0 →
    s'.disk ((s.inodeOf j).ptr s.disk k) = s.disk ((s.inodeOf j).ptr s.disk k)

namespace Same

theorem file (h : Same L s s') (hL : L j) :
  s'.file j = s.file j
  := by
  rw [Fs.file, Fs.file, h.inode j hL]
  apply Inode.view_of_disk
  intro k hne
  exact h.disk j k hL hne

theorem cells (h : Same L s s') :
  s'.cells L = s.cells L
  := by
  funext j k
  by_cases hL : L j
  · rw [cells_of_mem hL, cells_of_mem hL, h.inode j hL, Inode.cell, Inode.cell,
      Inode.ptr_of_disk (fun k hne => h.disk j k hL hne)]
  · exact (if_neg hL).trans (if_neg hL).symm

theorem fixed (h : Same L s s') :
  s'.Fixed lost = s.Fixed lost
  := by
  funext b
  rw [Fs.Fixed, Fs.Fixed, h.nblocks, h.nbits]

/-- The catalog, when other blocks may be lost. -/
theorem catalog (h : Same L s s') (hc : Catalog lost L s) (hv : VnodesOk L s')
    (hsound : s'.Sound) (hledger : Ledger (s.Fixed lost') s'.Used (s.cells L)) :
  Catalog lost' L s'
  := by
  refine ⟨hv, hsound, ?_, ?_, hc.root, hc.zero, ?_, ?_⟩
  · rw [h.nbits, h.nblocks]
    exact hc.nbits
  · rw [h.fixed, h.cells]
    exact hledger
  · intro j hL
    rw [h.inode j hL]
    exact hc.type j hL
  · intro j hL
    rw [h.inode j hL]
    exact hc.size j hL

end Same

/-- A block of the files that an inode is in holds nothing else. -/
theorem ptr_ne_ino (h : Catalog lost L s) (hL : L ino) (hj : L j) (k : ℕ) :
  (s.inodeOf j).ptr s.disk k ≠ ino
  := by
  intro heq
  have hne : (s.inodeOf j).ptr s.disk k ≠ 0 := by
    rw [heq]
    exact h.ne_zero hL
  have hk : k < 144 := Inode.lt_of_ptr_ne_zero hne
  have hcell := cells_eq_ptr hj hne
  rw [← hcell] at heq hne
  obtain ⟨-, hk144⟩ := h.ledger.inj j k ino 144 hne (heq.trans (cells_ino hL).symm)
  omega

/-! Memory -/

theorem same_kmallocs (ks : List Bool) :
  Same L s { s with kmallocs := ks }
  := ⟨rfl, rfl, fun _ _ => rfl, fun _ _ _ _ => rfl⟩

/-- The catalog does not depend on the answers of `kmalloc`. -/
theorem kmallocs (h : Catalog lost L s) (ks : List Bool) :
  Catalog lost L { s with kmallocs := ks }
  := by
  apply (same_kmallocs ks).catalog h ?_ ?_ h.ledger
  · exact { h.toVnodesOk with }
  · exact { h.sound with }

/-! An inode from the disk -/

section Load

variable (h : Catalog lost L s) (ht : t.guys = s.vnodes.guys ++ [s.next])
  (hres : ¬ s.Resident sv.ino) (hL : L sv.ino) (hi : sv.i = Inode.decode (s.disk sv.ino))
  (hops : sv.ops = some (if sv.ino = 1 then .dirops else .fileops)) (hrefs : 0 < sv.refcount)
  (hopens : sv.opencount ≤ sv.refcount)

include h ht hres hL hi hops hrefs hopens

theorem vnodesOk_load :
  VnodesOk L (s.load t sv)
  := h.toVnodesOk.load ht (fun _ hL => hL) hres hL (fun _ => hi.symm) hops hrefs hopens

theorem same_load :
  Same L s (s.load t sv)
  := by
  refine ⟨rfl, rfl, ?_, fun _ _ _ _ => rfl⟩
  intro j _
  rw [h.toVnodesOk.inodeOf_load (h.vnodesOk_load ht hres hL hi hops hrefs hopens) ht]
  split_ifs with hj
  · rw [hj, inodeOf_of_not_resident hres, hi]
  · rfl

/-- A vnode is made for an inode on the disk. -/
theorem load :
  Catalog lost L (s.load t sv)
  := by
  apply (h.same_load ht hres hL hi hops hrefs hopens).catalog h
    (h.vnodesOk_load ht hres hL hi hops hrefs hopens) ?_ h.ledger
  exact { h.sound with }

end Load

/-! A new inode -/

section Allocate

variable (h : Catalog lost L s) (hb : b < s.nblocks) (hfree : ¬ s.Used b)

include h hfree in
theorem same_allocated :
  Same L s (s.allocated b)
  := by
  have hv : (s.allocated b).vnodes = s.vnodes := rfl
  refine ⟨rfl, rfl, ?_, ?_⟩
  · intro j hL
    apply inodeOf_congr hv (fun _ _ => rfl) (fun _ _ _ => rfl)
    intro _
    apply if_neg
    rintro rfl
    exact hfree (h.used hL)
  · intro j k hL hne'
    apply if_neg
    intro heq
    apply hfree
    have hcell := cells_eq_ptr hL hne'
    rw [← heq, ← hcell]
    rw [← hcell] at hne'
    exact (h.ledger.account j).used k hne'

include h hb hfree in
/-- A block that is allocated belongs to no inode yet. -/
theorem allocated :
  Catalog (fun c => lost c ∨ c = b) L (s.allocated b)
  := by
  apply (h.same_allocated hfree).catalog h
  · have hnodup : (s.allocated b).vnodes.guys.Nodup := h.nodup
    apply h.toVnodesOk.mono hnodup (Nat.le_refl _)
    intro q hq
    refine ⟨hq, rfl, h.loaded q hq, if_neg ?_⟩
    rintro heq
    apply hfree
    rw [← heq]
    exact h.used (h.loaded q hq)
  · exact h.sound.allocated hb
  · apply h.ledger.fix hfree
    · intro c
      simp only [Fs.Fixed, or_assoc]
    · exact h.sound.used_allocated hb

end Allocate

section Adopt

variable (h : Catalog (fun c => lost c ∨ c = b) L s)
  (ht : t.guys = s.vnodes.guys ++ [s.next]) (hino : sv.ino = b) (hdirty : sv.dirty = true)
  (hops : sv.ops = some .fileops) (hrefs : 0 < sv.refcount) (hopens : sv.opencount ≤ sv.refcount)

include h in
/-- A block that belongs to no inode is not an inode. -/
theorem not_mem_of_lost :
  ¬ L b
  := by
  intro hL
  have hcell := cells_ino (s := s) hL
  apply h.ledger.apart b 144
  · rw [hcell]
    exact h.ne_zero hL
  · rw [hcell]
    exact .inr (.inr (.inr (.inr rfl)))

include h ht hino hdirty hops hrefs hopens

theorem vnodesOk_adopt :
  VnodesOk (fun j => L j ∨ j = b) (s.load t sv)
  := by
  have hnot := h.not_mem_of_lost
  apply h.toVnodesOk.load ht (fun _ hL => .inl hL)
  · rintro ⟨q, hq, hqb⟩
    apply hnot
    rw [← hino, ← hqb]
    exact h.loaded q hq
  · exact .inr hino
  · intro hclean
    rw [hdirty] at hclean
    cases hclean
  · have hne : sv.ino ≠ 1 := by
      rintro heq
      apply hnot
      rw [← hino, heq]
      exact h.root
    rw [hops, if_neg hne]
  · exact hrefs
  · exact hopens

theorem inodeOf_adopt (j : ℕ) :
  (s.load t sv).inodeOf j = if j = b then sv.i else s.inodeOf j
  := by
  rw [h.toVnodesOk.inodeOf_load (h.vnodesOk_adopt ht hino hdirty hops hrefs hopens) ht, hino]

/-- The other files are as they were. -/
theorem file_adopt (hj : j ≠ b) :
  (s.load t sv).file j = s.file j
  := by
  rw [Fs.file, Fs.file, h.inodeOf_adopt ht hino hdirty hops hrefs hopens, if_neg hj]
  rfl

/-- The block becomes the inode of an empty file. -/
theorem adopt (hb : ¬ s.Fixed lost b) (hi : sv.i = { Inode.cleared with type := typeFile }) :
  Catalog lost (fun j => L j ∨ j = b) (s.load t sv)
  := by
  have hnot := h.not_mem_of_lost
  have hinode := h.inodeOf_adopt ht hino hdirty hops hrefs hopens
  have hb0 : b ≠ 0 := fun hz => hb (.inl hz)
  have hone : b ≠ 1 := by
    rintro rfl
    exact hnot h.root
  have hptr : ∀ k, sv.i.ptr s.disk k = 0 := by
    intro k
    rw [hi]
    exact Inode.ptr_cleared rfl rfl
  refine ⟨h.vnodesOk_adopt ht hino hdirty hops hrefs hopens, ?_, h.nbits, ?_, .inl h.root,
    ?_, ?_, ?_⟩
  · exact { h.sound with }
  · apply h.ledger.adopt (i := b) (k := 144) (b := b)
    · exact .inr (.inr (.inr (.inr rfl)))
    · exact hb0
    · intro c
      have hsplit : s.Fixed (fun c => lost c ∨ c = b) c ↔ s.Fixed lost c ∨ c = b := by
        simp only [Fs.Fixed, or_assoc]
      change s.Fixed lost c ↔ _
      rw [hsplit]
      constructor
      · intro hc
        refine ⟨.inl hc, ?_⟩
        rintro rfl
        exact hb hc
      · rintro ⟨hc | hc, hne⟩
        · exact hc
        · exact absurd hc hne
    · intro j k
      by_cases hj : j = b
      · subst hj
        have hcell : (s.load t sv).cells (fun i => L i ∨ i = j) j k = sv.i.cell s.disk j k := by
          rw [cells_of_mem (.inr rfl), hinode, if_pos rfl]
          rfl
        have hold : s.cells L j k = 0 := if_neg hnot
        rw [hcell, hold]
        by_cases hk : k = 144
        · rw [if_pos ⟨rfl, hk⟩, hk, Inode.cell_ino]
        · rw [if_neg (fun hand => hk hand.2), Inode.cell, if_neg hk, hptr]
      · rw [if_neg (fun hand => hj hand.1)]
        by_cases hL : L j
        · rw [cells_of_mem (.inl hL), cells_of_mem hL, hinode, if_neg hj]
          rfl
        · have hneither : ¬ (L j ∨ j = b) := by
            rintro (hL' | hj')
            · exact hL hL'
            · exact hj hj'
          exact (if_neg hneither).trans (if_neg hL).symm
    · exact if_neg hnot
  · rintro (hL | hz)
    · exact h.zero hL
    · exact hb0 hz.symm
  · rintro j (hL | rfl)
    · have hj : j ≠ b := by
        rintro rfl
        exact hnot hL
      rw [hinode, if_neg hj]
      exact h.type j hL
    · rw [hinode, if_pos rfl, hi, if_neg hone]
  · rintro j (hL | rfl)
    · have hj : j ≠ b := by
        rintro rfl
        exact hnot hL
      rw [hinode, if_neg hj]
      exact h.size j hL
    · rw [hinode, if_pos rfl, hi]
      decide

end Adopt

/-! An inode is written to the disk -/

section Flush

theorem heap_flushed (q : Ptr) :
  (s.flushed p).heap q = if q = p then { s.heap p with dirty := false } else s.heap q
  := rfl

variable (h : Catalog lost L s) (hp : p ∈ s.vnodes.guys)

theorem ino_flushed (q : Ptr) :
  ((s.flushed p).heap q).ino = (s.heap q).ino
  := by
  rw [heap_flushed]
  split_ifs with hq
  · rw [hq]
  · rfl

include h hp

theorem vnodesOk_flushed :
  VnodesOk L (s.flushed p)
  := by
  have hv : (s.flushed p).vnodes = s.vnodes := rfl
  have hself : (s.flushed p).heap p = { s.heap p with dirty := false } := if_pos rfl
  apply h.toVnodesOk.change hv (fun q _ => ino_flushed q) hp rfl (fun q hqp => if_neg hqp)
  · rw [hself]
  · rw [hself]
    exact h.refs p hp
  · rw [hself]
    exact h.opens p hp
  · intro q hq
    by_cases hqp : q = p
    · subst hqp
      intro _
      have hdisk : (s.flushed q).disk (s.heap q).ino = (s.heap q).i.encode := if_pos rfl
      rw [hself, hdisk, Inode.decode_encode]
    · have hdisk : (s.flushed p).disk (s.heap q).ino = s.disk (s.heap q).ino :=
        if_neg (fun heq => hqp (h.inos q hq p hp heq))
      rw [heap_flushed, if_neg hqp, hdisk]
      exact h.clean q hq

theorem same_flushed :
  Same L s (s.flushed p)
  := by
  have hv : (s.flushed p).vnodes = s.vnodes := rfl
  refine ⟨rfl, rfl, ?_, ?_⟩
  · intro j _
    apply inodeOf_congr hv fun q _ => ino_flushed q
    · intro q _ _
      rw [heap_flushed]
      split_ifs with hqp
      · rw [hqp]
      · rfl
    · intro hres
      apply if_neg
      rintro rfl
      exact hres ⟨p, hp, rfl⟩
  · intro j k hL _
    exact if_neg (h.ptr_ne_ino (h.loaded p hp) hL k)

theorem flushed :
  Catalog lost L (s.flushed p)
  := by
  apply (h.same_flushed hp).catalog h (h.vnodesOk_flushed hp) ?_ h.ledger
  exact (h.sound.write _ _).update p _

end Flush

/-! A vnode leaves the table -/

section Evict

theorem used_freed (c : ℕ) :
  (s.freed ino).Used c ↔ s.Used c ∧ c ≠ ino
  := by
  have huse : (s.freed ino).Used c ↔ s.Used c ∧ ino ≠ c := Fs.used_unmarked
  rw [huse, ne_comm]

variable (h : Catalog lost L s) (hix : s.vnodes.guys[ix]? = some p)

include h hix

theorem same_evict (hclean : (s.heap p).dirty = false) :
  Same L s (s.evict ix p)
  := by
  have hp := List.mem_of_getElem? hix
  refine ⟨rfl, rfl, ?_, fun _ _ _ _ => rfl⟩
  intro j _
  rw [h.toVnodesOk.inodeOf_evict hix]
  split_ifs with hj
  · rw [hj, h.clean p hp hclean, h.inodeOf hp]
  · rfl

/-- A vnode that is not dirty leaves the table. -/
theorem evict (hclean : (s.heap p).dirty = false) :
  Catalog lost L (s.evict ix p)
  := by
  apply (h.same_evict hix hclean).catalog h (h.toVnodesOk.evict hix (fun _ hL _ => hL)) ?_ h.ledger
  exact { h.sound with }

/-! An inode is given back -/

theorem same_erase :
  Same (fun j => L j ∧ j ≠ (s.heap p).ino) s ((s.freed (s.heap p).ino).evict ix p)
  := by
  refine ⟨rfl, rfl, ?_, fun _ _ _ _ => rfl⟩
  rintro j ⟨-, hj⟩
  have hv : VnodesOk L (s.freed (s.heap p).ino) :=
    { h.toVnodesOk with }
  exact (hv.inodeOf_evict hix j).trans (if_neg hj)

/-- The block of an inode without blocks is given back. -/
theorem erase (hptr : ∀ k, s.ptr p k = 0) (hroot : (s.heap p).ino ≠ 1) :
  Catalog lost (fun j => L j ∧ j ≠ (s.heap p).ino) ((s.freed (s.heap p).ino).evict ix p)
  := by
  have hp := List.mem_of_getElem? hix
  have hL := h.loaded p hp
  have hsame := h.same_erase hix
  have hv : VnodesOk L (s.freed (s.heap p).ino) :=
    { h.toVnodesOk with }
  have hcell : ∀ k, s.cells L (s.heap p).ino k = if k = 144 then (s.heap p).ino else 0 := by
    intro k
    rw [h.cells_vnode hp, Fs.cell_eq, hptr]
  refine ⟨hv.evict hix (fun j hL hj => ⟨hL, hj⟩), ?_, h.nbits, ?_, ⟨h.root, hroot.symm⟩,
    fun hz => h.zero hz.1, ?_, ?_⟩
  · have hsound := h.sound.unmarked (h.ino_lt hL) (h.ne_zero hL)
    exact { hsound with }
  · rw [hsame.cells]
    apply h.ledger.splice (s.heap p).ino
    · intro j hj
      funext k
      by_cases hLj : L j
      · exact (if_pos ⟨hLj, hj⟩).trans (if_pos hLj).symm
      · exact (if_neg (fun hand => hLj hand.1)).trans (if_neg hLj).symm
    · have hzero : ∀ k, s.cells (fun j => L j ∧ j ≠ (s.heap p).ino) (s.heap p).ino k = 0 :=
        fun k => if_neg (fun hand => hand.2 rfl)
      exact ⟨fun k hne => absurd (hzero k) hne, fun k l hne => absurd (hzero k) hne⟩
    · intro c
      have hzero : ∀ k, s.cells (fun j => L j ∧ j ≠ (s.heap p).ino) (s.heap p).ino k = 0 :=
        fun k => if_neg (fun hand => hand.2 rfl)
      have huse : ((s.freed (s.heap p).ino).evict ix p).Used c ↔ s.Used c ∧ c ≠ (s.heap p).ino :=
        used_freed c
      constructor
      · rintro ⟨hc, -⟩
        obtain ⟨hc, hne⟩ := huse.mp hc
        refine ⟨hc, ?_⟩
        intro k hk
        rw [hcell] at hk
        split at hk
        · exact absurd hk.symm hne
        · exact hk.symm
      · rintro ⟨hc, hout⟩
        refine ⟨huse.mpr ⟨hc, ?_⟩, ?_⟩
        · rintro rfl
          exact h.ne_zero hL (hout 144 (by rw [hcell, if_pos rfl]))
        · intro k hk
          rw [← hk, hzero]
  · rintro j hj
    rw [hsame.inode j hj]
    exact h.type j hj.1
  · rintro j hj
    rw [hsame.inode j hj]
    exact h.size j hj.1

end Evict

end Catalog

end Sfs
