import AzureSpider.Sfs.Residence

/-!
# The life of a vnode

What the routines that load, make and drop vnodes do to a volume that is in order.  A vnode is
fetched from the table or from the disk, and the files stay as they are; a new one is made in
a block that was free.  When a reference is dropped, the vnode loses the reference, or leaves
the table, or, if it was the last reference to a file without links, gives back its blocks.
-/

open Machine Routine

namespace Sfs

namespace Fs

/-- No file is open. -/
def Calm (s : Fs) : Prop := ∀ q ∈ s.vnodes.guys, (s.heap q).opencount = 0

/-- The last reference to a file without links. -/
def Last (s : Fs) (p : Ptr) : Prop := (s.heap p).refcount = 1 ∧ (s.heap p).i.linkcount = 0

end Fs

/-- A routine that was refused memory, and did nothing else. -/
structure Starved (s : Fs) (e : Errno) (s' : Fs) : Prop where
  errno : e = .enomem
  refused : false ∈ s.kmallocs
  state : ∃ ks, s' = { s with kmallocs := ks }

/-- The vnode `p` of an inode is handed out, with one reference more. -/
structure Fetched (lost L : ℕ → Prop) (ino : ℕ) (s : Fs) (p : Ptr) (s' : Fs) : Prop where
  catalog : Catalog lost L s'
  mem : p ∈ s'.vnodes.guys
  ino_eq : (s'.heap p).ino = ino
  old : p ∈ s.vnodes.guys → s'.heap p = { s.heap p with refcount := (s.heap p).refcount + 1 }
  new : p ∉ s.vnodes.guys → (s'.heap p).refcount = 1 ∧ (s'.heap p).opencount = 0
  vnodes : SameVnodes p s s'
  file : ∀ j, L j → s'.file j = s.file j
  used : ∀ b, s'.Used b ↔ s.Used b
  kmallocs : s.kmallocs = [] → s'.kmallocs = []
  nblocks : s'.nblocks = s.nblocks

/-- The vnode of a new file, with its inode in the block `b`. -/
def SfsVnode.blank (b : ℕ) : SfsVnode :=
  ⟨some .fileops, 1, 0, { Inode.cleared with type := typeFile }, b, true⟩

/-- The vnode `p` of an empty file is made, with its inode in the block `b`. -/
structure Made (lost L : ℕ → Prop) (s : Fs) (b : ℕ) (p : Ptr) (s' : Fs) : Prop where
  lt : b < s.nblocks
  free : ¬ s.Used b
  catalog : Catalog lost (fun j => L j ∨ j = b) s'
  mem : p ∈ s'.vnodes.guys
  new : p ∉ s.vnodes.guys
  heap : s'.heap p = SfsVnode.blank b
  vnodes : SameVnodes p s s'
  file : ∀ j, L j → s'.file j = s.file j
  used : ∀ c, s'.Used c ↔ s.Used c ∨ c = b
  kmallocs : s.kmallocs = [] → s'.kmallocs = []
  nblocks : s'.nblocks = s.nblocks

/-- A reference to the vnode `p` is dropped. -/
structure Released (lost L : ℕ → Prop) (p : Ptr) (s s' : Fs) : Prop where
  catalog : Catalog lost (fun j => L j ∧ ¬ (j = (s.heap p).ino ∧ s.Last p)) s'
  vnodes : SameVnodes p s s'
  mem : p ∈ s'.vnodes.guys ↔ 1 < (s.heap p).refcount
  heap : 1 < (s.heap p).refcount →
    s'.heap p = { s.heap p with refcount := (s.heap p).refcount - 1 }
  file : ∀ j, L j → ¬ (j = (s.heap p).ino ∧ s.Last p) → s'.file j = s.file j
  used : ¬ s.Last p → ∀ b, s'.Used b ↔ s.Used b
  freed : s.Last p → ∀ b, s'.Used b ↔ s.Foreign p b
  kmallocs : s'.kmallocs = s.kmallocs

section Frames

variable {lost L : ℕ → Prop} {s s' : Fs} {p : Ptr} {ino b : ℕ}

/-- The reference that is handed out is not the one of an open file. -/
theorem Fetched.spare (h : Fetched lost L ino s p s') (hs : VnodesOk L s) :
  (s'.heap p).opencount < (s'.heap p).refcount
  := by
  by_cases hp : p ∈ s.vnodes.guys
  · rw [h.old hp]
    exact Nat.lt_succ_of_le (hs.opens p hp)
  · obtain ⟨href, hopen⟩ := h.new hp
    omega

/-- A step that leaves the other vnodes, and does not open the file of `p`. -/
theorem SameVnodes.calm (h : SameVnodes p s s') (hs : s.Calm)
    (hp : p ∈ s'.vnodes.guys → (s'.heap p).opencount = 0) :
  s'.Calm
  := by
  intro q hq
  by_cases hqp : q = p
  · subst hqp
    exact hp hq
  · have hq' := (h.mem q hqp).mp hq
    rw [h.heap q hq' hqp]
    exact hs q hq'

theorem Fetched.calm (h : Fetched lost L ino s p s') (hs : s.Calm) :
  s'.Calm
  := by
  apply h.vnodes.calm hs
  intro _
  by_cases hp : p ∈ s.vnodes.guys
  · rw [h.old hp]
    exact hs p hp
  · exact (h.new hp).2

theorem Made.calm (h : Made lost L s b p s') (hs : s.Calm) :
  s'.Calm
  := by
  apply h.vnodes.calm hs
  intro _
  rw [h.heap]
  rfl

theorem Released.calm (h : Released lost L p s s') (hp : p ∈ s.vnodes.guys) (hs : s.Calm) :
  s'.Calm
  := by
  apply h.vnodes.calm hs
  intro hmem
  rw [h.heap (h.mem.mp hmem)]
  exact hs p hp

theorem FileStep.calm (h : FileStep p s s') (hs : s.Calm) :
  s'.Calm
  := by
  intro q hq
  rw [h.vnodes] at hq
  by_cases hqp : q = p
  · subst hqp
    rw [h.kept.opencount]
    exact hs q hq
  · rw [h.heap q hqp]
    exact hs q hq

end Frames

/-! ### Memory and the table -/

section Loading

variable {lost L : ℕ → Prop} {s : Fs} {p : Ptr} {ino b : ℕ}

/-- The next answer of `kmalloc` is a refusal. -/
theorem Fs.refused (h : ¬ s.kmallocs.head?.getD true = true) :
  false ∈ s.kmallocs
  := by
  cases hks : s.kmallocs with
  | nil =>
    rw [hks] at h
    exact absurd rfl h
  | cons b ks =>
    rw [hks] at h
    rw [← Bool.eq_false_of_not_eq_true h]
    exact List.mem_cons_self

theorem wp_kmallocOrFail (hQ : ∀ ks, ks ⊆ s.kmallocs → Q () { s with kmallocs := ks })
    (hE : false ∈ s.kmallocs → ∀ ks, E .enomem { s with kmallocs := ks }) :
  wp kmallocOrFail s Q E
  := by
  simp only [kmallocOrFail, kmalloc, wp_bind, wp_get, wp_modify, wp_pure, wp_ite, wp_fail]
  exact ⟨fun _ => hQ _ (List.tail_subset _), fun hrefused => hE (Fs.refused hrefused) _⟩

/-- `array_add` appends a vnode to the table. -/
theorem vnodesAdd_spec (s : Fs) (sv : Ptr) :
  wp (vnodesAdd sv) s
    (fun _ s' => ∃ t ks, t.guys = s.vnodes.guys ++ [sv] ∧ ks ⊆ s.kmallocs
      ∧ s' = { s with vnodes := t, kmallocs := ks })
    (Starved s)
  := by
  simp only [vnodesAdd, wp_bind, wp_get, wp_ite, wp_pure]
  constructor
  · intro _
    simp only [kmalloc, wp_bind, wp_get, wp_modify, wp_pure]
    cases hadd : s.vnodes.add sv (s.kmallocs.head?.getD true) with
    | none =>
      simp only [wp_fail]
      refine ⟨rfl, Fs.refused ?_, s.kmallocs.tail, rfl⟩
      intro hmem
      rw [hmem] at hadd
      exact Table.add_ne_none _ _ hadd
    | some t =>
      simp only [wp_modify]
      exact ⟨t, s.kmallocs.tail, (Table.add_spec hadd).1, List.tail_subset _, rfl⟩
  · intro hroom
    cases hadd : s.vnodes.add sv true with
    | none =>
      rw [Table.add, if_neg hroom] at hadd
      cases hadd
    | some t =>
      simp only [wp_modify]
      exact ⟨t, s.kmallocs, (Table.add_spec hadd).1, List.Subset.refl _, rfl⟩

/-- The search in the table finds the vnode of an inode. -/
theorem findVnode_spec (h : Catalog lost L s) (ino : ℕ) (guys : List Ptr)
    (hguys : ∀ q ∈ guys, q ∈ s.vnodes.guys) :
  wp (findVnode ino guys) s
    (fun r s' => r = guys.find? (fun q => (s.heap q).ino = ino) ∧ s' = s)
  := by
  induction guys with
  | nil =>
    simp only [findVnode, wp_pure]
    exact ⟨rfl, trivial⟩
  | cons q guys ih =>
    have hq := hguys q List.mem_cons_self
    have hL := h.loaded q hq
    simp only [findVnode, wp_bind, wp_get]
    apply bused_spec (h.ino_lt hL) (h.used hL)
    simp only [wp_assert, wp_ite, wp_pure]
    refine ⟨trivial, ?_, ?_⟩
    · intro heq
      rw [List.find?_cons_of_pos (by simpa using heq)]
      exact ⟨rfl, trivial⟩
    · intro hne
      rw [List.find?_cons_of_neg (by simpa using hne)]
      apply ih
      intro r hr
      exact hguys r (List.mem_cons_of_mem q hr)

/-! ### Loading -/

/-- An inode is read from its block, and its vnode put in the table. -/
theorem loadInode_spec (h : s.Sound) (hino : ino < s.nblocks) (hused : s.Used ino)
    {forcetype : UInt16} {i : Inode} {dirty : Bool} {ops : VnodeOps}
    (hforce : ∀ (t : Fs) (Q : Inode × Bool → Fs → Prop) (E : Errno → Fs → Prop),
      Q (i, dirty) t → wp (forceType (Inode.decode (s.disk ino)) forcetype) t Q E)
    (hops : opsOf i.type = pure ops) :
  wp (loadInode ino forcetype) s
    (fun p s' => p = s.next ∧ ∃ t ks, t.guys = s.vnodes.guys ++ [s.next]
      ∧ ks ⊆ s.kmallocs
      ∧ s' = ({ s with kmallocs := ks } : Fs).load t ⟨some ops, 1, 0, i, ino, dirty⟩)
    (Starved s)
  := by
  simp only [loadInode, wp_bind]
  apply wp_kmallocOrFail
  · intro ks₁ hks₁
    have hserves : ({ s with kmallocs := ks₁ } : Fs).device.Serves s.nblocks := h.serves
    apply bused_spec (s := { s with kmallocs := ks₁ }) hino hused
    simp only [wp_assert]
    refine ⟨trivial, ?_⟩
    apply wp_sure (rblock_spec hserves hino)
    rintro blk s₁ ⟨rfl, rfl⟩
    apply hforce
    rw [hops]
    simp only [wp_pure]
    apply wp_kmallocOrFail
    · intro ks₂ hks₂
      apply wp_kmallocOrFail
      · intro ks₃ hks₃
        simp only [wp_get]
        apply wp_mono (vnodesAdd_spec _ _)
        · rintro - s₂ ⟨t, ks, ht, hks, rfl⟩
          simp only [wp_modify]
          exact ⟨trivial, t, ks, ht, fun _ hb => hks₁ (hks₂ (hks₃ (hks hb))), rfl⟩
        · rintro e s₂ ⟨rfl, hrefused, ks, rfl⟩
          exact ⟨rfl, hks₁ (hks₂ (hks₃ hrefused)), ks, rfl⟩
      · intro hrefused ks
        exact ⟨rfl, hks₁ (hks₂ hrefused), ks, rfl⟩
    · intro hrefused ks
      exact ⟨rfl, hks₁ hrefused, ks, rfl⟩
  · intro hrefused ks
    exact ⟨rfl, hrefused, ks, rfl⟩

/-- A vnode in the table gets another reference. -/
theorem Fetched.incref (h : Catalog lost L s) (hp : p ∈ s.vnodes.guys) :
  Fetched lost L (s.heap p).ino s p
    (s.update p fun vn => { vn with refcount := vn.refcount + 1 })
  := by
  have hadj : Catalog.Adjusted (s.heap p)
      { s.heap p with refcount := (s.heap p).refcount + 1 } :=
    ⟨rfl, rfl, rfl, Nat.succ_pos _, Nat.le_succ_of_le (h.opens p hp), fun hc => ⟨hc, rfl⟩⟩
  constructor
  · exact h.update hp hadj
  · exact hp
  · rw [Fs.heap_update_self]
  · intro _
    rw [Fs.heap_update_self]
  · intro hnot
    exact absurd hp hnot
  · constructor
    · intro q _
      exact Iff.rfl
    · intro q _ hq
      exact if_neg hq
  · intro j _
    rw [h.file_update hp hadj]
    split_ifs with hj
    · rw [hj, h.file_eq hp]
    · rfl
  · intro c
    exact Iff.rfl
  · intro hnil
    exact hnil
  · rfl

/-- A vnode is made for an inode on the disk. -/
theorem Fetched.load (h : Catalog lost L s) (sv : SfsVnode) {t : Table Ptr} {ks : List Bool}
    (ht : t.guys = s.vnodes.guys ++ [s.next]) (hks : ks ⊆ s.kmallocs)
    (hres : ¬ s.Resident sv.ino) (hL : L sv.ino) (hi : sv.i = Inode.decode (s.disk sv.ino))
    (hops : sv.ops = some (if sv.ino = 1 then .dirops else .fileops)) (href : sv.refcount = 1)
    (hopen : sv.opencount = 0) :
  Fetched lost L sv.ino s s.next (({ s with kmallocs := ks } : Fs).load t sv)
  := by
  have hk := h.kmallocs ks
  have hpos : 0 < sv.refcount := by omega
  have hle : sv.opencount ≤ sv.refcount := by omega
  have hsame := hk.same_load ht hres hL hi hops hpos hle
  have hvnodes : SameVnodes s.next { s with kmallocs := ks }
      (({ s with kmallocs := ks } : Fs).load t sv) := hk.toVnodesOk.sameVnodes_load ht
  have hheap := VnodesOk.heap_load_next { s with kmallocs := ks } t sv
  constructor
  · exact hk.load ht hres hL hi hops hpos hle
  · rw [VnodesOk.mem_load (s := { s with kmallocs := ks }) ht]
    exact .inr rfl
  · rw [hheap]
  · intro hmem
    exact absurd (h.lt_next _ hmem) (Nat.lt_irrefl _)
  · intro _
    rw [hheap]
    exact ⟨href, hopen⟩
  · exact ⟨hvnodes.mem, hvnodes.heap⟩
  · intro j hLj
    exact hsame.file hLj
  · intro c
    exact Iff.rfl
  · intro hnil
    exact List.eq_nil_of_subset_nil (hnil ▸ hks)
  · rfl

/-- The function table for an inode of the volume. -/
theorem Catalog.opsOf_eq (h : Catalog lost L s) (hL : L ino) :
  opsOf (s.inodeOf ino).type = pure (if ino = 1 then .dirops else .fileops)
  := by
  rw [h.type ino hL]
  split
  · rfl
  · rfl

/-- `sfs_loadvnode` hands out the vnode of an inode of the volume. -/
theorem loadvnode_spec (h : Catalog lost L s) (hL : L ino) :
  wp (loadvnode ino typeInval) s (Fetched lost L ino s) (Starved s)
  := by
  simp only [loadvnode, wp_bind, wp_get]
  apply wp_sure (findVnode_spec h ino s.vnodes.guys (fun q hq => hq))
  rintro r s' ⟨rfl, rfl⟩
  cases hfind : s'.vnodes.guys.find? (fun q => (s'.heap q).ino = ino) with
  | some q =>
    have hq := List.mem_of_find?_eq_some hfind
    have hino : (s'.heap q).ino = ino := by simpa using List.find?_some hfind
    simp only [wp_bind, wp_assert, incref, wp_modify, wp_pure]
    refine ⟨trivial, ?_⟩
    rw [← hino]
    exact Fetched.incref h hq
  | none =>
    have hres : ¬ s'.Resident ino := by
      rintro ⟨q, hq, hqi⟩
      rw [List.find?_eq_none] at hfind
      exact hfind q hq (by simpa using hqi)
    have hops := h.opsOf_eq hL
    rw [inodeOf_of_not_resident hres] at hops
    have hforce : ∀ (t : Fs) (Q : Inode × Bool → Fs → Prop) (E : Errno → Fs → Prop),
        Q (Inode.decode (s'.disk ino), false) t →
        wp (forceType (Inode.decode (s'.disk ino)) typeInval) t Q E := by
      intro t Q E hQ
      rw [forceType, if_neg (by decide)]
      exact wp_pure _ |>.mpr hQ
    apply wp_imp (loadInode_spec h.sound (h.ino_lt hL) (h.used hL) hforce hops)
    rintro p s₁ ⟨rfl, t, ks, ht, hks, rfl⟩
    exact Fetched.load h ⟨_, 1, 0, _, ino, false⟩ ht hks hres hL rfl rfl rfl rfl

/-! ### Making -/

/-- The vnode of an empty file is made in a block that was free. -/
theorem Made.adopt (h : Catalog lost L s) (hb : b < s.nblocks) (hfree : ¬ s.Used b)
    {t : Table Ptr} {ks : List Bool} (ht : t.guys = s.vnodes.guys ++ [s.next])
    (hks : ks ⊆ s.kmallocs) :
  Made lost L s b s.next (({ s.allocated b with kmallocs := ks } : Fs).load t (.blank b))
  := by
  have halloc := (h.allocated hb hfree).kmallocs ks
  have hfixed : ¬ s.Fixed lost b := fun hfix => hfree ((h.ledger.used_iff b).mpr (.inl hfix))
  have hv : SameVnodes s.next { s.allocated b with kmallocs := ks }
      (({ s.allocated b with kmallocs := ks } : Fs).load t (.blank b)) :=
    halloc.toVnodesOk.sameVnodes_load ht
  constructor
  · exact hb
  · exact hfree
  · exact halloc.adopt ht rfl rfl rfl Nat.one_pos (Nat.zero_le 1) hfixed rfl
  · rw [VnodesOk.mem_load (s := { s.allocated b with kmallocs := ks }) ht]
    exact .inr rfl
  · intro hmem
    exact Nat.lt_irrefl _ (h.lt_next _ hmem)
  · exact VnodesOk.heap_load_next { s.allocated b with kmallocs := ks } t _
  · exact ⟨hv.mem, hv.heap⟩
  · intro j hL
    have hj : j ≠ b := by
      rintro rfl
      exact hfree (h.used hL)
    have hfile : (({ s.allocated b with kmallocs := ks } : Fs).load t (.blank b)).file j
        = (s.allocated b).file j :=
      halloc.file_adopt ht rfl rfl rfl Nat.one_pos (Nat.zero_le 1) hj
    exact hfile.trans ((h.same_allocated hfree).file hL)
  · intro c
    exact h.sound.used_allocated hb c
  · intro hnil
    exact List.eq_nil_of_subset_nil (hnil ▸ hks)
  · rfl

/-- A block is allocated for an inode whose vnode cannot be made, and is lost. -/
structure NotMade (s : Fs) (e : Errno) (s' : Fs) : Prop where
  errno : e = .enomem
  refused : false ∈ s.kmallocs
  state : ∃ b ks, b < s.nblocks ∧ ¬ s.Used b ∧ s' = { s.allocated b with kmallocs := ks }

theorem makeobj_spec (h : Catalog lost L s) :
  wp (makeobj typeFile) s
    (fun p s' => ∃ b, Made lost L s b p s')
    (fun e s' => (e = .enospc ∧ (∀ c < s.nblocks, s.Used c) ∧ s' = s) ∨ NotMade s e s')
  := by
  simp only [makeobj, wp_bind]
  apply wp_mono (balloc_spec h.sound)
  · rintro b s' ⟨hb, hfree, -, rfl⟩
    have halloc := h.allocated hb hfree
    have hres : ¬ (s.allocated b).Resident b := by
      rintro ⟨q, hq, hqb⟩
      apply hfree
      have hused := h.used (h.loaded q hq)
      exact hqb ▸ hused
    have hzero : (s.allocated b).disk b = zeroBlock := if_pos rfl
    have hforce : ∀ (t : Fs) (Q : Inode × Bool → Fs → Prop) (E : Errno → Fs → Prop),
        Q ({ Inode.cleared with type := typeFile }, true) t →
        wp (forceType (Inode.decode ((s.allocated b).disk b)) typeFile) t Q E := by
      intro t Q E hQ
      rw [hzero, Inode.decode_zeroBlock, forceType, if_pos (by decide)]
      simp only [wp_bind, wp_assert, wp_pure]
      exact ⟨rfl, hQ⟩
    have hused : (s.allocated b).Used b := (h.sound.used_allocated hb b).mpr (.inr rfl)
    simp only [loadvnode, wp_bind, wp_get]
    apply wp_sure (findVnode_spec halloc b _ (fun q hq => hq))
    rintro r s' ⟨rfl, rfl⟩
    have hfind : (s.allocated b).vnodes.guys.find?
        (fun q => ((s.allocated b).heap q).ino = b) = none := by
      rw [List.find?_eq_none]
      intro q hq hqb
      exact hres ⟨q, hq, by simpa using hqb⟩
    rw [hfind]
    apply wp_mono (loadInode_spec halloc.sound hb hused hforce
      (show opsOf typeFile = pure .fileops from rfl))
    · rintro p s' ⟨rfl, t, ks, ht, hks, rfl⟩
      exact ⟨b, Made.adopt h hb hfree ht hks⟩
    · rintro e s' ⟨rfl, hrefused, ks, rfl⟩
      exact .inr ⟨rfl, hrefused, b, ks, hb, hfree, rfl⟩
  · rintro e s' ⟨rfl, hfull, rfl⟩
    exact .inl ⟨rfl, hfull, rfl⟩

end Loading

/-! ### Dropping a reference -/

section Dropping

variable {lost L : ℕ → Prop} {s s' : Fs} {p : Ptr}

/-- The inode of the vnode `p` is on the disk. -/
structure Flushed (lost L : ℕ → Prop) (p : Ptr) (s s' : Fs) : Prop
    extends Catalog.Same L s s' where
  catalog : Catalog lost L s'
  vnodes : s'.vnodes = s.vnodes
  freemap : s'.freemap = s.freemap
  kmallocs : s'.kmallocs = s.kmallocs
  self : s'.heap p = { s.heap p with dirty := false }
  others : ∀ q, q ≠ p → s'.heap q = s.heap q

theorem syncInode_spec (h : Catalog lost L s) (hp : p ∈ s.vnodes.guys) :
  wp (syncInode p) s (fun _ s' => Flushed lost L p s s')
  := by
  simp only [syncInode, wp_bind, wp_get, wp_ite, wp_pure]
  constructor
  · intro _
    apply wp_imp (wblock_spec h.sound.serves (h.ino_lt (h.loaded p hp)) _)
    rintro - s' rfl
    simp only [wp_modify]
    refine ⟨h.same_flushed hp, h.flushed hp, rfl, rfl, rfl, ?_, ?_⟩
    · exact Fs.heap_update_self _
    · intro q hq
      exact if_neg hq
  · intro hclean
    refine ⟨⟨rfl, rfl, fun _ _ => rfl, fun _ _ _ _ => rfl⟩, h, rfl, rfl, rfl, ?_, fun _ _ => rfl⟩
    rw [Bool.not_eq_true] at hclean
    rw [← hclean]

/-- The end of `sfs_reclaim`: the vnode leaves the table. -/
theorem reclaimRemove_spec (hp : p ∈ s.vnodes.guys) (href : (s.heap p).refcount = 1)
    (hopen : (s.heap p).opencount = 0) :
  wp (reclaimRemove p >>= fun _ => kill p) s
    (fun _ s' => ∃ ix, s.vnodes.guys[ix]? = some p ∧ s' = s.evict ix p)
  := by
  simp only [reclaimRemove, wp_bind, wp_get]
  cases hidx : s.vnodes.guys.findIdx? (· = p) with
  | none =>
    rw [List.findIdx?_eq_none_iff] at hidx
    have hno := hidx p hp
    simp at hno
  | some ix =>
    obtain ⟨hlt, hix, -⟩ := List.findIdx?_eq_some_iff_getElem.mp hidx
    have heq : s.vnodes.guys[ix] = p := by simpa using hix
    simp only [wp_modify, kill, wp_bind, wp_get, wp_assert]
    refine ⟨href, hopen, ix, ?_, rfl⟩
    rw [List.getElem?_eq_getElem hlt, heq]

theorem kept_eq (h : ¬ s.Last p) :
  (fun j => L j ∧ ¬ (j = (s.heap p).ino ∧ s.Last p)) = L
  := by
  funext j
  simp [h]

/-- A vnode is reclaimed whose file has links: the file stays on the disk. -/
theorem Flushed.evict {ix : ℕ} (h : Flushed lost L p s s')
    (hix : s'.vnodes.guys[ix]? = some p) (href : (s.heap p).refcount = 1)
    (hlinks : (s.heap p).i.linkcount ≠ 0) :
  Released lost L p s (s'.evict ix p)
  := by
  have hclean : (s'.heap p).dirty = false := by rw [h.self]
  have hlast : ¬ s.Last p := fun hl => hlinks hl.2
  have hsame := h.catalog.same_evict hix hclean
  have hmem : ∀ q, q ∈ (s'.evict ix p).vnodes.guys ↔ q ∈ s.vnodes.guys ∧ q ≠ p := by
    intro q
    rw [h.catalog.toVnodesOk.mem_evict hix, h.vnodes]
  constructor
  · rw [kept_eq hlast]
    exact h.catalog.evict hix hclean
  · constructor
    · intro q hq
      rw [hmem]
      simp [hq]
    · intro q _ hq
      rw [VnodesOk.heap_evict hq, h.others q hq]
  · rw [hmem]
    simp [href]
  · intro hlt
    omega
  · intro j hL _
    rw [hsame.file hL, h.toSame.file hL]
  · intro _ c
    have hfreemap : (s'.evict ix p).freemap = s.freemap := h.freemap
    rw [Fs.Used, Fs.Used, hfreemap]
  · intro hl
    exact absurd hl hlast
  · exact h.kmallocs

/-- A file without blocks and links gives back the block of its inode. -/
theorem Flushed.erase {ix : ℕ} {s₁ : Fs} (h : Flushed lost L p s₁ s') (hs : Catalog lost L s)
    (hp : p ∈ s.vnodes.guys) (hstep : FileStep p s s₁) (hptr : ∀ k, s₁.ptr p k = 0)
    (hix : s'.vnodes.guys[ix]? = some p) (hlast : s.Last p) (hroot : (s.heap p).ino ≠ 1) :
  Released lost L p s ((s'.freed (s'.heap p).ino).evict ix p)
  := by
  have hino : (s'.heap p).ino = (s.heap p).ino := by
    rw [h.self]
    exact hstep.kept.ino
  have hino₁ : (s₁.heap p).ino = (s.heap p).ino := hstep.kept.ino
  have hL : L (s.heap p).ino := hs.loaded p hp
  have hmem : ∀ q, q ∈ ((s'.freed (s'.heap p).ino).evict ix p).vnodes.guys
      ↔ q ∈ s.vnodes.guys ∧ q ≠ p := by
    intro q
    have hguys : s'.vnodes.guys = s.vnodes.guys := by rw [h.vnodes, hstep.vnodes]
    rw [← hguys]
    exact h.catalog.toVnodesOk.mem_evict hix
  -- the sync changes no block of a file, so the file has none after it
  have hptr' : ∀ k, s'.ptr p k = 0 := by
    intro k
    have heq : s'.ptr p k = (s₁.heap p).i.ptr s'.disk k := by rw [Fs.ptr, h.self]
    rw [heq, ← hptr k]
    apply Inode.ptr_of_disk
    intro l hne
    exact absurd (hptr l) hne
  have herase := h.catalog.erase hix hptr' (by rw [hino]; exact hroot)
  have hsame := h.catalog.same_erase hix
  rw [hino] at herase hsame hmem ⊢
  constructor
  · have hset : (fun j => L j ∧ ¬ (j = (s.heap p).ino ∧ s.Last p))
        = fun j => L j ∧ j ≠ (s.heap p).ino := by
      funext j
      simp [hlast]
    rw [hset]
    exact herase
  · constructor
    · intro q hq
      rw [hmem]
      simp [hq]
    · intro q _ hq
      rw [VnodesOk.heap_evict hq]
      exact (h.others q hq).trans (hstep.heap q hq)
  · rw [hmem]
    simp [hlast.1]
  · intro hlt
    rw [hlast.1] at hlt
    exact absurd hlt (Nat.lt_irrefl 1)
  · intro j hLj hnot
    have hj : j ≠ (s.heap p).ino := fun heq => hnot ⟨heq, hlast⟩
    rw [hsame.file ⟨hLj, hj⟩, h.toSame.file hLj]
    exact hs.file_fileStep hp hstep hLj hj
  · intro hnot
    exact absurd hlast hnot
  · intro _ c
    rw [← hstep.foreign c]
    have huse : ((s'.freed (s.heap p).ino).evict ix p).Used c
        ↔ s'.Used c ∧ c ≠ (s.heap p).ino := Catalog.used_freed c
    have hused : s'.Used c ↔ s₁.Used c := by rw [Fs.Used, Fs.Used, h.freemap]
    have hcell : ∀ k, s₁.cell p k = if k = 144 then (s.heap p).ino else 0 := by
      intro k
      rw [Fs.cell_eq, hptr, hino₁]
    rw [huse, hused]
    constructor
    · rintro ⟨hc, hne⟩
      refine ⟨hc, ?_⟩
      intro k hk
      rw [hcell] at hk
      split at hk
      · exact absurd hk.symm hne
      · exact hk.symm
    · rintro ⟨hc, hout⟩
      refine ⟨hc, ?_⟩
      rintro rfl
      exact hs.ne_zero hL (hout 144 (by rw [hcell, if_pos rfl]))
  · rw [← hstep.kmallocs]
    exact h.kmallocs

variable (h : Catalog lost L s) (hp : p ∈ s.vnodes.guys)
include h hp

theorem reclaim_linked (href : (s.heap p).refcount = 1) (hopen : (s.heap p).opencount = 0)
    (hlinks : (s.heap p).i.linkcount ≠ 0) :
  wp (reclaim p) s (fun _ s' => Released lost L p s s')
  := by
  simp only [reclaim, wp_bind, wp_get, wp_ite]
  refine ⟨fun hne => absurd href hne, fun _ => ?_⟩
  simp only [reclaimErase, wp_bind, wp_get, hlinks, if_false, wp_pure]
  apply wp_imp (syncInode_spec h hp)
  intro _ s₁ hflush
  have hp₁ : p ∈ s₁.vnodes.guys := by rw [hflush.vnodes]; exact hp
  have hlinks₁ : (s₁.heap p).i.linkcount ≠ 0 := by rw [hflush.self]; exact hlinks
  have href₁ : (s₁.heap p).refcount = 1 := by rw [hflush.self]; exact href
  have hopen₁ : (s₁.heap p).opencount = 0 := by rw [hflush.self]; exact hopen
  simp only [reclaimInode, wp_bind, wp_get, hlinks₁, if_false, wp_pure]
  rw [← wp_bind]
  apply wp_imp (reclaimRemove_spec hp₁ href₁ hopen₁)
  rintro - s₂ ⟨ix, hix, rfl⟩
  exact hflush.evict hix href hlinks

/-- `sfs_reclaim` of a file without links, which is erased. -/
theorem reclaim_unlinked (hlast : s.Last p) (hopen : (s.heap p).opencount = 0)
    (hino : (s.heap p).ino ≠ 1) :
  wp (reclaim p) s (fun _ s' => Released lost L p s s')
  := by
  obtain ⟨href, hlinks⟩ := hlast
  have hops := h.ops p hp
  rw [if_neg hino] at hops
  simp only [reclaim, wp_bind, wp_get, wp_ite]
  refine ⟨fun hne => absurd href hne, fun _ => ?_⟩
  simp only [reclaimErase, wp_bind, wp_get, hlinks, if_true, vop, vnodeCheck, wp_assert, hops]
  refine ⟨Option.some_ne_none _, fun hboth => Nat.ne_of_gt (h.refs p hp) hboth.1, ?_⟩
  apply wp_imp (truncate_spec h.sound (h.fileOk hp) (by decide : 0 < 2 ^ 31))
  intro _ s₁ htrunc
  have hp₁ : p ∈ s₁.vnodes.guys := by rw [htrunc.vnodes]; exact hp
  have hcat₁ := h.fileStep hp htrunc.toFileStep (by rw [htrunc.size]; decide)
  apply wp_imp (syncInode_spec hcat₁ hp₁)
  intro _ s₂ hflush
  have hp₂ : p ∈ s₂.vnodes.guys := by rw [hflush.vnodes]; exact hp₁
  have hlinks₂ : (s₂.heap p).i.linkcount = 0 := by
    rw [hflush.self]
    exact htrunc.kept.linkcount.trans hlinks
  have href₂ : (s₂.heap p).refcount = 1 := by
    rw [hflush.self]
    exact htrunc.kept.refcount.trans href
  have hopen₂ : (s₂.heap p).opencount = 0 := by
    rw [hflush.self]
    exact htrunc.kept.opencount.trans hopen
  have hL₂ := hflush.catalog.loaded p hp₂
  simp only [reclaimInode, wp_bind, wp_get, hlinks₂, if_true]
  apply wp_imp (bfree_spec hflush.catalog.sound (hflush.catalog.ino_lt hL₂)
    (hflush.catalog.used hL₂))
  rintro - s₃ rfl
  rw [← wp_bind]
  apply wp_imp (reclaimRemove_spec (s := s₂.freed (s₂.heap p).ino) hp₂ href₂ hopen₂)
  rintro - s₄ ⟨ix, hix, rfl⟩
  have hempty := htrunc.empty (by rw [blocklen_eq (by decide)])
  exact hflush.erase h hp htrunc.toFileStep hempty hix ⟨href, hlinks⟩ hino

/-- A reference is dropped that is not the last one. -/
theorem Released.update (hlt : 1 < (s.heap p).refcount)
    (hspare : (s.heap p).opencount < (s.heap p).refcount) :
  Released lost L p s (s.update p fun vn => { vn with refcount := vn.refcount - 1 })
  := by
  have hlast : ¬ s.Last p := fun hl => Nat.ne_of_gt hlt hl.1
  have hadj : Catalog.Adjusted (s.heap p)
      { s.heap p with refcount := (s.heap p).refcount - 1 } :=
    ⟨rfl, rfl, rfl, Nat.sub_pos_of_lt hlt, Nat.le_sub_one_of_lt hspare, fun hc => ⟨hc, rfl⟩⟩
  constructor
  · rw [kept_eq hlast]
    exact h.update hp hadj
  · constructor
    · intro q _
      exact Iff.rfl
    · intro q _ hq
      exact if_neg hq
  · exact iff_of_true hp hlt
  · intro _
    exact Fs.heap_update_self _
  · intro j _ _
    rw [h.file_update hp hadj]
    split_ifs with hj
    · rw [hj, h.file_eq hp]
    · rfl
  · intro _ c
    exact Iff.rfl
  · intro hl
    exact absurd hl hlast
  · rfl

/-- `vnode_decref`, of a reference that is not the one of an open file. -/
theorem decref_spec (hspare : (s.heap p).opencount < (s.heap p).refcount)
    (hroot : (s.heap p).ino = 1 → (s.heap p).i.linkcount ≠ 0) :
  wp (decref p) s (fun _ s' => Released lost L p s s')
  := by
  simp only [decref, wp_bind, wp_get, wp_assert, wp_ite, wp_modify]
  refine ⟨h.refs p hp, ?_, ?_⟩
  · intro hlt
    exact Released.update h hp hlt hspare
  · intro hle
    have href : (s.heap p).refcount = 1 := by omega
    have hopen : (s.heap p).opencount = 0 := by omega
    have hreclaim : wp (reclaim p) s (fun _ s' => Released lost L p s s') := by
      by_cases hlinks : (s.heap p).i.linkcount = 0
      · exact reclaim_unlinked h hp ⟨href, hlinks⟩ hopen (fun hone => hroot hone hlinks)
      · exact reclaim_linked h hp href hopen hlinks
    simp only [vnodeCheck, wp_bind, wp_get, wp_assert, wp_attempt, wp_pure]
    refine ⟨by rw [h.ops p hp]; exact Option.some_ne_none _,
      fun hboth => Bool.noConfusion hboth.2, ?_⟩
    exact wp_sure hreclaim (fun _ _ hrel => hrel)

end Dropping

end Sfs
