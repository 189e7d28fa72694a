import AzureSpider.Sfs.Consistent

/-!
# The operations on names

What the operations on the names in the root directory do to a consistent volume: the finite
map from names to inode numbers that the directory is afterwards, the inodes that are live, and
that the files keep their contents.  A call that fails leaves the map.
-/

open Machine Routine

namespace Sfs

/-- A step that leaves the contents and the blocks of the files, but for the files in `gone`,
which are erased. -/
structure Kept (gone : ℕ → Prop) (s s' : Fs) : Prop where
  live : ∀ j, s.Live j → (s'.Live j ↔ ¬ gone j)
  file : ∀ j, j ≠ 1 → s.Live j → ¬ gone j →
    s'.file j = { s.file j with linkcount := (s'.file j).linkcount }
  /-- The inode and the blocks of a file that is erased are free. -/
  freed : ∀ j, s.Live j → gone j →
    ¬ s'.Used j ∧ ∀ k, (s.file j).blocks k ≠ 0 → ¬ s'.Used ((s.file j).blocks k)
  root : ¬ gone 1
  calm : s.Calm → s'.Calm
  kmallocs : s.kmallocs = [] → s'.kmallocs = []
  /-- The root directory has no name in itself, and its links are never counted anew. -/
  links : (s'.file 1).linkcount = (s.file 1).linkcount

/-- A step that erases no file. -/
abbrev Stays (s s' : Fs) : Prop := Kept (fun _ => False) s s'

/-- The vnodes in the table stay there, with their inode numbers and their counts. -/
structure SameRefs (s s' : Fs) : Prop where
  mem : ∀ q ∈ s.vnodes.guys, q ∈ s'.vnodes.guys
  ino : ∀ q ∈ s.vnodes.guys, (s'.heap q).ino = (s.heap q).ino
  refcount : ∀ q ∈ s.vnodes.guys, (s'.heap q).refcount = (s.heap q).refcount
  opencount : ∀ q ∈ s.vnodes.guys, (s'.heap q).opencount = (s.heap q).opencount

/-- Besides `n` blocks, there are too few free ones for an entry in a slot of the root directory
that is free, or behind the last one. -/
def Fs.Cramped (s : Fs) (n : ℕ) : Prop :=
  ∃ k ≤ s.dir.length, (∀ e, s.dir[k]? ≠ some (some e))
    ∧ s.freeBlocks < n + lacking (s.file 1).blocks (64 * k / 512)

/-- Why no entry is made for a name once `n` blocks were allocated: it is taken, or too long,
the volume is full, or the directory is. -/
def Unlinkable (n : ℕ) (s : Fs) (name : Name) (e : Errno) : Prop :=
  e = .eexist ∧ (Slots.lookup s.dir name.bytes).isSome
    ∨ Slots.lookup s.dir name.bytes = none
      ∧ (e = .enametoolong ∧ 60 ≤ name.length
        ∨ e = .enospc ∧ name.length < 60 ∧ s.Cramped n
        ∨ e = .einval ∧ name.length < 60 ∧ s.dir.length = 1144 ∧ ∀ k : ℕ, s.dir[k]? ≠ some none)

section Kept

variable {lost : ℕ → Prop} {gone gone' : ℕ → Prop} {s s' s'' s₁ : Fs} {p q : Ptr} {ino k b : ℕ}
  {name : Name} {x : List UInt8}

theorem Kept.congr (h : Kept gone s s') (heq : ∀ j, s.Live j → (gone' j ↔ gone j)) :
  Kept gone' s s'
  := by
  refine ⟨?_, ?_, ?_, ?_, h.calm, h.kmallocs, h.links⟩
  · intro j hl
    rw [heq j hl]
    exact h.live j hl
  · intro j hj hl hnot
    rw [heq j hl] at hnot
    exact h.file j hj hl hnot
  · intro j hl hgone
    exact h.freed j hl ((heq j hl).mp hgone)
  · rw [heq 1 s.live_root]
    exact h.root

theorem Stays.live (h : Stays s s') {j : ℕ} (hl : s.Live j) :
  s'.Live j
  := (Kept.live h j hl).mpr id

theorem Stays.trans (h : Stays s s') (h' : Kept gone s' s'') :
  Kept gone s s''
  := by
  refine ⟨?_, ?_, ?_, h'.root, fun hc => h'.calm (h.calm hc),
    fun hk => h'.kmallocs (h.kmallocs hk), h'.links.trans h.links⟩
  · intro j hl
    exact h'.live j (Stays.live h hl)
  · intro j hj hl hnot
    have hfile := h.file j hj hl id
    have hfile' := h'.file j hj (Stays.live h hl) hnot
    rw [hfile] at hfile'
    exact hfile'
  · intro j hl hgone
    have hj : j ≠ 1 := by
      rintro rfl
      exact h'.root hgone
    have hfile := h.file j hj hl id
    have hfreed := h'.freed j (Stays.live h hl) hgone
    rw [hfile] at hfreed
    exact hfreed

theorem Stays.intro (hlive : ∀ j, s.Live j → s'.Live j)
    (hfile : ∀ j, j ≠ 1 → s.Live j →
      s'.file j = { s.file j with linkcount := (s'.file j).linkcount })
    (hcalm : s.Calm → s'.Calm) (hk : s.kmallocs = [] → s'.kmallocs = [])
    (hlinks : (s'.file 1).linkcount = (s.file 1).linkcount) :
  Stays s s'
  := ⟨fun j hl => iff_of_true (hlive j hl) id, fun j hj hl _ => hfile j hj hl,
    fun _ _ hf => hf.elim, id, hcalm, hk, hlinks⟩

/-- A step that leaves all files, and the inodes that are live. -/
theorem Stays.of_file (hlive : ∀ j, s.Live j → s'.Live j)
    (hfile : ∀ j, s.Live j → s'.file j = s.file j) (hcalm : s.Calm → s'.Calm)
    (hk : s.kmallocs = [] → s'.kmallocs = []) :
  Stays s s'
  := by
  apply Stays.intro hlive _ hcalm hk
  · rw [hfile 1 s.live_root]
  · intro j _ hl
    rw [hfile j hl]

theorem Stays.refl (s : Fs) :
  Stays s s
  := Stays.of_file (fun _ hl => hl) (fun _ _ => rfl) id id

theorem Fetched.stays (h : Fetched lost s.Live ino s p s') (hlive : s.Live ino) :
  Stays s s'
  := by
  apply Stays.of_file _ h.file h.calm h.kmallocs
  intro j hl
  rw [Consistent.live_fetched h hlive]
  exact hl

theorem Made.stays (h : Made lost s.Live s b p s') :
  Stays s s'
  := by
  apply Stays.of_file _ h.file h.calm h.kmallocs
  intro j hl
  rw [Consistent.live_made h]
  exact .inl hl

/-- A reference is dropped, which erases the file if it was the last one. -/
theorem Released.kept (hr : Released lost s.Live p s s') (h : Consistent lost s)
    (hp : p ∈ s.vnodes.guys) :
  Kept (fun j => j = (s.heap p).ino ∧ s.Last p) s s'
  := by
  have hlive := Consistent.live_released hr h hp
  refine ⟨?_, ?_, ?_, h.not_last_root hp, hr.calm hp, ?_, ?_⟩
  · intro j hl
    rw [hlive]
    exact and_iff_right hl
  · intro j _ hl hnot
    rw [hr.file j hl hnot]
  · rintro j hl ⟨rfl, hlast⟩
    have hfreed := hr.freed hlast
    constructor
    · rw [hfreed]
      intro hforeign
      exact h.catalog.ne_zero hl (hforeign.2 144 rfl)
    · intro k hne
      rw [h.catalog.file_eq hp] at hne ⊢
      rw [hfreed]
      intro hforeign
      exact hforeign.ne_ptr hne rfl
  · intro hnil
    rw [hr.kmallocs]
    exact hnil
  · rw [hr.file 1 s.live_root (h.not_last_root hp)]

/-! The vnodes that are held -/

/-- One vnode after another. -/
theorem SameRefs.of_forall (h : ∀ q ∈ s.vnodes.guys, q ∈ s'.vnodes.guys
    ∧ (s'.heap q).ino = (s.heap q).ino ∧ (s'.heap q).refcount = (s.heap q).refcount
    ∧ (s'.heap q).opencount = (s.heap q).opencount) :
  SameRefs s s'
  := ⟨fun q hq => (h q hq).1, fun q hq => (h q hq).2.1, fun q hq => (h q hq).2.2.1,
    fun q hq => (h q hq).2.2.2⟩

theorem SameRefs.of_heap (hmem : ∀ q ∈ s.vnodes.guys, q ∈ s'.vnodes.guys)
    (hheap : ∀ q ∈ s.vnodes.guys, s'.heap q = s.heap q) :
  SameRefs s s'
  := by
  apply SameRefs.of_forall
  intro q hq
  rw [hheap q hq]
  exact ⟨hmem q hq, rfl, rfl, rfl⟩

theorem SameRefs.refl (s : Fs) :
  SameRefs s s
  := SameRefs.of_heap (fun _ hq => hq) (fun _ _ => rfl)

theorem SameRefs.trans (h : SameRefs s s') (h' : SameRefs s' s'') :
  SameRefs s s''
  := by
  apply SameRefs.of_forall
  intro q hq
  have hq' := h.mem q hq
  rw [← h.ino q hq, ← h.refcount q hq, ← h.opencount q hq]
  exact ⟨h'.mem q hq', h'.ino q hq', h'.refcount q hq', h'.opencount q hq'⟩

/-- A step of a file leaves the counts of its vnode. -/
theorem FileStep.sameRefs (h : FileStep p s s') :
  SameRefs s s'
  := by
  apply SameRefs.of_forall
  intro q hq
  rw [h.vnodes]
  by_cases hqp : q = p
  · rw [hqp]
    exact ⟨hqp ▸ hq, h.kept.ino, h.kept.refcount, h.kept.opencount⟩
  · rw [h.heap q hqp]
    exact ⟨hq, rfl, rfl, rfl⟩

theorem SameRefs.updateInode (s : Fs) (p : Ptr) (f : Inode → Inode) :
  SameRefs s (s.updateInode p f)
  := by
  refine ⟨fun _ hq => hq, ?_, ?_, ?_⟩
  all_goals
    intro q _
    rw [Fs.updateInode, Fs.heap_update]
    split_ifs with hqp
    · rw [hqp]
    · rfl

theorem Made.ne (h : Made lost s.Live s b p s') (hq : q ∈ s.vnodes.guys) :
  q ≠ p
  := by
  rintro rfl
  exact h.new hq

theorem Made.sameRefs (h : Made lost s.Live s b p s') :
  SameRefs s s'
  := SameRefs.of_heap (fun q hq => (h.vnodes.mem q (h.ne hq)).mpr hq)
    (fun q hq => h.vnodes.heap q hq (h.ne hq))

/-- A vnode that was made is dropped again. -/
theorem SameRefs.made_released {L : ℕ → Prop} (hm : Made lost s.Live s b p s₁)
    (h : SameRefs s₁ s') (hr : Released lost L p s' s'') :
  SameRefs s s''
  := by
  have hsame := hm.sameRefs.trans h
  apply SameRefs.of_forall
  intro q hq
  rw [hr.vnodes.heap q (hsame.mem q hq) (hm.ne hq), hsame.ino q hq, hsame.refcount q hq,
    hsame.opencount q hq]
  exact ⟨(hr.vnodes.mem q (hm.ne hq)).mpr (hsame.mem q hq), rfl, rfl, rfl⟩

/-- A vnode that was fetched is dropped again. -/
theorem SameRefs.fetched_released {L : ℕ → Prop} (hf : Fetched lost s.Live ino s p s₁)
    (h : SameRefs s₁ s') (hr : Released lost L p s' s'') (hs : VnodesOk s.Live s) :
  SameRefs s s''
  := by
  apply SameRefs.of_forall
  intro q hq
  by_cases hqp : q = p
  · subst hqp
    have hold := hf.old hq
    have hpos := hs.refs q hq
    have href : (s'.heap q).refcount = (s.heap q).refcount + 1 := by
      rw [h.refcount q hf.mem, hold]
    have hlt : 1 < (s'.heap q).refcount := by omega
    rw [hr.heap hlt]
    refine ⟨hr.mem.mpr hlt, ?_, ?_, ?_⟩
    · rw [h.ino q hf.mem, hold]
    · change (s'.heap q).refcount - 1 = (s.heap q).refcount
      omega
    · change (s'.heap q).opencount = (s.heap q).opencount
      rw [h.opencount q hf.mem, hold]
  · have hq₁ := (hf.vnodes.mem q hqp).mpr hq
    rw [hr.vnodes.heap q (h.mem q hq₁) hqp, h.ino q hq₁, h.refcount q hq₁, h.opencount q hq₁,
      hf.vnodes.heap q hq hqp]
    exact ⟨(hr.vnodes.mem q hqp).mpr (h.mem q hq₁), rfl, rfl, rfl⟩

section Root

variable (h : Consistent lost s) (hp : p ∈ s.vnodes.guys) (hroot : (s.heap p).ino = 1)

include h hp hroot

/-- A step of the root directory that leaves its entries. -/
theorem Grown.stays (hg : Grown p s s') :
  Stays s s'
  := by
  refine Stays.intro ?_ ?_ hg.toFileStep.calm ?_ ?_
  · intro j hl
    rwa [h.live_grown hp hroot hg]
  · intro j hj hl
    rw [h.catalog.file_fileStep hp hg.toFileStep hl (by rw [hroot]; exact hj)]
  · intro hnil
    rw [hg.kmallocs]
    exact hnil
  · rw [h.file_dir hp hroot hg.toFileStep (hg.isDir (h.isDir hp hroot)), h.file_root hp hroot]

/-- The entries of the directory and the link count of a file change. -/
theorem Stays.relink {f : Inode → Inode} (hq : q ∈ s.vnodes.guys) (hne : (s.heap q).ino ≠ 1)
    (hstep : FileStep p s s₁) (hdir : s₁.IsDir p)
    (hf : f (s.heap q).i = { (s.heap q).i with linkcount := (f (s.heap q).i).linkcount })
    (hlive : (s₁.updateInode q f).Live = s.Live) :
  Stays s (s₁.updateInode q f)
  := by
  apply Stays.intro
  · intro j hl
    rwa [hlive]
  · intro j hj hl
    rw [h.file_relink_of_live hp hroot hq hne hstep hdir hf hj hl]
  · intro hcalm r hr
    have hold := hstep.calm hcalm
    rw [Fs.updateInode, Fs.heap_update]
    split_ifs with hrq
    · rw [hrq] at hr
      exact hold q hr
    · exact hold r hr
  · intro hnil
    have hkm : (s₁.updateInode q f).kmallocs = s₁.kmallocs := rfl
    rw [hkm, hstep.kmallocs]
    exact hnil
  · rw [h.file_relink hp hroot hq hne hstep hdir hf, if_neg hne.symm,
      h.file_dir hp hroot hstep hdir, h.file_root hp hroot]

theorem NotLinked.unlinkable {e : Errno} (hn : NotLinked p s name e s') :
  Unlinkable 0 s name e
  := by
  have hcause := hn.cause
  have hblocks : (s.file 1).blocks = s.ptr p := by
    rw [h.file_root hp hroot]
  rw [h.slots_eq hp hroot, ← hblocks] at hcause
  simpa only [Unlinkable, Fs.Cramped, Nat.zero_add] using hcause

end Root

/-- The entries and the blocks of the root directory are the same, and `m` blocks were
allocated. -/
theorem Unlinkable.before {e : Errno} {m n : ℕ} (h : Unlinkable n s' name e)
    (hfile : s'.file 1 = s.file 1) (hfree : s.freeBlocks = s'.freeBlocks + m) :
  Unlinkable (n + m) s name e
  := by
  rw [Unlinkable, Fs.dir_congr hfile] at h
  rcases h with hexist | ⟨hnone, hlong | ⟨he, hshort, k, hk, hslot, hlt⟩ | hfull⟩
  · exact .inl hexist
  · exact .inr ⟨hnone, .inl hlong⟩
  · rw [Fs.dir_congr hfile] at hk hslot
    rw [hfile] at hlt
    exact .inr ⟨hnone, .inr (.inl ⟨he, hshort, k, hk, hslot, by omega⟩)⟩
  · exact .inr ⟨hnone, .inr (.inr hfull)⟩

end Kept

/-! ### Looking up -/

section Specs

variable {lost : ℕ → Prop} {s : Fs} {p q : Ptr} {name : Name}

section

variable {α : Type} {fileop dirop : Run α} {Q : α → Fs → Prop} {E : Errno → Fs → Prop}
  {L : ℕ → Prop} {e : Errno} (h : VnodesOk L s) (hp : p ∈ s.vnodes.guys)
include h hp

/-- An operation is done by the table of the vnode. -/
theorem wp_vop (hfile : (s.heap p).ino ≠ 1 → wp fileop s Q E)
    (hdir : (s.heap p).ino = 1 → wp dirop s Q E) :
  wp (vop p fileop dirop) s Q E
  := by
  have hops := h.ops p hp
  have hrefs := h.refs p hp
  simp only [vop, vnodeCheck, wp_bind, wp_get, wp_assert]
  refine ⟨by rw [hops]; exact Option.some_ne_none _, fun hboth => Nat.ne_of_gt hrefs hboth.1, ?_⟩
  rw [hops]
  by_cases hone : (s.heap p).ino = 1
  · rw [if_pos hone]
    exact hdir hone
  · rw [if_neg hone]
    exact hfile hone

/-- An operation that only directories have. -/
theorem wp_vop_dir (hfail : (s.heap p).ino ≠ 1 → E e s)
    (hdir : (s.heap p).ino = 1 → wp dirop s Q E) :
  wp (vop p (fail e) dirop) s Q E
  := wp_vop h hp (fun hne => (wp_fail e).mpr (hfail hne)) hdir

/-- An operation that only files have. -/
theorem wp_vop_file (hfail : (s.heap p).ino = 1 → E e s)
    (hfile : (s.heap p).ino ≠ 1 → wp fileop s Q E) :
  wp (vop p fileop (fail e)) s Q E
  := wp_vop h hp hfile fun hone => (wp_fail e).mpr (hfail hone)

end

/-- A vnode is handed out to the caller, who holds a reference to it. -/
structure Held (s : Fs) (q : Ptr) : Prop where
  mem : q ∈ s.vnodes.guys
  spare : (s.heap q).opencount < (s.heap q).refcount

variable {s' : Fs}

theorem Held.sameRefs (h : Held s q) (hsame : SameRefs s s') :
  Held s' q
  := by
  refine ⟨hsame.mem q h.mem, ?_⟩
  rw [hsame.opencount q h.mem, hsame.refcount q h.mem]
  exact h.spare

/-- The reference to a regular file is dropped after other steps. -/
theorem Held.decref (hheld : Held s q) (hne : (s.heap q).ino ≠ 1)
    (hsame : SameRefs s s') (h : Consistent lost s') :
  wp (decref q) s' (fun _ s'' => Released lost s'.Live q s' s'')
  := by
  obtain ⟨hmem, hspare⟩ := hheld.sameRefs hsame
  apply decref_spec h.catalog hmem hspare
  rw [hsame.ino q hheld.mem]
  exact fun hone => absurd hone hne

/-- The file that has a name is handed out. -/
structure Found (lost : ℕ → Prop) (s : Fs) (name : Name) (q : Ptr) (s' : Fs) : Prop where
  consistent : Consistent lost s'
  stays : Stays s s'
  held : Held s' q
  dir : s'.dir = s.dir
  found : Slots.lookup s.dir name.bytes = some (s'.heap q).ino
  live : s'.Live = s.Live
  fetched : Fetched lost s.Live (s'.heap q).ino s q s'

/-- A call that fails and leaves the map. -/
structure Declined (lost : ℕ → Prop) (s s' : Fs) : Prop where
  consistent : Consistent lost s'
  stays : Stays s s'
  dir : s'.dir = s.dir
  live : s'.Live = s.Live
  refs : SameRefs s s'

/-- Why a name is not found. -/
def Unfound (s : Fs) (name : Name) (e : Errno) : Prop :=
  e = .enoent ∧ Slots.lookup s.dir name.bytes = none
    ∨ e = .enomem ∧ false ∈ s.kmallocs ∧ (Slots.lookup s.dir name.bytes).isSome

theorem Declined.refl (h : Consistent lost s) :
  Declined lost s s
  := ⟨h, Stays.refl s, rfl, rfl, SameRefs.refl s⟩

theorem Starved.declined {e : Errno} (hstarved : Starved s e s') (h : Consistent lost s) :
  Declined lost s s'
  := by
  obtain ⟨-, hrefused, ks, rfl⟩ := hstarved
  refine ⟨h.kmallocs ks, Stays.of_file (fun _ hl => hl) (fun _ _ => rfl) id ?_, rfl, rfl, ?_⟩
  · exact fun hk => absurd hk (List.ne_nil_of_mem hrefused)
  · exact SameRefs.of_heap (fun _ hq => hq) (fun _ _ => rfl)

/-- The vnode of the file with a name is fetched. -/
theorem Found.of_fetched {i : ℕ} (h : Consistent lost s)
    (hmem : (name.bytes, i) ∈ Slots.entries s.dir) (hf : Fetched lost s.Live i s q s') :
  Found lost s name q s'
  := by
  have hlive := Consistent.live_of_entry hmem
  refine ⟨h.fetched hf hlive, hf.stays hlive, ⟨hf.mem, hf.spare h.catalog.toVnodesOk⟩,
    Consistent.dir_fetched hf, ?_, Consistent.live_fetched hf hlive, ?_⟩
  · rw [hf.ino_eq, Slots.lookup_eq_some h.distinct]
    exact hmem
  · rw [hf.ino_eq]
    exact hf

section Directory

variable (h : Consistent lost s) (hp : p ∈ s.vnodes.guys) (hroot : (s.heap p).ino = 1)

include h hp hroot

/-- The search for a name in the root directory. -/
theorem dirFindname_root (name : Name) :
  wp (dirFindname p name) s
    (fun r s' => Searched s.dir name.bytes s.dir.length r ∧ s' = s)
  := by
  have hslots := h.slots_eq hp hroot
  have hfind := dirFindname_spec h.catalog.sound (h.catalog.fileOk hp) (h.isDir hp hroot)
    (by rw [hslots]; exact h.distinct) name
  rwa [hslots] at hfind

/-- `sfs_lookonce` hands out the vnode of the file with a name, and the slot of the name. -/
theorem lookonce_spec (name : Name) :
  wp (lookonce p name) s
    (fun r s' => Found lost s name r.1 s'
      ∧ s'.dir[r.2]? = some (some (name.bytes, (s'.heap r.1).ino)))
    (fun e s' => Declined lost s s' ∧ Unfound s name e)
  := by
  simp only [lookonce, wp_bind]
  apply wp_sure (dirFindname_root h hp hroot name)
  rintro r s' ⟨hr, rfl⟩
  cases hfound : r.found with
  | none =>
    simp only [wp_fail]
    exact ⟨Declined.refl h, .inl ⟨rfl, hr.lookup_eq_none hfound⟩⟩
  | some hit =>
    obtain ⟨slot, i⟩ := hit
    have hslot := (hr.found slot i hfound).2
    have hmem := Slots.mem_entries.mpr (List.mem_of_getElem? hslot)
    have hlive := Consistent.live_of_entry hmem
    simp only [wp_bind]
    apply wp_mono (loadvnode_spec h.catalog hlive)
    · intro q s₁ hf
      simp only [wp_get, wp_assert, wp_pure]
      refine ⟨?_, Found.of_fetched h hmem hf, ?_⟩
      · have hlinks := h.linkcount_ne_zero hmem
        rw [← hf.file _ hlive, ← hf.ino_eq, hf.catalog.file_eq hf.mem] at hlinks
        exact hlinks
      · rw [Consistent.dir_fetched hf, hf.ino_eq]
        exact hslot
    · intro e s₁ hstarved
      refine ⟨hstarved.declined h, .inr ⟨hstarved.errno, hstarved.refused, ?_⟩⟩
      rw [hr.lookup_eq_some h.distinct hfound]
      rfl

/-- `sfs_lookup` hands out the file that the map has for a name. -/
theorem lookup_spec (name : Name) :
  wp (lookup p name) s (fun q s' => Found lost s name q s')
    (fun e s' => Declined lost s s' ∧ Unfound s name e)
  := by
  simp only [lookup, wp_bind, wp_get, wp_ite, wp_fail]
  refine ⟨fun hne => absurd (h.isDir hp hroot).type hne, fun _ => ?_⟩
  apply wp_imp (lookonce_spec h hp hroot name)
  intro r s' hlook
  simp only [wp_pure]
  exact hlook.1

end Directory

/-! ### Making entries -/

variable (h : Consistent lost s) (hp : p ∈ s.vnodes.guys) (hroot : (s.heap p).ino = 1)

/-- The entries of the directory that are not in `gone` are in the slots that they were in. -/
def Seated (gone : List UInt8 → Prop) (s s' : Fs) : Prop :=
  ∀ (k : ℕ) (e : List UInt8 × ℕ), s.dir[k]? = some (some e) → ¬ gone e.1 →
    s'.dir[k]? = some (some e)

theorem Seated.of_dir (h : s'.dir = s.dir) :
  Seated (fun _ => False) s s'
  := by
  intro k e he _
  rw [h]
  exact he

theorem Seated.trans {gone : List UInt8 → Prop} {s' s'' : Fs}
    (h : Seated (fun _ => False) s s') (h' : Seated gone s' s'') :
  Seated gone s s''
  := by
  intro k e he hnot
  exact h' k e (h k e he id) hnot

/-- A name is added to the map. -/
structure Named (lost : ℕ → Prop) (s : Fs) (name : Name) (ino : ℕ) (s' : Fs) : Prop where
  consistent : Consistent lost s'
  stays : Stays s s'
  missing : Slots.lookup s.dir name.bytes = none
  short : name.length < 60
  map : Slots.lookup s'.dir = Function.update (Slots.lookup s.dir) name.bytes (some ino)
  seated : Seated (fun _ => False) s s'
  live : s'.Live = s.Live
  refs : SameRefs s s'

include h hp hroot in
/-- An entry is made, and counted in the inode of its file. -/
theorem Named.of_linked {k : ℕ} {s₁ : Fs} (hq : q ∈ s.vnodes.guys) (hne : (s.heap q).ino ≠ 1)
    (hl : Linked p s name (s.heap q).ino k s₁) :
  Named lost s name (s.heap q).ino
    (s₁.updateInode q fun i => { i with linkcount := i.linkcount + 1 })
  := by
  have hnone := hl.lookup
  rw [h.slots_eq hp hroot] at hnone
  have hlive := h.live_linked hp hroot hq hne hl
  constructor
  · exact h.linked hp hroot hq hne hl
  · exact Stays.relink h hp hroot hq hne hl.toFileStep hl.isDir rfl hlive
  · exact hnone
  · exact hl.length
  · rw [h.dir_linked hp hroot hq hne hl]
    exact Slots.lookup_put h.distinct (h.free_linked hp hroot hl) hnone
  · intro l e he _
    have hle := hl.le
    rw [h.slots_eq hp hroot] at hle
    rw [h.dir_linked hp hroot hq hne hl, Slots.getElem?_put hle, if_neg, he]
    rintro rfl
    exact h.free_linked hp hroot hl e he
  · exact hlive
  · exact hl.toFileStep.sameRefs.trans (SameRefs.updateInode s₁ q _)

include h hp hroot in
/-- A step of the root directory that makes no entry. -/
theorem NotLinked.declined {e : Errno} (hn : NotLinked p s name e s') :
  Declined lost s s'
  := ⟨h.grown hp hroot hn.toGrown, hn.toGrown.stays h hp hroot, h.dir_grown hp hroot hn.toGrown,
    h.live_grown hp hroot hn.toGrown, hn.toFileStep.sameRefs⟩

include h hp hroot in
/-- `sfs_dir_link` in the root directory, for a file of the volume. -/
theorem dirLink_root (hq : q ∈ s.vnodes.guys) (name : Name) :
  wp (dirLink p name (UInt32.ofNat (s.heap q).ino)) s
    (Linked p s name (s.heap q).ino) (NotLinked p s name)
  := by
  have hlive : s.Live (s.heap q).ino := Fs.live_of_mem hq
  have hlt := h.catalog.ino_lt hlive
  have hsmall := h.catalog.sound.serves.small
  apply dirLink_spec h.catalog.sound (h.catalog.fileOk hp) (h.isDir hp hroot)
  · rw [h.slots_eq hp hroot]
    exact h.distinct
  · omega
  · exact h.catalog.ne_zero hlive

include h hp hroot in
theorem link_spec (hq : q ∈ s.vnodes.guys) (hne : (s.heap q).ino ≠ 1) (name : Name) :
  wp (link p name q) s (fun _ s' => Named lost s name (s.heap q).ino s')
    (fun e s' => Declined lost s s' ∧ Unlinkable 0 s name e)
  := by
  simp only [link, wp_bind, wp_get]
  apply wp_mono (dirLink_root h hp hroot hq name)
  · intro k s₁ hl
    simp only [linkcountUp, wp_modify]
    exact Named.of_linked h hp hroot hq hne hl
  · intro e s₁ hn
    exact ⟨hn.declined h hp hroot, hn.unlinkable h hp hroot⟩

/-- A new file gets a name. -/
structure Created (lost : ℕ → Prop) (s : Fs) (name : Name) (q : Ptr) (s' : Fs) : Prop where
  consistent : Consistent lost s'
  stays : Stays s s'
  held : Held s' q
  missing : Slots.lookup s.dir name.bytes = none
  short : name.length < 60
  new : ¬ s.Live (s'.heap q).ino
  map : Slots.lookup s'.dir
    = Function.update (Slots.lookup s.dir) name.bytes (some (s'.heap q).ino)
  seated : Seated (fun _ => False) s s'
  empty : (s'.file (s'.heap q).ino).size = 0
  blank : ∀ pos, (s'.file (s'.heap q).ino).bytes pos = 0
  live : ∀ j, s'.Live j → s.Live j ∨ j = (s'.heap q).ino
  refs : SameRefs s s'

/-- Why no file is made: the volume is full, no entry can be made, or memory is refused. -/
def Uncreatable (s : Fs) (name : Name) (e : Errno) : Prop :=
  Slots.lookup s.dir name.bytes = none ∧ (e = .enospc ∧ s.Cramped 1 ∨ Unlinkable 1 s name e)
    ∨ e = .enomem ∧ false ∈ s.kmallocs

/-- The volume after a call that made no file; a block may be lost if memory was refused. -/
def DeclinedOr (lost : ℕ → Prop) (s s' : Fs) : Prop :=
  ∃ lost', Declined lost' s s' ∧ (s.kmallocs = [] → lost' = lost)

theorem Declined.orLost (h : Declined lost s s') :
  DeclinedOr lost s s'
  := ⟨lost, h, fun _ => rfl⟩

theorem NotMade.declinedOr {e : Errno} (hn : NotMade s e s') (h : Consistent lost s) :
  DeclinedOr lost s s'
  := by
  obtain ⟨-, hrefused, b, ks, hb, hfree, rfl⟩ := hn
  refine ⟨fun c => lost c ∨ c = b, ⟨(h.allocated hb hfree).kmallocs ks, ?_, ?_,
    h.live_allocated hfree, SameRefs.of_heap (fun _ hq => hq) (fun _ _ => rfl)⟩,
    fun hnil => absurd hnil (List.ne_nil_of_mem hrefused)⟩
  · apply Stays.of_file
    · intro j hl
      have hlive : (s.allocated b).Live j := by
        rw [h.live_allocated hfree]
        exact hl
      exact hlive
    · intro j hl
      exact h.file_allocated hfree hl
    · exact fun hc => hc
    · exact fun hnil => absurd hnil (List.ne_nil_of_mem hrefused)
  · exact Fs.dir_congr (h.file_allocated hfree s.live_root)

section MakeAndLink

variable {b : ℕ} {s₁ s₂ : Fs} (hm : Made lost s.Live s b q s₁)

include hm in
theorem Made.ino_eq :
  (s₁.heap q).ino = b
  := by
  rw [hm.heap]
  rfl

include hp hm in
theorem Made.mem_root :
  p ∈ s₁.vnodes.guys
  := (hm.vnodes.mem p (hm.ne hp)).mpr hp

include hp hroot hm in
theorem Made.root :
  (s₁.heap p).ino = 1
  := by
  rw [hm.vnodes.heap p hp (hm.ne hp)]
  exact hroot

include hm in
theorem Made.held :
  Held s₁ q
  := by
  refine ⟨hm.mem, ?_⟩
  rw [hm.heap]
  exact Nat.zero_lt_one

include h hm in
theorem Made.ne_root :
  (s₁.heap q).ino ≠ 1
  := by
  rw [hm.ino_eq]
  rintro rfl
  exact Consistent.not_live_made hm h s.live_root

include h hm

/-- A new file gets an entry. -/
theorem Created.of_named (hn : Named lost s₁ name (s₁.heap q).ino s₂) :
  Created lost s name q s₂
  := by
  have hc₁ := Consistent.made hm h
  have hdir := Consistent.dir_made hm
  have hino := hn.refs.ino q hm.mem
  have hfile := hn.stays.file _ (hm.ne_root h) (Fs.live_of_mem hm.mem) id
  rw [hc₁.catalog.file_eq hm.mem] at hfile
  have hmissing := hn.missing
  have hmap := hn.map
  rw [hdir] at hmissing hmap
  constructor
  · exact hn.consistent
  · exact Stays.trans hm.stays hn.stays
  · exact hm.held.sameRefs hn.refs
  · exact hmissing
  · exact hn.short
  · rw [hino, hm.ino_eq]
    exact Consistent.not_live_made hm h
  · rw [hino]
    exact hmap
  · exact (Seated.of_dir hdir).trans hn.seated
  · rw [hino, hfile]
    change (s₁.heap q).i.size.toNat = 0
    rw [hm.heap]
    rfl
  · intro pos
    rw [hino, hfile]
    apply Inode.byteAt_of_ptr_eq_zero
    rw [hm.heap]
    exact Inode.ptr_cleared rfl rfl
  · intro j hl
    rw [hn.live, Consistent.live_made hm] at hl
    rw [hino, hm.ino_eq]
    exact hl
  · exact hm.sameRefs.trans hn.refs

include hp hroot

/-- A new file that gets no entry is erased. -/
theorem Declined.of_released {e : Errno} {s₃ : Fs} (hn : NotLinked p s₁ name e s₂)
    (hr : Released lost s₂.Live q s₂ s₃) :
  Declined lost s s₃
  := by
  have hc₁ := Consistent.made hm h
  have hp₁ := hm.mem_root hp
  have hroot₁ := hm.root hp hroot
  have href := hn.declined hc₁ hp₁ hroot₁
  have hq₂ := href.refs.mem q hm.mem
  have hino := (href.refs.ino q hm.mem).trans hm.ino_eq
  have hlast : s₂.Last q := by
    rw [Fs.Last, hn.heap q (Consistent.ne_of_ino hroot₁ (hm.ne_root h)), hm.heap]
    exact ⟨rfl, rfl⟩
  constructor
  · exact Consistent.released hr href.consistent hq₂
  · have hkept := Stays.trans hm.stays (Stays.trans href.stays (hr.kept href.consistent hq₂))
    apply hkept.congr
    intro j hl
    apply iff_of_false id
    rintro ⟨rfl, -⟩
    rw [hino] at hl
    exact Consistent.not_live_made hm h hl
  · rw [Consistent.dir_released hr href.consistent hq₂, href.dir, Consistent.dir_made hm]
  · funext j
    apply propext
    rw [Consistent.live_released hr href.consistent hq₂, href.live, Consistent.live_made hm, hino]
    constructor
    · rintro ⟨hl | rfl, hnot⟩
      · exact hl
      · exact absurd ⟨rfl, hlast⟩ hnot
    · intro hl
      refine ⟨.inl hl, ?_⟩
      rintro ⟨rfl, -⟩
      exact Consistent.not_live_made hm h hl
  · exact SameRefs.made_released hm href.refs hr

end MakeAndLink

include h hp hroot in
/-- The part of `sfs_creat` for a name that does not exist. -/
theorem creatNew_spec (hnone : Slots.lookup s.dir name.bytes = none) :
  wp (creatNew p name) s (Created lost s name)
    (fun e s' => DeclinedOr lost s s' ∧ Uncreatable s name e)
  := by
  simp only [creatNew, wp_bind]
  apply wp_mono (makeobj_spec h.catalog)
  · rintro q s₁ ⟨b, hm⟩
    have hc₁ := Consistent.made hm h
    have hp₁ := hm.mem_root hp
    have hroot₁ := hm.root hp hroot
    have hne₁ := hm.ne_root h
    simp only [wp_get, wp_attempt]
    apply wp_mono (dirLink_root hc₁ hp₁ hroot₁ hm.mem name)
    · intro k s₂ hl
      simp only [linkcountUp, wp_bind, wp_modify, wp_pure]
      exact Created.of_named h hm (Named.of_linked hc₁ hp₁ hroot₁ hm.mem hne₁ hl)
    · intro e s₂ hn
      have href := hn.declined hc₁ hp₁ hroot₁
      simp only [wp_bind, wp_fail]
      apply wp_sure (hm.held.decref hne₁ href.refs href.consistent)
      intro _ s₃ hr
      refine ⟨(Declined.of_released h hp hroot hm hn hr).orLost, .inl ⟨hnone, .inr ?_⟩⟩
      exact (hn.unlinkable hc₁ hp₁ hroot₁).before (hm.file 1 s.live_root)
        (Fs.freeBlocks_take hm.lt hm.free hm.nblocks hm.used)
  · rintro e s₁ (⟨rfl, hall, rfl⟩ | hn)
    · refine ⟨(Declined.refl h).orLost, .inl ⟨hnone, .inl ⟨rfl, _, Nat.le_refl _, ?_, ?_⟩⟩⟩
      · intro x hx
        rw [List.getElem?_eq_none (Nat.le_refl _)] at hx
        cases hx
      · rw [Fs.freeBlocks_eq_zero hall]
        omega
    · exact ⟨hn.declinedOr h, .inr ⟨hn.errno, hn.refused⟩⟩

include h hp hroot in
theorem creat_spec (name : Name) (excl : Bool) :
  wp (creat p name excl) s
    (fun q s' => Created lost s name q s' ∨ excl = false ∧ Found lost s name q s')
    (fun e s' => DeclinedOr lost s s'
      ∧ (e = .eexist ∧ excl = true ∧ (Slots.lookup s.dir name.bytes).isSome
        ∨ Uncreatable s name e))
  := by
  simp only [creat, wp_bind]
  apply wp_sure (dirFindname_root h hp hroot name)
  rintro r s' ⟨hr, rfl⟩
  cases hfound : r.found with
  | none =>
    apply wp_mono (creatNew_spec h hp hroot (hr.lookup_eq_none hfound))
    · intro q s₁ hcreated
      exact .inl hcreated
    · rintro e s₁ ⟨href, hcause⟩
      exact ⟨href, .inr hcause⟩
  | some hit =>
    obtain ⟨slot, i⟩ := hit
    have hslot := (hr.found slot i hfound).2
    have hmem := Slots.mem_entries.mpr (List.mem_of_getElem? hslot)
    have hlive := Consistent.live_of_entry hmem
    have hsome := hr.lookup_eq_some h.distinct hfound
    simp only [wp_ite, wp_fail]
    constructor
    · intro hexcl
      refine ⟨(Declined.refl h).orLost, .inl ⟨trivial, hexcl, ?_⟩⟩
      rw [hsome]
      rfl
    · intro hexcl
      rw [Bool.not_eq_true] at hexcl
      apply wp_mono (loadvnode_spec h.catalog hlive)
      · intro q s₁ hf
        exact .inr ⟨hexcl, Found.of_fetched h hmem hf⟩
      · intro e s₁ hstarved
        exact ⟨(hstarved.declined h).orLost, .inr (.inr ⟨hstarved.errno, hstarved.refused⟩)⟩

/-! ### Clearing entries -/

/-- A name is taken from the map, and the link count of its file `q` is lowered. -/
structure Unnamed (lost : ℕ → Prop) (s : Fs) (x : List UInt8) (q : Ptr) (s' : Fs) : Prop where
  consistent : Consistent lost s'
  stays : Stays s s'
  map : Slots.lookup s'.dir = Function.update (Slots.lookup s.dir) x none
  seated : Seated (fun y => y = x) s s'
  live : s'.Live = s.Live
  mem : q ∈ s'.vnodes.guys
  heap : s'.heap q = { s.heap q with
    i := { (s.heap q).i with linkcount := (s.heap q).i.linkcount - 1 }, dirty := true }
  refs : SameRefs s s'

variable {x : List UInt8}

include h hp hroot in
/-- An entry is cleared, and counted in the inode of its file. -/
theorem Unnamed.of_unlinked {k : ℕ} {s₁ : Fs} (hq : q ∈ s.vnodes.guys)
    (hk : s.dir[k]? = some (some (x, (s.heap q).ino))) (hu : Unlinked p s k s₁) :
  Unnamed lost s x q (s₁.updateInode q fun i => { i with linkcount := i.linkcount - 1 })
  := by
  have hne := h.ne_root_unlinked hk
  have hlive := h.live_unlinked hp hroot hq hk hu
  constructor
  · exact h.unlinked hp hroot hq hk hu
  · exact Stays.relink h hp hroot hq hne hu.toFileStep hu.isDir rfl hlive
  · rw [h.dir_unlinked hp hroot hq hk hu]
    exact Slots.lookup_clear h.distinct hk
  · intro l e he hnot
    have hlt := (List.getElem?_eq_some_iff.mp hk).1
    rw [h.dir_unlinked hp hroot hq hk hu, Slots.getElem?_put (Nat.le_of_lt hlt), if_neg, he]
    rintro rfl
    rw [hk] at he
    apply hnot
    rw [← Option.some.inj (Option.some.inj he)]
  · exact hlive
  · have hguys : (s₁.updateInode q fun i =>
      { i with linkcount := i.linkcount - 1 }).vnodes = s₁.vnodes := rfl
    rw [hguys, hu.vnodes]
    exact hq
  · rw [Fs.updateInode, Fs.heap_update_self, hu.heap q (Consistent.ne_of_ino hroot hne)]
  · exact hu.toFileStep.sameRefs.trans (SameRefs.updateInode s₁ q _)

include h hp hroot in
/-- `sfs_dir_unlink` in the root directory, of a slot with an entry. -/
theorem dirUnlink_root {k : ℕ} {e : List UInt8 × ℕ} (hk : s.dir[k]? = some (some e)) :
  wp (dirUnlink p k) s (fun _ s' => Unlinked p s k s')
  := by
  apply dirUnlink_spec h.catalog.sound (h.catalog.fileOk hp) (h.isDir hp hroot) (e := e)
  rw [h.slots_eq hp hroot]
  exact hk

section Unlink

variable {k : ℕ} {x : List UInt8} (hq : q ∈ s.vnodes.guys)
  (hk : s.dir[k]? = some (some (x, (s.heap q).ino)))

include h hroot hq hk in
/-- The file of an entry has links after the entry is cleared and before they are counted. -/
theorem linkcount_pos_of_unlinked {s₁ : Fs} (hu : Unlinked p s k s₁) :
  0 < (s₁.heap q).i.linkcount
  := by
  rw [hu.heap q (Consistent.ne_of_ino hroot (h.ne_root_unlinked hk))]
  exact h.linkcount_pos_unlinked hq hk

include h hp hroot hq hk

theorem removeEntry_spec :
  wp (removeEntry p q k) s (fun _ s' => Unnamed lost s x q s')
  := by
  simp only [removeEntry, wp_bind]
  apply wp_imp (dirUnlink_root h hp hroot hk)
  intro _ s₁ hu
  simp only [wp_get, wp_assert, linkcountDown, wp_modify]
  exact ⟨linkcount_pos_of_unlinked h hroot hq hk hu, Unnamed.of_unlinked h hp hroot hq hk hu⟩

end Unlink

/-- A file that has a name has links. -/
theorem Consistent.not_last_of_entry (h : Consistent lost s)
    (hq : q ∈ s.vnodes.guys) (hx : (x, (s.heap q).ino) ∈ Slots.entries s.dir) :
  ¬ s.Last q
  := by
  rintro ⟨-, hlinks⟩
  apply h.linkcount_ne_zero hx
  rw [h.catalog.file_eq hq]
  exact hlinks

/-- A file that has a name is not erased when a reference is dropped. -/
theorem Released.stays (hr : Released lost s.Live q s s')
    (h : Consistent lost s) (hq : q ∈ s.vnodes.guys)
    (hx : (x, (s.heap q).ino) ∈ Slots.entries s.dir) :
  Stays s s'
  := by
  apply (hr.kept h hq).congr
  intro j _
  apply iff_of_false id
  rintro ⟨-, hlast⟩
  exact h.not_last_of_entry hq hx hlast

section

variable {L : ℕ → Prop} {ino : ℕ} {s' : Fs} (hf : Fetched lost L ino s q s')
include hf

/-- The vnodes that stay when the vnode of a file is fetched. -/
theorem Fetched.keeps (hp : p ∈ s.vnodes.guys) :
  p ∈ s'.vnodes.guys ∧ (s'.heap p).ino = (s.heap p).ino
  := by
  by_cases hpq : p = q
  · subst hpq
    exact ⟨hf.mem, by rw [hf.old hp]⟩
  · exact ⟨(hf.vnodes.mem p hpq).mpr hp, by rw [hf.vnodes.heap p hp hpq]⟩

/-- The vnode that was fetched is the only one of its inode. -/
theorem Fetched.resident_iff :
  s.Resident ino ↔ q ∈ s.vnodes.guys
  := by
  constructor
  · rintro ⟨r, hr, hrino⟩
    obtain ⟨hr', hino⟩ := hf.keeps hr
    have heq : (s'.heap r).ino = (s'.heap q).ino := by
      rw [hino, hrino, hf.ino_eq]
    rw [← hf.catalog.inos r hr' q hf.mem heq]
    exact hr
  · intro hq
    refine ⟨q, hq, ?_⟩
    have hino := hf.ino_eq
    rw [hf.old hq] at hino
    exact hino

/-- The reference that was fetched is the only one if the inode was not in memory. -/
theorem Fetched.refcount_eq_one_iff (hs : VnodesOk L s) :
  (s'.heap q).refcount = 1 ↔ ¬ s.Resident ino
  := by
  rw [hf.resident_iff]
  constructor
  · intro hone hq
    have hpos := hs.refs q hq
    rw [hf.old hq] at hone
    simp only at hone
    omega
  · intro hq
    exact (hf.new hq).1

end

/-- A name is taken from the map, and the file is erased if that was its last link and it is
not in memory. -/
structure Removed (lost : ℕ → Prop) (s : Fs) (name : Name) (s' : Fs) : Prop where
  consistent : Consistent lost s'
  map : Slots.lookup s'.dir = Function.update (Slots.lookup s.dir) name.bytes none
  kept : Kept (fun j => Slots.lookup s.dir name.bytes = some j ∧ Slots.count s.dir j = 1
    ∧ ¬ s.Resident j) s s'
  seated : Seated (fun y => y = name.bytes) s s'
  found : (Slots.lookup s.dir name.bytes).isSome
  live : ∀ j, s'.Live j → s.Live j
  refs : SameRefs s s'

/-- A name is removed whose file was fetched: the last link of a file that is only referred to
by the fetch is the end of the file. -/
theorem Removed.of_released {s₁ s₂ s₃ : Fs} (h : Consistent lost s)
    (hlook : Found lost s name q s₁) (hu : Unnamed lost s₁ name.bytes q s₂)
    (hr : Released lost s₂.Live q s₂ s₃) :
  Removed lost s name s₃
  := by
  have hf := hlook.fetched
  have hfound := hlook.found
  have hmem := Slots.mem_of_lookup hfound
  have hino : (s₂.heap q).ino = (s₁.heap q).ino := by
    rw [hu.heap]
  -- the last reference to a file without links
  have hlast : s₂.Last q
      ↔ Slots.count s.dir (s₁.heap q).ino = 1 ∧ ¬ s.Resident (s₁.heap q).ino := by
    have hcount := hlook.consistent.linkcount_eq hf.mem (h.ne_root hmem)
    rw [hlook.dir] at hcount
    have hpos : 0 < Slots.count s.dir (s₁.heap q).ino := Slots.count_pos_iff.mpr ⟨_, hmem⟩
    have hone : (1 : UInt16) ≤ (s₁.heap q).i.linkcount := by
      change 1 ≤ (s₁.heap q).i.linkcount.toNat
      omega
    have hsub := UInt16.toNat_sub_of_le _ _ hone
    have hnat : (1 : UInt16).toNat = 1 := rfl
    have hzero : (s₁.heap q).i.linkcount - 1 = 0
        ↔ Slots.count s.dir (s₁.heap q).ino = 1 := by
      rw [← UInt16.toNat_inj, hsub, hcount, hnat]
      have hz : (0 : UInt16).toNat = 0 := rfl
      omega
    rw [Fs.Last, hu.heap, ← hf.refcount_eq_one_iff h.catalog.toVnodesOk]
    change (s₁.heap q).refcount = 1 ∧ (s₁.heap q).i.linkcount - 1 = 0 ↔ _
    rw [hzero]
    exact and_comm
  constructor
  · exact Consistent.released hr hu.consistent hu.mem
  · rw [Consistent.dir_released hr hu.consistent hu.mem, hu.map, hlook.dir]
  · have hkept := Stays.trans hlook.stays (Stays.trans hu.stays (hr.kept hu.consistent hu.mem))
    apply hkept.congr
    intro j _
    rw [hfound, hino, hlast, Option.some.injEq]
    constructor
    · rintro ⟨rfl, hrest⟩
      exact ⟨rfl, hrest⟩
    · rintro ⟨rfl, hrest⟩
      exact ⟨rfl, hrest⟩
  · have hseated := (Seated.of_dir hlook.dir).trans hu.seated
    intro k e he hnot
    rw [Consistent.dir_released hr hu.consistent hu.mem]
    exact hseated k e he hnot
  · rw [hfound]
    rfl
  · intro j hl
    rw [Consistent.live_released hr hu.consistent hu.mem, hu.live, hlook.live] at hl
    exact hl.1
  · exact SameRefs.fetched_released hf hu.refs hr h.catalog.toVnodesOk

include h hp hroot in
theorem remove_spec (name : Name) :
  wp (remove p name) s (fun _ s' => Removed lost s name s')
    (fun e s' => Declined lost s s' ∧ Unfound s name e)
  := by
  simp only [remove, wp_bind, wp_attempt]
  apply wp_imp (lookonce_spec h hp hroot name)
  rintro ⟨q, slot⟩ s₁ ⟨hlook, hk⟩
  have hc₁ := hlook.consistent
  obtain ⟨hp₁, hino₁⟩ := hlook.fetched.keeps hp
  apply wp_sure (removeEntry_spec hc₁ hp₁ (hino₁.trans hroot) hlook.held.mem hk)
  intro _ s₂ hu
  apply wp_sure (hlook.held.decref (hc₁.ne_root_unlinked hk) hu.refs hu.consistent)
  intro _ s₃ hr
  simp only [wp_pure]
  exact Removed.of_released h hlook hu hr

/-! ### Renaming -/

/-- A file gets another name. -/
structure Renamed (lost : ℕ → Prop) (s : Fs) (n1 n2 : Name) (s' : Fs) : Prop where
  consistent : Consistent lost s'
  stays : Stays s s'
  short : n2.length < 60
  missing : Slots.lookup s.dir n2.bytes = none
  map : ∃ i, Slots.lookup s.dir n1.bytes = some i ∧ Slots.lookup s'.dir
    = Function.update (Function.update (Slots.lookup s.dir) n2.bytes (some i)) n1.bytes none
  seated : Seated (fun y => y = n1.bytes) s s'
  live : ∀ j, s'.Live j → s.Live j
  refs : SameRefs s s'

include h hp hroot in
/-- The part of `sfs_rename` that replaces the name of a file. -/
theorem renameEntry_spec {n1 : Name} {slot : ℕ} (hq : q ∈ s.vnodes.guys)
    (hslot : s.dir[slot]? = some (some (n1.bytes, (s.heap q).ino))) (n2 : Name) :
  wp (renameEntry p q slot n2) s
    (fun _ s' => ∃ s₁, Named lost s n2 (s.heap q).ino s₁ ∧ Unnamed lost s₁ n1.bytes q s')
    (fun e s' => NotLinked p s n2 e s' ∧ Unlinkable 0 s n2 e)
  := by
  have hne := h.ne_root_unlinked hslot
  have htype : (s.heap q).i.type = typeFile := by
    have hcat := h.catalog.type _ (Fs.live_of_mem hq)
    rwa [if_neg hne, h.catalog.inodeOf hq] at hcat
  simp only [renameEntry, wp_bind, wp_get, wp_assert]
  refine ⟨htype, ?_⟩
  apply wp_mono (dirLink_root h hp hroot hq n2)
  · intro k s₁ hl
    simp only [linkcountUp, wp_modify, wp_attempt]
    have hnamed := Named.of_linked h hp hroot hq hne hl
    generalize s₁.updateInode q (fun i => { i with linkcount := i.linkcount + 1 }) = s₂
      at hnamed
    have hp₂ := hnamed.refs.mem p hp
    have hq₂ := hnamed.refs.mem q hq
    have hroot₂ := (hnamed.refs.ino p hp).trans hroot
    -- the old entry is where it was, as the new one is in a slot that was free
    have hslot₂ := hnamed.seated slot _ hslot id
    rw [← hnamed.refs.ino q hq] at hslot₂
    apply wp_sure (dirUnlink_root hnamed.consistent hp₂ hroot₂ hslot₂)
    intro _ s₃ hu
    simp only [wp_bind, wp_get, wp_assert, linkcountDown, wp_modify]
    exact ⟨linkcount_pos_of_unlinked hnamed.consistent hroot₂ hq₂ hslot₂ hu, s₂, hnamed,
      Unnamed.of_unlinked hnamed.consistent hp₂ hroot₂ hq₂ hslot₂ hu⟩
  · intro e s₁ hn
    exact ⟨hn, hn.unlinkable h hp hroot⟩

/-- A renamed file whose vnode is dropped. -/
theorem Renamed.of_released {n1 n2 : Name} {s₁ s₂ s₃ s₄ : Fs} (h : Consistent lost s)
    (hlook : Found lost s n1 q s₁) (hn : Named lost s₁ n2 (s₁.heap q).ino s₂)
    (hu : Unnamed lost s₂ n1.bytes q s₃) (hr : Released lost s₃.Live q s₃ s₄) :
  Renamed lost s n1 n2 s₄
  := by
  have hdir := hlook.dir
  have hmissing := hn.missing
  rw [hdir] at hmissing
  have hmap : Slots.lookup s₃.dir = Function.update (Function.update (Slots.lookup s.dir) n2.bytes
      (some (s₁.heap q).ino)) n1.bytes none := by
    rw [hu.map, hn.map, hdir]
  have hino : (s₃.heap q).ino = (s₁.heap q).ino := by
    rw [hu.heap]
    exact hn.refs.ino q hlook.held.mem
  -- the file has its new name
  have hnames : n2.bytes ≠ n1.bytes := by
    intro heq
    rw [heq, hlook.found] at hmissing
    cases hmissing
  have hnew : (n2.bytes, (s₃.heap q).ino) ∈ Slots.entries s₃.dir := by
    apply Slots.mem_of_lookup
    rw [hmap, Function.update_of_ne hnames, Function.update_self, hino]
  constructor
  · exact Consistent.released hr hu.consistent hu.mem
  · exact Stays.trans hlook.stays (Stays.trans hn.stays
      (Stays.trans hu.stays (hr.stays hu.consistent hu.mem hnew)))
  · exact hn.short
  · exact hmissing
  · exact ⟨_, hlook.found, by rw [Consistent.dir_released hr hu.consistent hu.mem, hmap]⟩
  · have hseated := ((Seated.of_dir hdir).trans hn.seated).trans hu.seated
    intro k e he hnot
    rw [Consistent.dir_released hr hu.consistent hu.mem]
    exact hseated k e he hnot
  · intro j hl
    rw [Consistent.live_released hr hu.consistent hu.mem, hu.live, hn.live, hlook.live] at hl
    exact hl.1
  · exact SameRefs.fetched_released hlook.fetched (hn.refs.trans hu.refs) hr h.catalog.toVnodesOk

include h hp hroot in
theorem rename_spec (n1 n2 : Name) :
  wp (rename p n1 p n2) s (fun _ s' => Renamed lost s n1 n2 s')
    (fun e s' => Declined lost s s'
      ∧ (Unfound s n1 e ∨ (Slots.lookup s.dir n1.bytes).isSome ∧ Unlinkable 0 s n2 e))
  := by
  simp only [rename, wp_bind, wp_get, wp_assert, wp_attempt]
  refine ⟨trivial, hroot, ?_⟩
  apply wp_mono (lookonce_spec h hp hroot n1)
  · rintro ⟨q, slot⟩ s₁ ⟨hlook, hk⟩
    have hc₁ := hlook.consistent
    have hq₁ := hlook.held.mem
    obtain ⟨hp₁, hino₁⟩ := hlook.fetched.keeps hp
    have hroot₁ := hino₁.trans hroot
    have hne := hc₁.ne_root_unlinked hk
    apply wp_mono (renameEntry_spec hc₁ hp₁ hroot₁ hq₁ hk n2)
    · rintro - s₃ ⟨s₂, hn, hu⟩
      apply wp_sure (hlook.held.decref hne (hn.refs.trans hu.refs) hu.consistent)
      intro _ s₄ hr
      simp only [wp_pure]
      exact Renamed.of_released h hlook hn hu hr
    · rintro e s₂ ⟨hn, hcause⟩
      have hdecl := hn.declined hc₁ hp₁ hroot₁
      have hheap := hn.heap q (Consistent.ne_of_ino hroot₁ hne)
      have hq₂ := hdecl.refs.mem q hq₁
      have hold : (n1.bytes, (s₂.heap q).ino) ∈ Slots.entries s₂.dir := by
        rw [hdecl.dir, hlook.dir, hheap]
        exact Slots.mem_of_lookup hlook.found
      apply wp_sure (hlook.held.decref hne hdecl.refs hdecl.consistent)
      intro _ s₃ hr
      simp only [wp_fail]
      refine ⟨⟨Consistent.released hr hdecl.consistent hq₂, ?_, ?_, ?_,
        SameRefs.fetched_released hlook.fetched hdecl.refs hr h.catalog.toVnodesOk⟩,
        .inr ⟨?_, ?_⟩⟩
      · exact Stays.trans hlook.stays (Stays.trans hdecl.stays (hr.stays hdecl.consistent hq₂ hold))
      · rw [Consistent.dir_released hr hdecl.consistent hq₂, hdecl.dir, hlook.dir]
      · funext j
        rw [Consistent.live_released hr hdecl.consistent hq₂, hdecl.live, hlook.live]
        apply propext
        apply and_iff_left
        rintro ⟨-, hlast⟩
        exact hdecl.consistent.not_last_of_entry hq₂ hold hlast
      · rw [hlook.found]
        rfl
      · have hf := hlook.fetched
        have hfree : s.freeBlocks = s₁.freeBlocks := by
          simp only [Fs.freeBlocks, hf.nblocks, hf.used]
        exact hcause.before (m := 0) (hf.file 1 s.live_root) hfree
  · rintro e s' ⟨hdecl, hunfound⟩
    exact ⟨hdecl, .inl hunfound⟩

end Specs

end Sfs
