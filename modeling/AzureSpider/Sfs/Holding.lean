import AzureSpider.Sfs.History

/-!
# References that are held

The layer above the file system holds references to vnodes: for longer than a call to the root
directory, and during a call to the vnodes that the call works on.  They are counted besides the
references of the open files, and the vnodes of a call are of files that have a name.  Whoever
holds a reference can therefore drop it, and no file is erased by that.

Each section takes a step of the file system, and shows which references are held after it, and,
where it is so, that the files are as they were.
-/

open Machine Routine

namespace Sfs

/-- The root directory, or a file that has a name. -/
def Fs.HasName (s : Fs) (ino : ℕ) : Prop := ino = 1 ∨ ∃ x, Slots.lookup s.dir x = some ino

/-- The references `dirs` and `refs` are held, the first ones to the root directory. -/
structure Holding (dirs refs : List Ptr) (s : Fs) : Prop where
  consistent : ∃ lost, Consistent lost s
  loaded : ∀ p ∈ dirs ++ refs, p ∈ s.vnodes.guys
  spare : ∀ p ∈ s.vnodes.guys,
    (s.heap p).opencount + (dirs ++ refs).count p ≤ (s.heap p).refcount
  rooted : ∀ p ∈ dirs, (s.heap p).ino = 1
  named : ∀ p ∈ refs, s.HasName (s.heap p).ino

/-- The entries of the directory and the files other than it are as they were, with their
contents, sizes and link counts, and so is the link count of the directory. -/
structure SameFiles (s s' : Fs) : Prop where
  dir : s'.dir = s.dir
  live : s'.Live = s.Live
  file : ∀ j, j ≠ 1 → s.Live j → s'.file j = s.file j
  links : (s'.file 1).linkcount = (s.file 1).linkcount

/-- The references are held, and the files are as they were. -/
structure Unchanged (dirs refs : List Ptr) (s s' : Fs) : Prop where
  holding : Holding dirs refs s'
  same : SameFiles s s'
  inos : ∀ p ∈ s.vnodes.guys, p ∈ s'.vnodes.guys → (s'.heap p).ino = (s.heap p).ino

/-- The only change is a new file with the name `name`, which is empty and has one link. -/
structure Added (name : Name) (s s' : Fs) : Prop where
  missing : Slots.lookup s.dir name.bytes = none
  live : ∀ j, s.Live j → s'.Live j
  file : ∀ j, j ≠ 1 → s.Live j → s'.file j = s.file j
  links : (s'.file 1).linkcount = (s.file 1).linkcount
  new : ∃ ino, ¬ s.Live ino
    ∧ Slots.lookup s'.dir = Function.update (Slots.lookup s.dir) name.bytes (some ino)
    ∧ (s'.file ino).size = 0 ∧ (s'.file ino).linkcount = 1

section Files

variable {lost lost' : ℕ → Prop} {s s' s'' : Fs} {p q : Ptr} {ino : ℕ} {name : Name}

namespace SameFiles

theorem refl (s : Fs) :
  SameFiles s s
  := ⟨rfl, rfl, fun _ _ _ => rfl, rfl⟩

theorem trans (h : SameFiles s s') (h' : SameFiles s' s'') :
  SameFiles s s''
  := by
  refine ⟨h'.dir.trans h.dir, h'.live.trans h.live, ?_, h'.links.trans h.links⟩
  intro j hj hl
  rw [h'.file j hj (by rw [h.live]; exact hl), h.file j hj hl]

theorem hasName (h : SameFiles s s') :
  s'.HasName = s.HasName
  := by
  funext j
  rw [Fs.HasName, Fs.HasName, h.dir]

/-- The link counts are the numbers of names, so they stay with the entries. -/
theorem of_stays (h : Consistent lost s) (h' : Consistent lost' s') (hs : Stays s s')
    (hdir : s'.dir = s.dir) (hlive : s'.Live = s.Live) :
  SameFiles s s'
  := by
  refine ⟨hdir, hlive, ?_, hs.links⟩
  intro j hj hl
  have hfile := hs.file j hj hl id
  have hlinks : (s'.file j).linkcount = (s.file j).linkcount := by
    apply UInt16.toNat_inj.mp
    rw [h'.links j hj (by rw [hlive]; exact hl), h.links j hj hl, hdir]
  rw [hlinks] at hfile
  exact hfile

end SameFiles

theorem Added.sameFiles (h : Added name s s') (h' : SameFiles s' s'') :
  Added name s s''
  := by
  obtain ⟨ino, hnew, hmap, hsize, hlinks⟩ := h.new
  have hmem : (name.bytes, ino) ∈ Slots.entries s'.dir := by
    apply Slots.mem_of_lookup
    rw [hmap, Function.update_self]
  have hino : ino ≠ 1 := by
    rintro rfl
    exact hnew s.live_root
  have hfile := h'.file ino hino (Consistent.live_of_entry hmem)
  refine ⟨h.missing, ?_, ?_, h'.links.trans h.links, ino, hnew, ?_, ?_, ?_⟩
  · rw [h'.live]
    exact h.live
  · intro j hj hlive
    rw [h'.file j hj (h.live j hlive), h.file j hj hlive]
  · rw [h'.dir]
    exact hmap
  · rw [hfile]
    exact hsize
  · rw [hfile]
    exact hlinks

/-- The files were as they are before the file is added. -/
theorem Added.of_sameFiles (h : SameFiles s s') (h' : Added name s' s'') :
  Added name s s''
  := by
  obtain ⟨hmissing, hlive, hfile, hlinks, hnew⟩ := h'
  rw [h.dir] at hmissing hnew
  rw [h.live] at hlive hfile hnew
  refine ⟨hmissing, hlive, ?_, hlinks.trans h.links, hnew⟩
  intro j hj hl
  rw [hfile j hj hl, h.file j hj hl]

/-! ### The steps that leave the files -/

theorem Declined.sameFiles (h : Consistent lost s) (hd : Declined lost' s s') :
  SameFiles s s'
  := SameFiles.of_stays h hd.consistent hd.stays hd.dir hd.live

theorem Fetched.sameFiles (hf : Fetched lost s.Live ino s p s') (hlive : s.Live ino) :
  SameFiles s s'
  := ⟨Consistent.dir_fetched hf, Consistent.live_fetched hf hlive, fun j _ hl => hf.file j hl,
    (hf.stays hlive).links⟩

theorem Released.sameFiles (hr : Released lost s.Live p s s') (h : Consistent lost s)
    (hp : p ∈ s.vnodes.guys) (hlast : ¬ s.Last p) :
  SameFiles s s'
  := by
  refine ⟨Consistent.dir_released hr h hp, ?_, ?_, (hr.kept h hp).links⟩
  · rw [Consistent.live_released hr h hp]
    funext j
    simp only [hlast, and_false, not_false_eq_true, and_true]
  · intro j _ hl
    exact hr.file j hl (fun hboth => hlast hboth.2)

theorem Flushed.sameFiles (hflush : Flushed lost s.Live p s s') :
  SameFiles s s'
  := ⟨Fs.dir_congr (hflush.toSame.file s.live_root), Consistent.live_flushed hflush,
    fun _ _ hl => hflush.toSame.file hl, by rw [hflush.toSame.file s.live_root]⟩

theorem Flushed.sameRefs (hflush : Flushed lost s.Live p s s') :
  SameRefs s s'
  := by
  apply SameRefs.of_forall
  intro q hq
  rw [hflush.vnodes]
  by_cases hqp : q = p
  · rw [hqp, hflush.self]
    exact ⟨hqp ▸ hq, rfl, rfl, rfl⟩
  · rw [hflush.others q hqp]
    exact ⟨hq, rfl, rfl, rfl⟩

/-- A change of the counts of the references and the open files. -/
theorem SameFiles.update {f : SfsVnode → SfsVnode} (h : Consistent lost s)
    (hp : p ∈ s.vnodes.guys) (hf : Catalog.Adjusted (s.heap p) (f (s.heap p)))
    (hi : (f (s.heap p)).i = (s.heap p).i) :
  SameFiles s (s.update p f) ∧ Consistent lost (s.update p f)
  := by
  have hfile : ∀ j, (s.update p f).file j = s.file j := by
    intro j
    rw [h.catalog.file_update hp hf, hi]
    split_ifs with hj
    · rw [hj, h.catalog.file_eq hp]
    · rfl
  have hlive : (s.update p f).Live = s.Live :=
    Fs.live_congr (Fs.resident_update hf.ino) (Fs.dir_congr (hfile 1))
  refine ⟨⟨Fs.dir_congr (hfile 1), hlive, fun j _ _ => hfile j, by rw [hfile]⟩, ?_⟩
  apply h.of_file
  · rw [hlive]
    exact h.catalog.update hp hf
  · exact hfile 1
  · intro i hi hl
    rw [hlive] at hl
    rw [hfile]
    exact h.links i hi hl

/-- A file that is made is the only change. -/
theorem Created.added (hf : Created lost s name q s') (h : Consistent lost' s) :
  Added name s s'
  := by
  have hcount := Slots.count_perm
    (Slots.entries_perm_of_lookup h.distinct hf.consistent.distinct hf.missing hf.map)
  have hmem := Fs.live_of_mem hf.held.mem
  refine ⟨hf.missing, fun j => Stays.live hf.stays, ?_, hf.stays.links, (s'.heap q).ino, hf.new,
    hf.map, hf.empty, ?_⟩
  · intro j hj hl
    have hfile := hf.stays.file j hj hl id
    have hne : j ≠ (s'.heap q).ino := by
      rintro rfl
      exact hf.new hl
    have hlinks : (s'.file j).linkcount = (s.file j).linkcount := by
      apply UInt16.toNat_inj.mp
      rw [hf.consistent.links j hj (Stays.live hf.stays hl), h.links j hj hl, hcount, if_neg hne,
        Nat.add_zero]
    rw [hlinks] at hfile
    exact hfile
  · have hone : (s'.heap q).ino ≠ 1 := by
      intro hone
      apply hf.new
      rw [hone]
      exact s.live_root
    -- the new inode has no other name, as it was not live
    have hzero : Slots.count s.dir (s'.heap q).ino = 0 := by
      by_contra hpos
      obtain ⟨x, hx⟩ := Slots.count_pos_iff.mp (Nat.pos_of_ne_zero hpos)
      exact hf.new (Consistent.live_of_entry hx)
    apply UInt16.toNat_inj.mp
    rw [hf.consistent.links _ hone hmem, hcount, if_pos rfl, hzero]
    rfl

/-- A step that adds a name leaves the other names. -/
theorem Fs.HasName.update {x : List UInt8} {i : ℕ} (h : s.HasName ino)
    (hx : Slots.lookup s.dir x = none)
    (hmap : Slots.lookup s'.dir = Function.update (Slots.lookup s.dir) x (some i)) :
  s'.HasName ino
  := by
  rcases h with hone | ⟨y, hy⟩
  · exact .inl hone
  · right
    use y
    rw [hmap, Function.update_of_ne, hy]
    rintro rfl
    rw [hx] at hy
    cases hy

/-- A file that has a name is not the file of a last reference. -/
theorem Fs.HasName.not_last (h : s.HasName (s.heap p).ino) (hc : Consistent lost s)
    (hp : p ∈ s.vnodes.guys) :
  ¬ s.Last p
  := by
  rcases h with hone | ⟨x, hx⟩
  · intro hlast
    exact hc.not_last_root hp ⟨hone.symm, hlast⟩
  · exact hc.not_last_of_entry hp (Slots.mem_of_lookup hx)

end Files

/-! ### The references after a step -/

namespace Holding

variable {lost lost' : ℕ → Prop} {s s' : Fs} {p q : Ptr} {ino : ℕ} {name n1 n2 : Name}
  {dirs refs : List Ptr}

theorem perm {refs' : List Ptr} (h : Holding dirs refs s) (hperm : refs.Perm refs') :
  Holding dirs refs' s
  := by
  have hall := hperm.append_left dirs
  refine ⟨h.consistent, ?_, ?_, h.rooted, ?_⟩
  · intro p hp
    exact h.loaded p (hall.mem_iff.mpr hp)
  · intro p hp
    rw [← hall.count_eq]
    exact h.spare p hp
  · intro p hp
    exact h.named p (hperm.mem_iff.mpr hp)

theorem mem (h : Holding dirs (q :: refs) s) :
  q ∈ s.vnodes.guys
  := h.loaded q (List.mem_append_right _ List.mem_cons_self)

/-- No reference is held to a vnode that is not in the table. -/
theorem count_eq_zero (h : Holding dirs refs s) (hq : q ∉ s.vnodes.guys) :
  (dirs ++ refs).count q = 0
  := by
  apply List.count_eq_zero.mpr
  intro hmem
  exact hq (h.loaded q hmem)

theorem count_cons (dirs refs : List Ptr) (p q : Ptr) :
  (dirs ++ q :: refs).count p = (dirs ++ refs).count p + if p = q then 1 else 0
  := by
  rw [List.count_append, List.count_append, List.count_cons]
  simp only [beq_iff_eq, eq_comm (a := q)]
  omega

/-- A reference to the root directory is one that a call can take. -/
theorem hasName_of_mem (h : Holding dirs refs s) (hp : p ∈ dirs ++ refs) :
  s.HasName (s.heap p).ino
  := by
  rcases List.mem_append.mp hp with hdir | href
  · exact .inl (h.rooted p hdir)
  · exact h.named p href

/-- A vnode is handed out. -/
theorem fetched (h : Holding dirs refs s) (hc : Consistent lost s)
    (hf : Fetched lost s.Live ino s q s') (hlive : s.Live ino) (hname : s.HasName ino) :
  Unchanged dirs (q :: refs) s s'
  := by
  have hsame := hf.sameFiles hlive
  have hkeeps : ∀ p ∈ dirs ++ refs, p ∈ s'.vnodes.guys ∧ (s'.heap p).ino = (s.heap p).ino :=
    fun p hp => hf.keeps (h.loaded p hp)
  refine ⟨⟨⟨lost, hc.fetched hf hlive⟩, ?_, ?_, ?_, ?_⟩, hsame, fun p hp _ => (hf.keeps hp).2⟩
  · intro p hp
    rw [List.mem_append, List.mem_cons] at hp
    rcases hp with hdir | rfl | href
    · exact (hkeeps p (List.mem_append_left _ hdir)).1
    · exact hf.mem
    · exact (hkeeps p (List.mem_append_right _ href)).1
  · intro p hp
    rw [count_cons]
    by_cases hpq : p = q
    · subst hpq
      rw [if_pos rfl]
      by_cases hold : p ∈ s.vnodes.guys
      · have hspare := h.spare p hold
        rw [hf.old hold]
        change (s.heap p).opencount + _ ≤ (s.heap p).refcount + 1
        omega
      · obtain ⟨href, hopen⟩ := hf.new hold
        rw [h.count_eq_zero hold, href, hopen]
    · have hold := (hf.vnodes.mem p hpq).mp hp
      rw [if_neg hpq, hf.vnodes.heap p hold hpq]
      exact h.spare p hold
  · intro p hp
    rw [(hkeeps p (List.mem_append_left _ hp)).2]
    exact h.rooted p hp
  · intro p hp
    rw [hsame.hasName]
    rcases List.mem_cons.mp hp with rfl | href
    · rw [hf.ino_eq]
      exact hname
    · rw [(hkeeps p (List.mem_append_right _ href)).2]
      exact h.named p href

/-- A reference is dropped: the vnodes of the others stay. -/
theorem released (h : Holding dirs (q :: refs) s) (hc : Consistent lost s)
    (hr : Released lost s.Live q s s') :
  Unchanged dirs refs s s'
  := by
  have hlast := (h.named q List.mem_cons_self).not_last hc h.mem
  have hsame := hr.sameFiles hc h.mem hlast
  have hspare := h.spare q h.mem
  rw [count_cons, if_pos rfl] at hspare
  have hkeeps : ∀ p ∈ dirs ++ refs, p ∈ s'.vnodes.guys ∧ (s'.heap p).ino = (s.heap p).ino := by
    intro p hp
    have hmem : p ∈ s.vnodes.guys := by
      apply h.loaded
      rw [List.mem_append, List.mem_cons]
      rcases List.mem_append.mp hp with hdir | href
      · exact .inl hdir
      · exact .inr (.inr href)
    by_cases hpq : p = q
    · subst hpq
      have hcount := List.count_pos_iff.mpr hp
      have hlt : 1 < (s.heap p).refcount := by omega
      exact ⟨hr.mem.mpr hlt, by rw [hr.heap hlt]⟩
    · exact ⟨(hr.vnodes.mem p hpq).mpr hmem, by rw [hr.vnodes.heap p hmem hpq]⟩
  refine ⟨⟨⟨lost, hc.released hr h.mem⟩, fun p hp => (hkeeps p hp).1, ?_, ?_, ?_⟩, hsame, ?_⟩
  · intro p hp
    by_cases hpq : p = q
    · subst hpq
      have hlt := hr.mem.mp hp
      rw [hr.heap hlt]
      change (s.heap p).opencount + _ ≤ (s.heap p).refcount - 1
      omega
    · have hold := (hr.vnodes.mem p hpq).mp hp
      have hothers := h.spare p hold
      rw [count_cons, if_neg hpq] at hothers
      rw [hr.vnodes.heap p hold hpq]
      exact hothers
  · intro p hp
    rw [(hkeeps p (List.mem_append_left _ hp)).2]
    exact h.rooted p hp
  · intro p hp
    rw [(hkeeps p (List.mem_append_right _ hp)).2, hsame.hasName]
    exact h.named p (List.mem_cons_of_mem _ hp)
  · intro p hp hp'
    by_cases hpq : p = q
    · subst hpq
      rw [hr.heap (hr.mem.mp hp')]
    · rw [hr.vnodes.heap p hp hpq]

section

variable (h : Holding dirs refs s)
include h

/-- A step that leaves the counts, and names to the files of the call. -/
theorem sameRefs (hc : Consistent lost' s') (hrefs : SameRefs s s')
    (hname : ∀ p ∈ refs, s'.HasName (s.heap p).ino) :
  Holding dirs refs s'
  := by
  refine ⟨⟨lost', hc⟩, fun p hp => hrefs.mem p (h.loaded p hp), ?_, ?_, ?_⟩
  · intro p hp
    by_cases hold : p ∈ s.vnodes.guys
    · rw [hrefs.opencount p hold, hrefs.refcount p hold]
      exact h.spare p hold
    · rw [h.count_eq_zero hold]
      exact hc.catalog.opens p hp
  · intro p hp
    rw [hrefs.ino p (h.loaded p (List.mem_append_left _ hp))]
    exact h.rooted p hp
  · intro p hp
    rw [hrefs.ino p (h.loaded p (List.mem_append_right _ hp))]
    exact hname p hp

/-- A step that leaves the counts and the files. -/
theorem sameFiles (hc : Consistent lost' s') (hrefs : SameRefs s s') (hsame : SameFiles s s') :
  Holding dirs refs s'
  := by
  apply h.sameRefs hc hrefs
  intro p hp
  rw [hsame.hasName]
  exact h.named p hp

theorem declined (hd : Declined lost' s s') :
  Unchanged dirs refs s s'
  := by
  obtain ⟨lost, hc⟩ := h.consistent
  have hsame := hd.sameFiles hc
  exact ⟨h.sameFiles hd.consistent hd.refs hsame, hsame, fun p hp _ => hd.refs.ino p hp⟩

/-- A file is handed out by its name. -/
theorem found (hc : Consistent lost s) (hf : Found lost s name q s') :
  Unchanged dirs (q :: refs) s s'
  := by
  have hlive := Consistent.live_of_entry (Slots.mem_of_lookup hf.found)
  exact h.fetched hc hf.fetched hlive (.inr ⟨name.bytes, hf.found⟩)

/-- A file is made and handed out. -/
theorem created (hf : Created lost s name q s') :
  Holding dirs (q :: refs) s'
  := by
  have hnew : q ∉ s.vnodes.guys := by
    intro hq
    apply hf.new
    rw [hf.refs.ino q hq]
    exact Fs.live_of_mem hq
  have hold := h.sameRefs hf.consistent hf.refs
    (fun p hp => (h.named p hp).update hf.missing hf.map)
  refine ⟨hold.consistent, ?_, ?_, hold.rooted, ?_⟩
  · intro p hp
    rw [List.mem_append, List.mem_cons] at hp
    rcases hp with hdir | rfl | href
    · exact hold.loaded p (List.mem_append_left _ hdir)
    · exact hf.held.mem
    · exact hold.loaded p (List.mem_append_right _ href)
  · intro p hp
    rw [count_cons]
    by_cases hpq : p = q
    · subst hpq
      have hspare := hf.held.spare
      rw [if_pos rfl, h.count_eq_zero hnew]
      omega
    · rw [if_neg hpq]
      exact hold.spare p hp
  · intro p hp
    rcases List.mem_cons.mp hp with rfl | href
    · exact .inr ⟨name.bytes, by rw [hf.map, Function.update_self]⟩
    · exact hold.named p href

/-- A name is added to a file. -/
theorem linked (hn : Named lost s name ino s') :
  Holding dirs refs s'
  := by
  apply h.sameRefs hn.consistent hn.refs
  intro p hp
  exact (h.named p hp).update hn.missing hn.map

/-- A name is removed, while only the root directory is referred to. -/
theorem removed (hr : Removed lost s name s') (hroot : ∀ p ∈ refs, (s.heap p).ino = 1) :
  Holding dirs refs s'
  := by
  apply h.sameRefs hr.consistent hr.refs
  intro p hp
  exact .inl (hroot p hp)

/-- A file gets another name, while only the root directory is referred to. -/
theorem renamed (hr : Renamed lost s n1 n2 s') (hroot : ∀ p ∈ refs, (s.heap p).ino = 1) :
  Holding dirs refs s'
  := by
  apply h.sameRefs hr.consistent hr.refs
  intro p hp
  exact .inl (hroot p hp)

end

/-! ### Counts of the vnodes -/

/-- A change of the counts of a vnode. -/
theorem update {f : SfsVnode → SfsVnode} {refs' : List Ptr} (h : Holding dirs refs s)
    (hq : q ∈ s.vnodes.guys) (hf : Catalog.Adjusted (s.heap q) (f (s.heap q)))
    (hi : (f (s.heap q)).i = (s.heap q).i) (hname : s.HasName (s.heap q).ino)
    (hrefs' : ∀ p, p ≠ q → refs'.count p = refs.count p)
    (hspare : (f (s.heap q)).opencount + (dirs ++ refs').count q ≤ (f (s.heap q)).refcount) :
  Unchanged dirs refs' s (s.update q f)
  := by
  obtain ⟨lost, hc⟩ := h.consistent
  obtain ⟨hsame, hcons⟩ := SameFiles.update hc hq hf hi
  have hmem : ∀ p ∈ refs', p = q ∨ p ∈ refs := by
    intro p hp
    by_cases hpq : p = q
    · exact .inl hpq
    · right
      apply List.count_pos_iff.mp
      rw [← hrefs' p hpq]
      exact List.count_pos_iff.mpr hp
  refine ⟨⟨⟨lost, hcons⟩, ?_, ?_, ?_, ?_⟩, hsame, fun p _ _ => Catalog.ino_update hf p⟩
  · intro p hp
    rcases List.mem_append.mp hp with hdir | href
    · exact h.loaded p (List.mem_append_left _ hdir)
    · rcases hmem p href with rfl | hold
      · exact hq
      · exact h.loaded p (List.mem_append_right _ hold)
  · intro p hp
    rw [Fs.heap_update]
    split_ifs with hpq
    · rw [hpq]
      exact hspare
    · have hold := h.spare p hp
      rwa [List.count_append, ← hrefs' p hpq, ← List.count_append] at hold
  · intro p hp
    rw [Catalog.ino_update hf]
    exact h.rooted p hp
  · intro p hp
    rw [Catalog.ino_update hf, hsame.hasName]
    rcases hmem p hp with rfl | hold
    · exact hname
    · exact h.named p hold

/-- A file is opened: the reference is the one of the open file then. -/
theorem opened (h : Holding dirs (q :: refs) s) :
  Unchanged dirs refs s (s.update q fun vn => { vn with opencount := vn.opencount + 1 })
  := by
  have hspare := h.spare q h.mem
  rw [count_cons, if_pos rfl] at hspare
  apply h.update h.mem
  · refine ⟨rfl, rfl, rfl, ?_, ?_, fun hc => ⟨hc, rfl⟩⟩
    · change 0 < (s.heap q).refcount
      omega
    · change (s.heap q).opencount + 1 ≤ (s.heap q).refcount
      omega
  · rfl
  · exact h.named q List.mem_cons_self
  · intro p hpq
    rw [List.count_cons_of_ne (Ne.symm hpq)]
  · change (s.heap q).opencount + 1 + _ ≤ (s.heap q).refcount
    omega

/-- A file is closed: the reference of the open file is left. -/
theorem closed (h : Holding dirs refs s) (hq : q ∈ s.vnodes.guys)
    (hopen : 0 < (s.heap q).opencount) (hname : s.HasName (s.heap q).ino) :
  Unchanged dirs (q :: refs) s
    (s.update q fun vn => { vn with opencount := vn.opencount - 1 })
  := by
  have hspare := h.spare q hq
  apply h.update hq
  · refine ⟨rfl, rfl, rfl, ?_, ?_, fun hc => ⟨hc, rfl⟩⟩
    · change 0 < (s.heap q).refcount
      omega
    · change (s.heap q).opencount - 1 ≤ (s.heap q).refcount
      omega
  · rfl
  · exact hname
  · intro p hpq
    rw [List.count_cons_of_ne (Ne.symm hpq)]
  · rw [count_cons, if_pos rfl]
    change (s.heap q).opencount - 1 + _ ≤ (s.heap q).refcount
    omega

/-- A vnode that is held gets another reference. -/
theorem incref (h : Holding dirs refs s) (hq : q ∈ dirs ++ refs) :
  Unchanged dirs (q :: refs) s
    (s.update q fun vn => { vn with refcount := vn.refcount + 1 })
  := by
  obtain ⟨lost, hc⟩ := h.consistent
  have hmem := h.loaded q hq
  exact h.fetched hc (Fetched.incref hc.catalog hmem) (Fs.live_of_mem hmem) (h.hasName_of_mem hq)

/-- A reference is dropped that is not the last one. -/
theorem decref (h : Holding dirs (q :: refs) s) (hlt : 1 < (s.heap q).refcount) :
  Unchanged dirs refs s (s.update q fun vn => { vn with refcount := vn.refcount - 1 })
  := by
  obtain ⟨lost, hc⟩ := h.consistent
  have hspare := h.spare q h.mem
  rw [count_cons, if_pos rfl] at hspare
  exact h.released hc (Released.update hc.catalog h.mem hlt (by omega))

end Holding

/-! ### The operations -/

section Operations

variable {dirs refs : List Ptr} {s : Fs} {p q : Ptr} {name n1 n2 : Name}

theorem Unchanged.refl (h : Holding dirs refs s) :
  Unchanged dirs refs s s
  := ⟨h, SameFiles.refl s, fun _ _ _ => rfl⟩

/-- `VOP_RECLAIM`, of the last reference. -/
theorem vopReclaim_spec (h : Holding dirs (q :: refs) s) (href : (s.heap q).refcount = 1) :
  wp (vopReclaim q) s (fun _ s' => Unchanged dirs refs s s')
  := by
  obtain ⟨lost, hc⟩ := h.consistent
  have hspare := h.spare q h.mem
  rw [Holding.count_cons, if_pos rfl] at hspare
  have hlinks : (s.heap q).i.linkcount ≠ 0 := by
    intro hzero
    exact (h.named q List.mem_cons_self).not_last hc h.mem ⟨href, hzero⟩
  simp only [vopReclaim, vnodeCheck, wp_bind, wp_get, wp_assert]
  refine ⟨by rw [hc.catalog.ops q h.mem]; exact Option.some_ne_none _,
    fun hboth => Bool.noConfusion hboth.2, ?_⟩
  apply wp_sure (reclaim_linked hc.catalog h.mem href (by omega) hlinks)
  intro _ s' hr
  exact h.released hc hr

variable (h : Holding dirs refs s)
include h

/-- `sfs_getroot`, which panics if memory is refused. -/
theorem fsGetroot_spec :
  wlp (fun panic => panic = .getroot) fsGetroot s
    (fun q s' => (s'.heap q).ino = 1 ∧ Unchanged dirs (q :: refs) s s')
  := by
  obtain ⟨lost, hc⟩ := h.consistent
  simp only [fsGetroot, wlp_bind, wlp_attempt]
  apply wlp_of_wp
  apply wp_mono (loadvnode_spec hc.catalog s.live_root)
  · intro q s' hf
    exact (wlp_pure q).mpr ⟨hf.ino_eq, h.fetched hc hf s.live_root (.inl rfl)⟩
  · intro e s' _
    exact (wlp_panic _).mpr rfl

/-- `VOP_OPEN` refuses `O_APPEND`, and to open a directory for writing. -/
theorem vopOpen_spec (hp : p ∈ s.vnodes.guys) (openflags : UInt32) :
  wp (vopOpen p openflags) s
    (fun _ s' => ((s.heap p).ino = 1 → openflags &&& 3 = 0) ∧ s' = s)
    (fun _ s' => ((s.heap p).ino ≠ 1 → openflags &&& 32 ≠ 0) ∧ s' = s)
  := by
  obtain ⟨lost, hc⟩ := h.consistent
  apply wp_vop hc.catalog.toVnodesOk hp
  · intro hne
    simp only [openFile, wp_ite, wp_fail, wp_pure]
    exact ⟨fun happend => ⟨fun _ => happend, trivial⟩,
      fun _ => ⟨fun hone => absurd hone hne, trivial⟩⟩
  · intro hone
    have hdir : (s.heap p).ino ≠ 1 → openflags &&& 32 ≠ 0 := fun hne => absurd hone hne
    simp only [opendir, wp_ite, wp_fail, wp_pure]
    exact ⟨fun _ => ⟨hdir, trivial⟩, fun hread => ⟨fun _ => ⟨hdir, trivial⟩,
      fun _ => ⟨fun _ => not_not.mp hread, trivial⟩⟩⟩

theorem vopClose_spec (hp : p ∈ s.vnodes.guys) :
  wp (vopClose p) s (fun _ s' => Unchanged dirs refs s s')
  := by
  obtain ⟨lost, hc⟩ := h.consistent
  have hsync : wp (vopFsync p) s (fun _ s' => Unchanged dirs refs s s') := by
    have hflush : wp (fsync p) s (fun _ s' => Unchanged dirs refs s s') := by
      apply wp_sure (syncInode_spec hc.catalog hp)
      intro _ s' hflush
      have hsame := hflush.sameFiles
      exact ⟨h.sameFiles (hc.flushed hflush) hflush.sameRefs hsame, hsame,
        fun p hp _ => hflush.sameRefs.ino p hp⟩
    exact wp_vop hc.catalog.toVnodesOk hp (fun _ => hflush) (fun _ => hflush)
  exact wp_vop hc.catalog.toVnodesOk hp (fun _ => hsync) (fun _ => hsync)

/-- `VOP_TRUNCATE` to an empty file, which fails for a directory only. -/
theorem vopTruncate_spec (hp : p ∈ s.vnodes.guys) :
  wp (vopTruncate p 0) s (fun _ s' => Holding dirs refs s')
    (fun _ s' => (s.heap p).ino = 1 ∧ s' = s)
  := by
  obtain ⟨lost, hc⟩ := h.consistent
  apply wp_vop_file hc.catalog.toVnodesOk hp fun hroot => ⟨hroot, rfl⟩
  intro hne
  apply wp_sure (truncate_spec hc.catalog.sound (hc.catalog.fileOk hp) (by decide))
  intro _ s' htrunc
  have hstep := htrunc.toFileStep
  apply h.sameRefs (hc.fileStep hp hstep hne _) hstep.sameRefs
  · intro q hq
    have hroot := hc.file_root_fileStep hp hstep hne
    rw [Fs.HasName, Fs.dir_congr hroot]
    exact h.named q hq
  · rw [htrunc.size]
    decide

theorem vopLookup_spec (hp : p ∈ s.vnodes.guys) (path : Name) :
  wp (vopLookup p path) s
    (fun q s' => (s'.heap q).ino ≠ 1 ∧ Unchanged dirs (q :: refs) s s')
    (fun _ s' => Unchanged dirs refs s s')
  := by
  obtain ⟨lost, hc⟩ := h.consistent
  apply wp_vop_dir hc.catalog.toVnodesOk hp fun _ => Unchanged.refl h
  intro hroot
  apply wp_mono (lookup_spec hc hp hroot path)
  · intro q s' hf
    exact ⟨hc.ne_root (Slots.mem_of_lookup hf.found), h.found hc hf⟩
  · rintro e s' ⟨hdecl, -⟩
    exact h.declined hdecl

/-- `VOP_LOOKPARENT` hands back the directory itself. -/
theorem vopLookparent_spec (hp : p ∈ dirs ++ refs) (path : Name) (buflen : ℕ) :
  wp (vopLookparent p path buflen) s
    (fun q s' => (s'.heap q).ino = 1 ∧ Unchanged dirs (q :: refs) s s')
    (fun _ s' => Unchanged dirs refs s s')
  := by
  obtain ⟨lost, hc⟩ := h.consistent
  have hmem := h.loaded p hp
  apply wp_vop_dir hc.catalog.toVnodesOk hmem fun _ => Unchanged.refl h
  intro hroot
  simp only [lookparent, incref, wp_bind, wp_get, wp_ite, wp_fail, wp_modify, wp_pure]
  refine ⟨fun _ => Unchanged.refl h, fun _ => ⟨fun _ => Unchanged.refl h, fun _ => ?_⟩⟩
  refine ⟨?_, h.incref hp⟩
  rw [Fs.heap_update_self]
  exact hroot

/-- `VOP_CREAT` hands back a file, which may be a new one. -/
theorem vopCreat_spec (hp : p ∈ s.vnodes.guys) (name : Name) (excl : Bool) :
  wp (vopCreat p name excl) s
    (fun q s' => Unchanged dirs (q :: refs) s s'
      ∨ Holding dirs (q :: refs) s' ∧ Added name s s' ∧ (s'.heap q).ino ≠ 1)
    (fun _ s' => Unchanged dirs refs s s')
  := by
  obtain ⟨lost, hc⟩ := h.consistent
  apply wp_vop_dir hc.catalog.toVnodesOk hp fun _ => Unchanged.refl h
  intro hroot
  apply wp_mono (creat_spec hc hp hroot name excl)
  · rintro q s' (hcreated | ⟨-, hfound⟩)
    · refine .inr ⟨h.created hcreated, hcreated.added hc, fun hone => hcreated.new ?_⟩
      rw [hone]
      exact s.live_root
    · exact .inl (h.found hc hfound)
  · rintro e s' ⟨⟨lost', hdecl, -⟩, -⟩
    exact h.declined hdecl

/-- `VOP_LINK`, of a regular file, or under a name that is taken or too long. -/
theorem vopLink_spec (hp : p ∈ s.vnodes.guys) (hq : q ∈ s.vnodes.guys)
    (hcan : (s.heap q).ino = 1 → Slots.lookup s.dir name.bytes ≠ none ∨ 60 ≤ name.length) :
  wp (vopLink p name q) s
    (fun _ s' => (s.heap q).ino ≠ 1 ∧ Holding dirs refs s')
    (fun _ s' => Unchanged dirs refs s s')
  := by
  obtain ⟨lost, hc⟩ := h.consistent
  apply wp_vop_dir hc.catalog.toVnodesOk hp fun _ => Unchanged.refl h
  intro hroot
  by_cases hone : (s.heap q).ino = 1
  · simp only [link, wp_bind, wp_get]
    apply wp_mono (dirLink_root hc hp hroot hq name)
    · intro k s' hl
      have hnone := hl.lookup
      rw [hc.slots_eq hp hroot] at hnone
      rcases hcan hone with htaken | hlong
      · exact absurd hnone htaken
      · exact absurd hl.length (Nat.not_lt.mpr hlong)
    · intro e s' hn
      exact h.declined (hn.declined hc hp hroot)
  · apply wp_mono (link_spec hc hp hroot hq hone name)
    · intro _ s' hnamed
      exact ⟨hone, h.linked hnamed⟩
    · rintro e s' ⟨hdecl, -⟩
      exact h.declined hdecl

/-- `VOP_REMOVE`, while only the root directory is referred to. -/
theorem vopRemove_spec (hp : p ∈ s.vnodes.guys) (hroots : ∀ p ∈ refs, (s.heap p).ino = 1)
    (name : Name) :
  wp (vopRemove p name) s (fun _ s' => Holding dirs refs s')
    (fun _ s' => Holding dirs refs s')
  := by
  obtain ⟨lost, hc⟩ := h.consistent
  apply wp_vop_dir hc.catalog.toVnodesOk hp fun _ => h
  intro hroot
  apply wp_mono (remove_spec hc hp hroot name)
  · intro _ s' hremoved
    exact h.removed hremoved hroots
  · rintro e s' ⟨hdecl, -⟩
    exact (h.declined hdecl).holding

/-- `VOP_RENAME` from and to the root directory. -/
theorem vopRename_spec (hp : p ∈ s.vnodes.guys) (hq : q ∈ s.vnodes.guys)
    (hproot : (s.heap p).ino = 1) (hqroot : (s.heap q).ino = 1)
    (hroots : ∀ p ∈ refs, (s.heap p).ino = 1) (n1 n2 : Name) :
  wp (vopRename p n1 q n2) s (fun _ s' => Holding dirs refs s')
    (fun _ s' => Holding dirs refs s')
  := by
  obtain ⟨lost, hc⟩ := h.consistent
  -- there is only one directory
  obtain rfl : p = q := hc.catalog.inos p hp q hq (hproot.trans hqroot.symm)
  apply wp_vop_dir hc.catalog.toVnodesOk hp (absurd hproot)
  intro hroot
  apply wp_mono (rename_spec hc hp hroot n1 n2)
  · intro _ s' hrenamed
    exact h.renamed hrenamed hroots
  · rintro e s' ⟨hdecl, -⟩
    exact (h.declined hdecl).holding

end Operations

end Sfs
