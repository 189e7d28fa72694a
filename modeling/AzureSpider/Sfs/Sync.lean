import AzureSpider.Sfs.Layout
import AzureSpider.Sfs.Mount
import AzureSpider.Sfs.Report
import Mathlib.Data.List.Nodup

/-!
# What a sync stores

`sfs_sync` writes the inodes that are dirty, the free map if it is dirty and the superblock if
it is dirty, one request after another, and each request takes the coming result of the device.
A request that meets a media error is tried again without its data and is reported as done
(see `Report`), so what it should have stored is marked clean and is lost.

A sync that returns 0 is complete exactly when nothing was lost: what was clean is on the disk,
and each request of the sync met a device that stored it, or a block that held its data
already.
-/

open Machine Routine

/-! ### Requests to a disk -/

namespace Lhd

variable {d : Lhd} {b k : ℕ} {w : ℕ × Buf 512 UInt8} {ws : List (ℕ × Buf 512 UInt8)}

/-- The disk after a request to write a block that was reported as done: the data is stored if
the device had no error to report. -/
def attempted (d : Lhd) (w : ℕ × Buf 512 UInt8) : Lhd :=
  if d.nextResult = .ok then d.completed.put w.1 w.2 else d.completed

/-- The disk after a series of requests. -/
def attempts (d : Lhd) (ws : List (ℕ × Buf 512 UInt8)) : Lhd := ws.foldl attempted d

/-- The result of a coming operation. -/
def resultAt (d : Lhd) (k : ℕ) : LhdStatus := d.results.getD k .ok

theorem disk_attempted (d : Lhd) (w : ℕ × Buf 512 UInt8) (b : ℕ) :
  (d.attempted w).disk b = if d.resultAt 0 = .ok ∧ b = w.1 then w.2 else d.disk b
  := by
  have hnext : d.resultAt 0 = d.nextResult := by
    rw [resultAt, nextResult, List.getD_eq_getElem?_getD, List.head?_eq_getElem?]
  rw [hnext, attempted]
  by_cases hok : d.nextResult = .ok
  · rw [if_pos hok]
    simp only [hok, true_and]
    rfl
  · rw [if_neg hok, if_neg (fun h => hok h.1)]
    rfl

theorem resultAt_attempted (d : Lhd) (w : ℕ × Buf 512 UInt8) (k : ℕ) :
  (d.attempted w).resultAt k = d.resultAt (k + 1)
  := by
  have hresults : (d.attempted w).results = d.results.tail := by
    unfold attempted
    split
    · rfl
    · rfl
  rw [resultAt, resultAt, hresults, List.getD_eq_getElem?_getD, List.getD_eq_getElem?_getD,
    List.getElem?_tail]

theorem attempts_cons (d : Lhd) (w : ℕ × Buf 512 UInt8) (ws : List (ℕ × Buf 512 UInt8)) :
  d.attempts (w :: ws) = (d.attempted w).attempts ws
  := rfl

/-- A block that no request names is as it was. -/
theorem disk_attempts_of_not_mem (h : b ∉ ws.map Prod.fst) :
  (d.attempts ws).disk b = d.disk b
  := by
  induction ws generalizing d with
  | nil => rfl
  | cons w ws ih =>
    rw [List.map_cons, List.mem_cons, not_or] at h
    obtain ⟨hne, hout⟩ := h
    rw [attempts_cons, ih hout, disk_attempted, if_neg (fun hand => hne hand.2)]

/-- Of requests for different blocks, each stores its data if its result is a success. -/
theorem disk_attempts (hnodup : (ws.map Prod.fst).Nodup) (hk : ws[k]? = some w) :
  (d.attempts ws).disk w.1 = if d.resultAt k = .ok then w.2 else d.disk w.1
  := by
  induction ws generalizing d k with
  | nil => simp at hk
  | cons w₀ ws ih =>
    rw [List.map_cons, List.nodup_cons] at hnodup
    obtain ⟨hout, hnodup⟩ := hnodup
    cases k with
    | zero =>
      obtain rfl : w₀ = w := by simpa using hk
      rw [attempts_cons, disk_attempts_of_not_mem hout, disk_attempted]
      simp only [and_true]
    | succ k =>
      rw [List.getElem?_cons_succ] at hk
      have hne : w.1 ≠ w₀.1 := by
        intro heq
        apply hout
        rw [← heq]
        exact List.mem_map_of_mem (List.mem_of_getElem? hk)
      rw [attempts_cons, ih hnodup hk, resultAt_attempted, disk_attempted]
      simp only [hne, and_false, if_false]

/-- When the data of a request is on the disk after all requests. -/
theorem disk_attempts_eq_iff (hnodup : (ws.map Prod.fst).Nodup) (hk : ws[k]? = some w) :
  (d.attempts ws).disk w.1 = w.2 ↔ d.resultAt k = .ok ∨ d.disk w.1 = w.2
  := by
  rw [disk_attempts hnodup hk]
  by_cases hok : d.resultAt k = .ok
  · simp [hok]
  · simp [hok]

end Lhd

namespace Sfs

/-! ### The requests of a sync -/

/-- The requests for the dirty inodes of vnodes. -/
def inodeWrites (s : Fs) (ps : List Ptr) : List (ℕ × Block) :=
  (ps.filter fun p => (s.heap p).dirty).map fun p => ((s.heap p).ino, (s.heap p).i.encode)

/-- The requests for the blocks of the free map from one on. -/
def mapWrites (s : Fs) (j n : ℕ) : List (ℕ × Block) :=
  (List.range' j n).map fun j => (2 + j, mapBlock s.freemap.v j)

/-- The requests of a sync, in the order they are made. -/
def Mounted.writes (m : Mounted) : List (ℕ × Block) :=
  inodeWrites m.fs m.fs.vnodes.guys
    ++ ((if m.fs.freemapdirty then mapWrites m.fs 0 (bitBlocks m.fs.nblocks) else [])
      ++ (if m.superdirty then [(0, m.super.encode)] else []))

/-- The volume with a vnode marked clean. -/
def Fs.cleaned (s : Fs) (p : Ptr) : Fs := s.update p fun v => { v with dirty := false }

/-- The volume after requests to its device. -/
def Fs.attempts (s : Fs) (ws : List (ℕ × Block)) : Fs :=
  { s with device := s.device.attempts ws }

section Requests

variable {s s' : Fs} {m m' : Mounted} {b : ℕ} {data : Block} {p : Ptr} {ps : List Ptr}

attribute [local irreducible] wlp

theorem Fs.attempts_append (s : Fs) (ws ws' : List (ℕ × Block)) :
  s.attempts (ws ++ ws') = (s.attempts ws).attempts ws'
  := by
  simp only [Fs.attempts, Lhd.attempts, List.foldl_append]

/-- A request either panics or is reported as done. -/
theorem wblock_attempted (hb : b < 2 ^ 22) :
  wlp (fun _ => True) (wblock data b) s (fun _ s' => s' = s.attempts [(b, data)])
  := by
  have hattempted : s.attempts [(b, data)] = { s with device := s.device.attempted (b, data) } :=
    rfl
  rw [hattempted, Lhd.attempted]
  rcases wblock_cases s b data with ⟨-, q, hpanic⟩ | ⟨hnext, hok⟩ | ⟨hnext, hok⟩
  · exact wlp_of_panic hpanic trivial
  · rw [sectorOfBlock_eq hb] at hok
    rw [if_pos hnext]
    exact wlp_of_wp (wp_of_ok hok rfl)
  · rw [hnext, if_neg (by decide)]
    exact wlp_of_wp (wp_of_ok hok rfl)

/-! ### Syncing the vnodes -/

theorem Fs.cleaned_of_clean (h : (s.heap p).dirty = false) :
  s.cleaned p = s
  := by
  obtain ⟨device, nblocks, vnodes, freemap, freemapdirty, heap, next, kmallocs⟩ := s
  simp only [Fs.cleaned, Fs.update, Fs.mk.injEq, true_and, and_true]
  funext q
  split_ifs with heq
  · subst heq
    rw [← h]
  · rfl

theorem heap_foldl_cleaned (ps : List Ptr) (s : Fs) (q : Ptr) :
  (ps.foldl Fs.cleaned s).heap q
    = if q ∈ ps then { s.heap q with dirty := false } else s.heap q
  := by
  induction ps generalizing s with
  | nil => rfl
  | cons p ps ih =>
    rw [List.foldl_cons, ih, Fs.cleaned, Fs.heap_update]
    by_cases hq : q = p
    · subst hq
      simp
    · simp [hq]

theorem foldl_cleaned_attempts (ps : List Ptr) (s : Fs) (ws : List (ℕ × Block)) :
  ps.foldl Fs.cleaned (s.attempts ws) = (ps.foldl Fs.cleaned s).attempts ws
  := by
  induction ps generalizing s with
  | nil => rfl
  | cons p ps ih => exact ih (s.cleaned p)

theorem foldl_cleaned_eq (ps : List Ptr) (s : Fs) :
  ps.foldl Fs.cleaned s = { s with heap := (ps.foldl Fs.cleaned s).heap }
  := by
  induction ps generalizing s with
  | nil => rfl
  | cons p ps ih => exact ih (s.cleaned p)

theorem inodeWrites_cleaned (h : p ∉ ps) (ws : List (ℕ × Block)) :
  inodeWrites ((s.cleaned p).attempts ws) ps = inodeWrites s ps
  := by
  have hheap : ∀ q ∈ ps, ((s.cleaned p).attempts ws).heap q = s.heap q := by
    intro q hq
    apply if_neg
    rintro rfl
    exact h hq
  have hfilter : (ps.filter fun q => (((s.cleaned p).attempts ws).heap q).dirty)
      = ps.filter fun q => (s.heap q).dirty := by
    apply List.filter_congr
    intro q hq
    rw [hheap q hq]
  rw [inodeWrites, inodeWrites, hfilter]
  apply List.map_congr_left
  intro q hq
  rw [hheap q (List.mem_of_mem_filter hq)]

/-- The attempt to sync a vnode panics or is reported as done. -/
theorem fsync_attempted (hlt : (s.heap p).ino < 2 ^ 22) :
  wlp (fun _ => True) (fsync p) s
    (fun _ s' => s' = (s.cleaned p).attempts (inodeWrites s [p]))
  := by
  simp only [fsync, syncInode, wlp_bind, wlp_get, wlp_ite, wlp_modify, wlp_pure, inodeWrites,
    List.filter_cons, List.filter_nil]
  constructor
  · intro hdirty
    apply wlp_imp (wblock_attempted hlt)
    rintro - s' rfl
    rw [if_pos hdirty]
    rfl
  · intro hclean
    rw [if_neg hclean, Fs.cleaned_of_clean (Bool.eq_false_iff.mpr hclean)]
    rfl

/-- The loop of `sfs_sync` makes the requests for the dirty inodes, and leaves every vnode
clean. -/
theorem syncVnodes_attempted (hnodup : ps.Nodup) (hlt : ∀ p ∈ ps, (s.heap p).ino < 2 ^ 22) :
  wlp (fun _ => True) (syncVnodes ps) s
    (fun _ s' => s' = (ps.foldl Fs.cleaned s).attempts (inodeWrites s ps))
  := by
  induction ps generalizing s with
  | nil =>
    rw [syncVnodes, wlp_pure]
    rfl
  | cons p ps ih =>
    obtain ⟨hout, hnodup⟩ := List.nodup_cons.mp hnodup
    simp only [syncVnodes, wlp_bind, wlp_attempt]
    apply wlp_mono (fsync_attempted (hlt p List.mem_cons_self))
    · rintro - s₁ rfl
      apply wlp_imp (ih hnodup ?_)
      · rintro - s' rfl
        have hsplit : inodeWrites s (p :: ps) = inodeWrites s [p] ++ inodeWrites s ps := by
          rw [inodeWrites, inodeWrites, inodeWrites, ← List.map_append, ← List.filter_append]
          rfl
        rw [inodeWrites_cleaned hout, foldl_cleaned_attempts, hsplit, Fs.attempts_append]
        rfl
      · intro q hq
        have hheap : ((s.cleaned p).attempts (inodeWrites s [p])).heap q = s.heap q := by
          apply if_neg
          rintro rfl
          exact hout hq
        rw [hheap]
        exact hlt q (List.mem_cons_of_mem _ hq)
    · exact fun _ _ hfalse => hfalse.elim

/-! ### Syncing the free map and the superblock -/

theorem mapWrites_succ (s : Fs) (j : ℕ) :
  mapWrites s 0 (j + 1) = mapWrites s 0 j ++ [(2 + j, mapBlock s.freemap.v j)]
  := by
  rw [mapWrites, List.range'_1_concat, List.map_append, Nat.zero_add]
  rfl

/-- The free map is synced block by block. -/
theorem syncFreemap_attempted (hlt : 2 + bitBlocks s.nblocks ≤ 2 ^ 22) :
  wlp (fun _ => True) syncFreemap s
    (fun _ s' => s' = { s.attempts
        (if s.freemapdirty then mapWrites s 0 (bitBlocks s.nblocks) else [])
      with freemapdirty := false })
  := by
  simp only [syncFreemap, mapioWrite, wlp_bind, wlp_get, wlp_ite, wlp_modify, wlp_pure]
  constructor
  · intro hdirty
    rw [if_pos hdirty]
    apply wlp_imp (wlp_loop_run (fun j _ s' => s' = s.attempts (mapWrites s 0 j)) rfl ?_)
    · rintro - s' rfl
      rfl
    · rintro j - s' hj rfl
      rw [wlp_bind, wlp_get]
      apply wlp_imp (wblock_attempted (by omega))
      rintro - s' rfl
      rw [mapWrites_succ, Fs.attempts_append]
      rfl
  · intro hclean
    rw [if_neg hclean, ← Bool.eq_false_iff.mpr hclean]
    rfl

theorem syncSuper_ok (h : syncSuper m = .ok () m') :
  m' = { m with
    fs := m.fs.attempts (if m.superdirty then [(0, m.super.encode)] else [])
    superdirty := false }
  := by
  simp only [syncSuper, get_bind] at h
  by_cases hdirty : m.superdirty = true
  · rw [if_pos hdirty] at h ⊢
    obtain ⟨_, m₁, hwrite, hrest⟩ := bind_eq_ok.mp h
    obtain rfl := modify_eq_ok.mp hrest
    obtain ⟨s, hrun, rfl⟩ := zoom_eq_ok.mp hwrite
    rw [wlp_ok (wblock_attempted (by decide)) hrun]
  · rw [if_neg hdirty] at h ⊢
    obtain ⟨-, rfl⟩ := pure_eq_ok.mp h
    rw [Bool.not_eq_true] at hdirty
    rw [← hdirty]
    rfl

/-- The volume after a sync that returned 0. -/
def Mounted.synced (m : Mounted) : Mounted where
  fs := { (m.fs.vnodes.guys.foldl Fs.cleaned m.fs).attempts m.writes with freemapdirty := false }
  super := m.super
  superdirty := false

/-- A mounted volume in order: the vnodes are the vnodes of different inodes, which are not in
the blocks of the superblock and of the free map, and the volume has room for its free map. -/
structure Mounted.Orderly (m : Mounted) : Prop where
  nodup : m.fs.vnodes.guys.Nodup
  inos : ∀ p ∈ m.fs.vnodes.guys, ∀ q ∈ m.fs.vnodes.guys,
    (m.fs.heap p).ino = (m.fs.heap q).ino → p = q
  ino : ∀ p ∈ m.fs.vnodes.guys, (m.fs.heap p).ino < m.fs.nblocks ∧ (m.fs.heap p).ino ≠ 0
    ∧ ((m.fs.heap p).ino < 2 ∨ 2 + bitBlocks m.fs.nblocks ≤ (m.fs.heap p).ino)
  small : m.fs.nblocks ≤ 2 ^ 22
  room : 2 + bitBlocks m.fs.nblocks ≤ m.fs.nblocks
  magic : m.super.magic = magic
  nblocks : m.super.nblocks.toNat = m.fs.nblocks
  terminate : m.super.terminate = m.super
  full : m.fs.freemap.Full
  nbits : m.fs.freemap.nbits = bitmapSize m.fs.nblocks

/-- What `sfs_sync` does when it returns 0. -/
theorem sync_ok (ho : m.Orderly) (h : sync m = .ok () m') :
  m' = m.synced
  := by
  have hsmall := ho.small
  have hroom := ho.room
  simp only [sync, get_bind] at h
  obtain ⟨_, m₁, hvnodes, h⟩ := bind_eq_ok.mp h
  obtain ⟨_, m₂, hmap, hsuper⟩ := bind_eq_ok.mp h
  obtain ⟨s₁, hrun, rfl⟩ := zoom_eq_ok.mp hvnodes
  obtain ⟨s₂, hrun', rfl⟩ := zoom_eq_ok.mp hmap
  have hino : ∀ p ∈ m.fs.vnodes.guys, (m.fs.heap p).ino < 2 ^ 22 := by
    intro p hp
    have hlt := (ho.ino p hp).1
    omega
  have hs₁ := wlp_ok (syncVnodes_attempted ho.nodup hino) hrun
  rw [foldl_cleaned_eq] at hs₁
  subst hs₁
  obtain rfl := wlp_ok (syncFreemap_attempted (by simp only [Fs.attempts]; omega)) hrun'
  rw [syncSuper_ok hsuper, Mounted.synced, Mounted.writes, Fs.attempts_append,
    Fs.attempts_append, foldl_cleaned_eq]
  rfl

end Requests

/-! ### What a mounted volume should have on its disk -/

/-- A block of the disk, and what it should hold. -/
inductive Mounted.Part (m : Mounted) : ℕ × Block → Prop where
  | inode {p : Ptr} (hp : p ∈ m.fs.vnodes.guys) :
      m.Part ((m.fs.heap p).ino, (m.fs.heap p).i.encode)
  | freemap {j : ℕ} (hj : j < bitBlocks m.fs.nblocks) :
      m.Part (2 + j, mapBlock m.fs.freemap.v j)
  | super : m.Part (0, m.super.encode)

/-- The disk is up to date: every vnode is clean, and its inode, the free map and the superblock
are on the disk. -/
structure Mounted.Stored (m : Mounted) : Prop where
  clean : ∀ p ∈ m.fs.vnodes.guys, (m.fs.heap p).dirty = false
  parts : ∀ w, m.Part w → m.fs.disk w.1 = w.2

/-- Two mounted volumes that look the same: their inodes, with the sizes and the link counts,
the bytes of their files, of the root directory among them, and their free maps. -/
structure Mounted.Same (m m' : Mounted) : Prop where
  super : m'.super = m.super
  nblocks : m'.fs.nblocks = m.fs.nblocks
  used : ∀ b, m'.fs.Used b ↔ m.fs.Used b
  inodes : ∀ ino, m'.fs.inodeOf ino = m.fs.inodeOf ino
  bytes : ∀ ino pos,
    (m'.fs.inodeOf ino).byteAt m'.fs.disk pos = (m.fs.inodeOf ino).byteAt m.fs.disk pos

/-- To mount a copy of the disk, in a device that serves it, gives a volume that looks the
same. -/
def Mounted.Remounts (m : Mounted) : Prop :=
  ∀ m₀ : Mounted, m₀.fs.disk = m.fs.disk → m₀.fs.device.Serves m.fs.nblocks →
    m₀.fs.kmallocs = [] → ∃ m', domount m₀ = .ok () m' ∧ m.Same m'

/-- Nothing is lost by a sync: what it does not write is on the disk, and each of its requests
meets a device that stores it, or a block that holds its data. -/
structure Mounted.NothingLost (m : Mounted) : Prop where
  others : ∀ w, m.Part w → w ∉ m.writes → m.fs.disk w.1 = w.2
  writes : ∀ k w, m.writes[k]? = some w →
    m.fs.device.resultAt k = .ok ∨ m.fs.disk w.1 = w.2

section Stored

variable {m m' : Mounted} {w w' : ℕ × Block} {p : Ptr}

/-- What a sync writes is what the disk should hold. -/
theorem part_of_mem_writes (h : w ∈ m.writes) :
  m.Part w
  := by
  rw [Mounted.writes, List.mem_append, List.mem_append] at h
  rcases h with hinode | hmap | hsuper
  · rw [inodeWrites, List.mem_map] at hinode
    obtain ⟨p, hp, rfl⟩ := hinode
    exact .inode (List.mem_of_mem_filter hp)
  · split at hmap
    · rw [mapWrites, List.mem_map] at hmap
      obtain ⟨j, hj, rfl⟩ := hmap
      rw [List.mem_range'_1, Nat.zero_add] at hj
      exact .freemap hj.2
    · simp at hmap
  · split at hsuper
    · rw [List.mem_singleton] at hsuper
      rw [hsuper]
      exact .super
    · simp at hsuper

/-- What a block should hold is fixed. -/
theorem Mounted.Orderly.part_inj (ho : m.Orderly) (h : m.Part w) (h' : m.Part w')
    (heq : w.1 = w'.1) :
  w = w'
  := by
  cases h with
  | @inode p hp =>
    obtain ⟨-, hne, hout⟩ := ho.ino p hp
    cases h' with
    | @inode q hq => rw [ho.inos p hp q hq heq]
    | freemap hj =>
      simp only at heq
      omega
    | super => exact absurd heq hne
  | @freemap j hj =>
    cases h' with
    | @inode q hq =>
      obtain ⟨-, -, hout⟩ := ho.ino q hq
      simp only at heq
      omega
    | freemap hj' =>
      obtain rfl := Nat.add_left_cancel heq
      rfl
    | super =>
      simp only at heq
      omega
  | super =>
    cases h' with
    | @inode q hq =>
      obtain ⟨-, hne, -⟩ := ho.ino q hq
      exact absurd heq.symm hne
    | freemap hj =>
      simp only at heq
      omega
    | super => rfl

theorem Mounted.Orderly.not_mem_targets (ho : m.Orderly) (h : m.Part w) (hw : w ∉ m.writes) :
  w.1 ∉ m.writes.map Prod.fst
  := by
  intro hmem
  obtain ⟨w', hw', heq⟩ := List.mem_map.mp hmem
  apply hw
  rw [ho.part_inj h (part_of_mem_writes hw') heq.symm]
  exact hw'

/-- The requests of a sync are for different blocks. -/
theorem Mounted.Orderly.nodup_targets (ho : m.Orderly) :
  (m.writes.map Prod.fst).Nodup
  := by
  -- the blocks are among those of all inodes, of the free map and of the superblock
  have hsub : (m.writes.map Prod.fst).Sublist (m.fs.vnodes.guys.map (fun p => (m.fs.heap p).ino)
      ++ (List.range' 2 (bitBlocks m.fs.nblocks) ++ [0])) := by
    rw [Mounted.writes, List.map_append, List.map_append]
    refine .append ?_ (.append ?_ ?_)
    · rw [inodeWrites, List.map_map]
      exact List.filter_sublist.map _
    · split
      · rw [mapWrites, List.map_map]
        show (List.map (2 + ·) _).Sublist _
        rw [List.map_add_range']
      · exact List.nil_sublist _
    · split
      · exact List.Sublist.refl _
      · exact List.nil_sublist _
  apply List.Nodup.sublist hsub
  rw [List.nodup_append', List.nodup_append']
  refine ⟨ho.nodup.map_on fun p hp q hq => ho.inos p hp q hq,
    ⟨List.nodup_range', List.nodup_singleton 0, ?_⟩, ?_⟩
  · intro b hb hb'
    rw [List.mem_range'_1] at hb
    rw [List.mem_singleton] at hb'
    omega
  · intro b hb hb'
    obtain ⟨p, hp, rfl⟩ := List.mem_map.mp hb
    obtain ⟨-, hne, hout⟩ := ho.ino p hp
    rw [List.mem_append, List.mem_range'_1, List.mem_singleton] at hb'
    omega

theorem heap_synced (hp : p ∈ m.fs.vnodes.guys) :
  m.synced.fs.heap p = { m.fs.heap p with dirty := false }
  := by
  have hheap : m.synced.fs.heap p = (m.fs.vnodes.guys.foldl Fs.cleaned m.fs).heap p := rfl
  rw [hheap, heap_foldl_cleaned, if_pos hp]

/-- A sync changes the memory of a volume only in its marks. -/
theorem synced_fs (m : Mounted) :
  m.synced.fs.vnodes = m.fs.vnodes ∧ m.synced.fs.nblocks = m.fs.nblocks
    ∧ m.synced.fs.freemap = m.fs.freemap
    ∧ m.synced.fs.device = m.fs.device.attempts m.writes
  := by
  rw [Mounted.synced, foldl_cleaned_eq]
  exact ⟨rfl, rfl, rfl, rfl⟩

theorem part_synced_iff :
  m.synced.Part w ↔ m.Part w
  := by
  obtain ⟨hvnodes, hnblocks, hfreemap, -⟩ := synced_fs m
  constructor
  · intro h
    cases h with
    | @inode p hp =>
      rw [hvnodes] at hp
      rw [heap_synced hp]
      exact .inode hp
    | @freemap j hj =>
      rw [hnblocks] at hj
      rw [hfreemap]
      exact .freemap hj
    | super => exact .super
  · intro h
    cases h with
    | @inode p hp =>
      have hpart : m.synced.Part _ := .inode (by rw [hvnodes]; exact hp)
      rw [heap_synced hp] at hpart
      exact hpart
    | @freemap j hj =>
      have hpart : m.synced.Part _ := .freemap (j := j) (by rw [hnblocks]; exact hj)
      rw [hfreemap] at hpart
      exact hpart
    | super => exact .super

/-- After a sync the disk is up to date exactly when nothing was lost. -/
theorem stored_synced_iff (ho : m.Orderly) :
  m.synced.Stored ↔ m.NothingLost
  := by
  have hdisk : m.synced.fs.disk = (m.fs.device.attempts m.writes).disk := by
    rw [Fs.disk, (synced_fs m).2.2.2]
  have hothers : ∀ w, m.Part w → w ∉ m.writes → m.synced.fs.disk w.1 = m.fs.disk w.1 := by
    intro w hpart hw
    rw [hdisk]
    exact Lhd.disk_attempts_of_not_mem (ho.not_mem_targets hpart hw)
  have hwrites : ∀ k w, m.writes[k]? = some w → (m.synced.fs.disk w.1 = w.2
        ↔ m.fs.device.resultAt k = .ok ∨ m.fs.disk w.1 = w.2) := by
    intro k w hk
    rw [hdisk]
    exact Lhd.disk_attempts_eq_iff ho.nodup_targets hk
  constructor
  · intro h
    constructor
    · intro w hpart hw
      rw [← hothers w hpart hw]
      exact h.parts w (part_synced_iff.mpr hpart)
    · intro k w hk
      apply (hwrites k w hk).mp
      apply h.parts w
      apply part_synced_iff.mpr
      exact part_of_mem_writes (List.mem_of_getElem? hk)
  · intro h
    constructor
    · intro p hp
      rw [(synced_fs m).1] at hp
      rw [heap_synced hp]
    · intro w hpart
      have hpart' := part_synced_iff.mp hpart
      by_cases hw : w ∈ m.writes
      · obtain ⟨k, hk⟩ := List.mem_iff_getElem?.mp hw
        exact (hwrites k w hk).mpr (h.writes k w hk)
      · rw [hothers w hpart' hw]
        exact h.others w hpart' hw

theorem Mounted.Orderly.synced (ho : m.Orderly) :
  m.synced.Orderly
  := by
  obtain ⟨hvnodes, hnblocks, hfreemap, -⟩ := synced_fs m
  have hheap : ∀ p ∈ m.fs.vnodes.guys, (m.synced.fs.heap p).ino = (m.fs.heap p).ino := by
    intro p hp
    rw [heap_synced hp]
  constructor
  · rw [hvnodes]
    exact ho.nodup
  · intro p hp q hq heq
    rw [hvnodes] at hp hq
    rw [hheap p hp, hheap q hq] at heq
    exact ho.inos p hp q hq heq
  · intro p hp
    rw [hvnodes] at hp
    rw [hheap p hp, hnblocks]
    exact ho.ino p hp
  · rw [hnblocks]
    exact ho.small
  · rw [hnblocks]
    exact ho.room
  · exact ho.magic
  · rw [hnblocks]
    exact ho.nblocks
  · exact ho.terminate
  · rw [hfreemap]
    exact ho.full
  · rw [hfreemap, hnblocks]
    exact ho.nbits

/-- The inode with a number is on a disk that is up to date. -/
theorem Mounted.Stored.inodeOf (h : m.Stored) (ino : ℕ) :
  m.fs.inodeOf ino = Inode.decode (m.fs.disk ino)
  := by
  unfold Fs.inodeOf
  split
  · next p hfind =>
      have hp := List.mem_of_find?_eq_some hfind
      have hino : (m.fs.heap p).ino = ino := by
        have hsome := List.find?_some hfind
        simpa using hsome
      have hpart := h.parts _ (.inode hp)
      rw [← hino, hpart, Inode.decode_encode]
  · rfl

/-- The free map that is read back from a disk that is up to date. -/
theorem Mounted.Stored.used_iff (h : m.Stored) (ho : m.Orderly) {freemap : Bitmap}
    (hl : Loaded m.fs.disk m.fs.nblocks freemap) (b : ℕ) :
  freemap.isset b = m.fs.freemap.isset b
  := by
  obtain ⟨hsize, -, -, -⟩ := bitmapSize_eq ho.small
  by_cases hb : b < bitmapSize m.fs.nblocks
  · have hpart := h.parts _ (.freemap (j := b / 4096) (by omega))
    have hsplit : 4096 * (b / 4096) + b % 4096 = b := by omega
    rw [hl.isset b hb, hpart, blockBit_mapBlock _ _ (by omega), hsplit]
    rfl
  · have hlen := hl.full.length_eq
    have hlen' := ho.full.length_eq
    have hnbits := hl.nbits
    have hnbits' := ho.nbits
    rw [Bitmap.isset, Bitmap.isset, BitWords.getBit_eq_false_of_le (by decide) (by omega),
      BitWords.getBit_eq_false_of_le (by decide) (by omega)]

/-- A disk that is up to date can be mounted again. -/
theorem Mounted.Stored.remounts (h : m.Stored) (ho : m.Orderly) :
  m.Remounts
  := by
  intro m₀ hdisk hserves hk
  have hsuper : Super.decode (m₀.fs.disk 0) = m.super := by
    rw [hdisk, h.parts _ .super, Super.decode_encode]
  obtain ⟨_, m', hrun, hfresh⟩ := exists_ok (domount_spec hserves hk
    (by rw [hsuper]; exact ho.magic) (by rw [hsuper]; exact ho.nblocks) ho.room)
  rw [hsuper] at hfresh
  have hdisk' : m'.fs.disk = m.fs.disk := by
    rw [← hdisk, Fs.disk, hfresh.device]
    rfl
  have hinodes : ∀ ino, m'.fs.inodeOf ino = m.fs.inodeOf ino := by
    intro ino
    rw [h.inodeOf, ← hdisk', Fs.inodeOf, hfresh.vnodes]
    rfl
  refine ⟨m', hrun, ?_, ?_, ?_, hinodes, ?_⟩
  · rw [hfresh.super, ho.terminate]
  · rw [hfresh.nblocks, ho.nblocks]
  · intro b
    have hloaded := hfresh.freemap
    rw [ho.nblocks, hdisk] at hloaded
    rw [Fs.Used, Fs.Used, h.used_iff ho hloaded]
  · intro ino pos
    rw [hinodes, hdisk']

end Stored

/-! ### Complete syncs -/

/-- A sync that returns 0, on any volume in order and with any results of the device to come, is
complete exactly when nothing is lost. -/
theorem sync_complete_iff {m m' : Mounted} (ho : m.Orderly) (h : sync m = .ok () m') :
  m'.Stored ∧ m'.Remounts ↔ m.NothingLost
  := by
  rw [sync_ok ho h, ← stored_synced_iff ho]
  constructor
  · rintro ⟨hstored, -⟩
    exact hstored
  · intro hstored
    exact ⟨hstored, hstored.remounts ho.synced⟩

/-- A volume of five blocks on which a file `a` was just created: its inode is in block 3 and
its entry in block 4, and the inodes and the free map are not on the disk yet. -/
def justCreated (results : List LhdStatus) : Mounted where
  fs :=
    { device :=
        { disk := fun b =>
          if b = 0 then (⟨magic, 5, Buf.ofFn fun _ => 0, Buf.ofFn fun _ => 0⟩ : Super).encode
          else if b = 1 then { Inode.cleared with type := typeDir, linkcount := 1 }.encode
          else if b = 2 then mapBlock (231 :: List.replicate 511 255) 0
          else if b = 4 then Buf.ofFn (SfsDir.make 3 nameA).encode.get
          else zeroBlock
          dBlocks := 5
          results := results }
      nblocks := 5
      vnodes := ⟨[0, 1], 2⟩
      freemap := ⟨4096, List.replicate 512 255⟩
      freemapdirty := true
      heap := fun p =>
        if p = 0 then
          ⟨some .dirops, 1, 0,
            { Inode.cleared with
              size := 64, type := typeDir, linkcount := 1
              direct := Inode.cleared.direct.set 0 4 }, 1, true⟩
        else
          ⟨some .fileops, 1, 0, { Inode.cleared with type := typeFile, linkcount := 1 }, 3, true⟩
      next := 2
      kmallocs := [] }
  super := ⟨magic, 5, Buf.ofFn fun _ => 0, Buf.ofFn fun _ => 0⟩
  superdirty := false

theorem justCreated_orderly (results : List LhdStatus) :
  (justCreated results).Orderly
  := by
  let ino p := ((justCreated []).fs.heap p).ino
  constructor
  · exact (by decide : [0, 1].Nodup)
  · exact (by decide : ∀ p ∈ [0, 1], ∀ q ∈ [0, 1], ino p = ino q → p = q)
  · exact (by decide : ∀ p ∈ [0, 1], ino p < 5 ∧ ino p ≠ 0 ∧ (ino p < 2 ∨ 2 + bitBlocks 5 ≤ ino p))
  · exact (by decide : 5 ≤ 2 ^ 22)
  · exact (by decide : 2 + bitBlocks 5 ≤ 5)
  · rfl
  · rfl
  · have hname : (Buf.ofFn fun _ => 0 : Buf 32 UInt8).set 31 0 = Buf.ofFn fun _ => 0 :=
      funext fun _ => ite_self 0
    exact congrArg (fun v => (⟨magic, 5, v, Buf.ofFn fun _ => 0⟩ : Super)) hname
  · constructor
    · change 8 * (List.replicate 512 (255 : BitVec 8)).length = 4096
      rw [List.length_replicate]
    · exact (by decide : 4096 < 2 ^ 32 - 8)
  · exact (by decide : 4096 = bitmapSize 5)

/-- The device stores everything, and the sync of the file that was just created is
complete. -/
theorem sync_complete_iff_justCreated :
  ∃ m', sync (justCreated []) = .ok () m' ∧ m'.Stored ∧ m'.Remounts
  := by
  obtain ⟨m', h⟩ : ∃ m', sync (justCreated []) = .ok () m' := by decide +kernel
  refine ⟨m', h, (sync_complete_iff (justCreated_orderly []) h).mpr ?_⟩
  constructor
  · intro w hpart hw
    cases hpart with
    | @inode p hp =>
      have hdirty : ∀ p ∈ [0, 1], ((justCreated []).fs.heap p).dirty = true := by decide
      refine absurd (List.mem_append_left _ ?_) hw
      rw [inodeWrites]
      apply List.mem_map_of_mem (List.mem_filter.mpr ⟨hp, hdirty p hp⟩)
    | @freemap j hj =>
      refine absurd (List.mem_append_right _ ?_) hw
      apply List.mem_append_left
      have hdirty : (justCreated []).fs.freemapdirty = true := rfl
      rw [if_pos hdirty, mapWrites]
      apply List.mem_map_of_mem
      rw [List.mem_range'_1]
      omega
    | super => rfl
  · intro k w _
    left
    rfl

/-- One media error, at the request for the inode of the root directory: the sync returns 0,
and the inode is not on the disk. -/
theorem not_complete_justCreated :
  ∃ m', (justCreated [.media]).Orderly ∧ sync (justCreated [.media]) = .ok () m' ∧ ¬ m'.Stored
  := by
  have ho := justCreated_orderly [.media]
  obtain ⟨m', h⟩ : ∃ m', sync (justCreated [.media]) = .ok () m' := by decide +kernel
  refine ⟨m', ho, h, ?_⟩
  rw [sync_ok ho h, stored_synced_iff ho]
  intro hlost
  rcases hlost.writes 0 _ rfl with hok | hdisk
  · cases hok
  · have hbyte := congrFun hdisk 3
    exact absurd hbyte (by decide)

end Sfs
