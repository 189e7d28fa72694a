import AzureSpider.Sfs.Write

/-!
# Truncating files

`sfs_truncate` takes blocks from a file and sets its size.  `Shrunk p s s' gone` states that
the cells `gone` of the file of `p` are emptied and their blocks freed, and the other blocks
keep their contents.  Which cells `sfs_truncate` empties is `Dropped`.
-/

open Machine Routine

namespace Sfs

/-- The blocks in some cells of a file are freed. -/
structure Shrunk (p : Ptr) (s s' : Fs) (gone : ℕ → Prop) : Prop extends FileStep p s s' where
  size : s'.size p = s.size p
  ptr_gone : ∀ k, gone k → s'.ptr p k = 0
  ptr_kept : ∀ k, ¬ gone k → s'.ptr p k = s.ptr p k
  data : ∀ k < 143, ¬ gone k → s.ptr p k ≠ 0 → s'.disk (s.ptr p k) = s.disk (s.ptr p k)

variable {p : Ptr} {s s' s'' : Fs} {k b bl : ℕ} {gone gone' : ℕ → Prop}

theorem Shrunk.refl (h : s.Sound) (hok : s.FileOk p) (hgone : ∀ k, gone k → s.ptr p k = 0) :
  Shrunk p s s gone
  := ⟨FileStep.refl h hok, rfl, hgone, fun _ _ => rfl, fun _ _ _ _ => rfl⟩

theorem Shrunk.congr (h : Shrunk p s s' gone) (heq : ∀ k, gone k ↔ gone' k) :
  Shrunk p s s' gone'
  := by
  obtain rfl : gone = gone' := funext fun k => propext (heq k)
  exact h

theorem Shrunk.trans (h : Shrunk p s s' gone) (h' : Shrunk p s' s'' gone') :
  Shrunk p s s'' (fun k => gone k ∨ gone' k)
  := by
  refine ⟨h.toFileStep.trans h'.toFileStep, h'.size.trans h.size, ?_, ?_, ?_⟩
  · intro k hk
    by_cases hk' : gone' k
    · apply h'.ptr_gone k hk'
    · rw [h'.ptr_kept k hk']
      apply h.ptr_gone k (hk.resolve_right hk')
  · intro k hk
    rw [not_or] at hk
    rw [h'.ptr_kept k hk.2, h.ptr_kept k hk.1]
  · intro k hlt hk hne
    rw [not_or] at hk
    have heq := h.ptr_kept k hk.1
    have hd := h'.data k hlt hk.2
    rw [heq] at hd
    rw [hd hne, h.data k hlt hk.1 hne]

/-- The bytes in the other blocks are left. -/
theorem Shrunk.byte_kept (h : Shrunk p s s' gone) {pos : ℕ} (hpos : ¬ gone (pos / 512)) :
  s'.byteAt p pos = s.byteAt p pos
  := Inode.byteAt_congr (h.ptr_kept _ hpos) fun hlt hz => h.data _ hlt hpos hz

/-- The blocks of some cells are freed and the cells emptied. -/
theorem Shrunk.release (hok : s.FileOk p) (hsame : SameVolume p s s') (hs' : s'.Sound)
    (hlt : ∀ k, gone k → k < 144) (hgone : ∀ k, gone k → s'.ptr p k = 0)
    (hkept : ∀ k, ¬ gone k → s'.ptr p k = s.ptr p k)
    (hused : ∀ c, s'.Used c ↔ s.Used c ∧ ∀ k, gone k → s.ptr p k = c → c = 0)
    (hdisk : ∀ c, s.Used c → (c = s.ptr p 143 → c = 0) → s'.disk c = s.disk c)
    (hsize : s'.size p = s.size p) :
  Shrunk p s s' gone
  := by
  have hcell : ∀ k, gone k → s.cell p k = s.ptr p k := by
    intro k hk
    have := hlt k hk
    exact if_neg (by omega)
  have hgone' : ∀ k, gone k → s'.cell p k = 0 := by
    intro k hk
    have := hlt k hk
    rw [Fs.cell_eq, if_neg (by omega), hgone k hk]
  have hkept' : ∀ k, ¬ gone k → s'.cell p k = s.cell p k := by
    intro k hk
    rw [Fs.cell_eq, Fs.cell_eq, hsame.kept.ino, hkept k hk]
  have hused' : ∀ c, s'.Used c ↔ s.Used c ∧ ∀ k, gone k → s.cell p k = c → c = 0 := by
    intro c
    rw [hused]
    refine and_congr_right fun _ => forall₂_congr fun k hk => ?_
    rw [hcell k hk]
  refine ⟨⟨hsame, hs', ⟨hok.account.release hgone' hkept' hused', ?_, ?_⟩,
    Account.foreign_release hgone' hkept' hused', ?_, ?_⟩, hsize, hgone, hkept, ?_⟩
  · intro k
    rw [hsame.nblocks]
    by_cases hk : gone k
    · have := hok.lt 144
      rw [hgone' k hk]
      omega
    · rw [hkept' k hk]
      apply hok.lt
  · rw [hsame.kept.ino]
    exact hok.ino_ne
  · intro c hc
    apply hdisk c hc.1
    intro heq
    by_contra hne
    rw [heq] at hne
    exact hc.ne_ptr hne heq
  · apply hdisk _ hok.ino_used
    intro heq
    exact absurd heq.symm (hok.ptr_ne_ino 143)
  · intro k hk _ hne
    apply hdisk _ (hok.ptr_used hne)
    intro heq
    have := hok.ptr_inj hne heq
    omega

/-! ### Direct blocks -/

/-- A direct block is freed. -/
theorem Shrunk.direct (h : s.Sound) (hok : s.FileOk p) (hk : k < 15) (hne : s.ptr p k ≠ 0) :
  Shrunk p s ((s.freed (s.ptr p k)).updateInode p fun i =>
    { i with direct := i.direct.set k 0 }) (fun l => l = k)
  := by
  have hptr : ∀ l, ((s.freed (s.ptr p k)).updateInode p fun i =>
    { i with direct := i.direct.set k 0 }).ptr p l = if l = k then 0 else s.ptr p l := by
    intro l
    rw [Fs.ptr, Fs.updateInode, Fs.heap_update_self]
    rw [Inode.ptr_setDirect (d := s.disk) hk]
    · rfl
    · intro _
      rfl
  apply Shrunk.release hok
  · exact (SameVolume.freed p s _).trans (SameVolume.updateInode p _ (fun _ => rfl) (fun _ => rfl))
  · exact (h.unmarked (hok.ptr_lt k) hne).update p _
  · rintro l rfl
    omega
  · rintro l rfl
    rw [hptr, if_pos rfl]
  · intro l hl
    rw [hptr, if_neg hl]
  · intro c
    refine Fs.used_unmarked.trans (and_congr Iff.rfl ?_)
    constructor
    · rintro hc l rfl heq
      exact absurd heq hc
    · intro hc heq
      apply hne
      rw [heq]
      exact hc k rfl heq
  · intro c _ _
    rfl
  · rw [Fs.size, Fs.updateInode, Fs.heap_update_self]
    rfl

/-- The loop over the direct blocks. -/
theorem truncateDirect_spec (h : s.Sound) (hok : s.FileOk p) (bl : ℕ) :
  wp (loop 15 0 (fun i _ => truncateDirect p bl i) ()) s
    (fun _ s' => Shrunk p s s' (fun k => k < 15 ∧ bl ≤ k))
  := by
  apply wp_loop_run (fun j _ s' => Shrunk p s s' (fun k => k < j ∧ bl ≤ k))
    (Shrunk.refl h hok (fun k hk => by omega))
  rintro j - s' hj hshrunk
  have hptr : ((s'.heap p).i.direct.get j).toNat = s'.ptr p j :=
    (Inode.ptr_direct (by omega)).symm
  simp only [truncateDirect, wp_bind, wp_get, wp_ite, wp_pure, hptr]
  constructor
  · rintro ⟨hle, hne⟩
    apply wp_sure (bfree_spec hshrunk.sound (hshrunk.ok.ptr_lt j) (hshrunk.ok.ptr_used hne))
    rintro - s'' rfl
    simp only [wp_modify]
    apply (hshrunk.trans (Shrunk.direct hshrunk.sound hshrunk.ok (by omega) hne)).congr
    omega
  · intro hnot
    have hzero : ∀ k, k = j ∧ bl ≤ k → s'.ptr p k = 0 := by
      rintro k ⟨rfl, hle⟩
      by_contra hne
      exact hnot ⟨hle, hne⟩
    apply (hshrunk.trans (Shrunk.refl hshrunk.sound hshrunk.ok hzero)).congr
    omega

/-! ### The indirect block -/

/-- The loop over the entries `tbl` of the indirect block, before entry `j`: the blocks of the
entries past `bl` are freed, and nothing but the free map has changed. -/
structure ScanInv (p : Ptr) (s : Fs) (bl : ℕ) (tbl : Idbuf) (j : ℕ) (t : TruncateScan)
    (s' : Fs) : Prop where
  same : SameVolume p s s'
  heap : s'.heap = s.heap
  device : s'.device = s.device
  sound : s'.Sound
  used : ∀ c, s'.Used c ↔ s.Used c ∧ ∀ i < j, bl < 15 + i → (tbl.get i).toNat = c → c = 0
  idbuf : ∀ i < 128, t.idbuf.get i = if i < j ∧ bl < 15 + i then 0 else tbl.get i
  hasnonzero : t.hasnonzero = false → ∀ i < j, t.idbuf.get i = 0
  nonzero : t.hasnonzero = true → ∃ i < j, t.idbuf.get i ≠ 0
  iddirty : t.iddirty = false → ∀ i < j, bl < 15 + i → tbl.get i = 0

variable {t : TruncateScan}

variable {tbl : Idbuf}

/-- An entry that is to be dropped is emptied, and an entry that is left is noted. -/
theorem ScanInv.next {j : ℕ} {t' : TruncateScan} (h : ScanInv p s bl tbl j t s')
    (hsame : SameVolume p s' s'') (hheap : s''.heap = s'.heap) (hdevice : s''.device = s'.device)
    (hsound : s''.Sound)
    (hused : ∀ c, s''.Used c ↔ s'.Used c ∧ (bl < 15 + j → (tbl.get j).toNat = c → c = 0))
    (hidbuf : ∀ i, t'.idbuf.get i = if i = j ∧ bl < 15 + j then 0 else t.idbuf.get i)
    (hflag : t'.hasnonzero = (t.hasnonzero || t'.idbuf.get j != 0))
    (hdirty : t'.iddirty = false → t.iddirty = false ∧ (bl < 15 + j → tbl.get j = 0)) :
  ScanInv p s bl tbl (j + 1) t' s''
  := by
  have hbefore : ∀ i < j, t'.idbuf.get i = t.idbuf.get i := by
    intro i hi
    rw [hidbuf, if_neg (by omega)]
  refine ⟨h.same.trans hsame, hheap.trans h.heap, hdevice.trans h.device, hsound, ?_, ?_, ?_, ?_,
    ?_⟩
  · intro c
    rw [hused, h.used, Nat.forall_lt_succ_right, and_assoc]
  · intro i hi
    rw [hidbuf, h.idbuf i hi]
    split_ifs <;> first | rfl | omega
  · intro hno
    rw [hflag, Bool.or_eq_false_iff, bne_eq_false_iff_eq] at hno
    refine Nat.forall_lt_succ_right.mpr ⟨?_, hno.2⟩
    intro i hi
    rw [hbefore i hi, h.hasnonzero hno.1 i hi]
  · intro hhas
    rw [hflag, Bool.or_eq_true, bne_iff_ne] at hhas
    obtain hold | hnew := hhas
    · obtain ⟨i, hi, hne⟩ := h.nonzero hold
      exact ⟨i, by omega, by rwa [hbefore i hi]⟩
    · exact ⟨j, by omega, hnew⟩
  · intro hd
    obtain ⟨hold, hnew⟩ := hdirty hd
    exact Nat.forall_lt_succ_right.mpr ⟨h.iddirty hold, hnew⟩

/-- One round of the loop. -/
theorem truncateEntry_spec (hok : s.FileOk p)
    (htbl : ∀ i < 128, (tbl.get i).toNat = s.ptr p (15 + i)) {j : ℕ} (hj : j < 128)
    (h : ScanInv p s bl tbl j t s') :
  wp (truncateEntry bl j t) s' (ScanInv p s bl tbl (j + 1))
  := by
  have hentry : t.idbuf.get j = tbl.get j := by
    rw [h.idbuf j hj, if_neg (by omega)]
  have hnat := htbl j hj
  simp only [truncateEntry, wp_bind, wp_ite, wp_pure, hentry]
  constructor
  · rintro ⟨hbl, hne⟩
    have hptr : (tbl.get j).toNat ≠ 0 := fun hz => hne (UInt32.toNat_inj.mp hz)
    have hlt : (tbl.get j).toNat < s'.nblocks := by
      rw [hnat, h.same.nblocks]
      apply hok.ptr_lt
    have hused : s'.Used (tbl.get j).toNat := by
      rw [hnat] at hptr
      rw [h.used, hnat]
      refine ⟨hok.ptr_used hptr, ?_⟩
      intro i hi _ heq
      rw [htbl i (by omega)] at heq
      have := hok.ptr_inj hptr heq.symm
      omega
    apply wp_imp (bfree_spec h.sound hlt hused)
    rintro - s'' rfl
    have hself : (t.idbuf.set j 0).get j = 0 := by
      rw [Buf.get_set _ _ hj, if_pos rfl]
    simp only [hself, ne_eq, not_true_eq_false, if_false]
    apply h.next (SameVolume.freed p s' _) rfl rfl (h.sound.unmarked hlt hptr)
    · intro c
      apply Fs.used_unmarked.trans
      refine and_congr_right fun _ => ⟨fun hcne _ heq => absurd heq hcne, ?_⟩
      intro hout heq
      exact hptr (heq.trans (hout hbl heq))
    · intro i
      simp only [Buf.get_set _ _ hj, hbl, and_true]
    · simp [hself]
    · exact Bool.noConfusion
  · intro hnot
    have hlast : bl < 15 + j → tbl.get j = 0 := by
      intro hbl
      by_contra hne
      exact hnot ⟨hbl, hne⟩
    have hused : ∀ c, s'.Used c ↔ s'.Used c ∧ (bl < 15 + j → (tbl.get j).toNat = c → c = 0) := by
      intro c
      refine (and_iff_left ?_).symm
      intro hbl heq
      rw [← heq, hlast hbl]
      rfl
    have hidbuf : ∀ i, t.idbuf.get i = if i = j ∧ bl < 15 + j then 0 else t.idbuf.get i := by
      intro i
      split
      · next hi => rw [hi.1, hentry, hlast hi.2]
      · rfl
    split
    · next hne =>
      exact h.next (SameVolume.refl p s') rfl rfl h.sound hused hidbuf (by simp [hentry, hne])
        (fun hd => ⟨hd, hlast⟩)
    · next hz =>
      exact h.next (SameVolume.refl p s') rfl rfl h.sound hused hidbuf
        (by simp [hentry, not_not.mp hz]) (fun hd => ⟨hd, hlast⟩)

/-- The loop over the entries of the indirect block. -/
theorem truncateScan_spec (h : s.Sound) (hok : s.FileOk p)
    (htbl : ∀ i < 128, (tbl.get i).toNat = s.ptr p (15 + i)) (bl : ℕ) :
  wp (loop 128 0 (truncateEntry bl) ⟨tbl, false, false⟩) s
    (ScanInv p s bl tbl 128)
  := by
  have hinit : ScanInv p s bl tbl 0 ⟨tbl, false, false⟩ s := by
    refine ⟨SameVolume.refl p s, rfl, rfl, h, ?_, ?_, ?_, Bool.noConfusion, ?_⟩
    · intro c
      exact (and_iff_left fun i hi => absurd hi (Nat.not_lt_zero i)).symm
    · intro i _
      rw [if_neg (by omega)]
    · intro _ i hi
      omega
    · intro _ i hi
      omega
  apply wp_loop_run (ScanInv p s bl tbl) hinit
  intro j t s' hj hinv
  apply truncateEntry_spec hok htbl (by omega) hinv

/-- The cells between 15 and 142 that `sfs_truncate` empties. -/
def DroppedEntry (bl k : ℕ) : Prop := 15 ≤ k ∧ k < 143 ∧ bl < 142 ∧ bl < k

/-- The cells of blocks with bytes that `sfs_truncate` empties.  The entry of the indirect
block at the new length itself is not among them, unlike the direct block there. -/
def Dropped (bl k : ℕ) : Prop := (k < 15 ∧ bl ≤ k) ∨ DroppedEntry bl k

/-- The blocks of the entries are freed, and the free map tells so. -/
theorem ScanInv.used_iff (htbl : ∀ i < 128, (tbl.get i).toNat = s.ptr p (15 + i))
    (hbl : bl < 142) (h : ScanInv p s bl tbl 128 t s') (c : ℕ) :
  s'.Used c ↔ s.Used c ∧ ∀ k, DroppedEntry bl k → s.ptr p k = c → c = 0
  := by
  rw [h.used]
  refine and_congr_right fun _ => ⟨?_, ?_⟩
  · rintro hout k ⟨hlow, hhigh, -, hlt⟩ heq
    obtain ⟨i, rfl⟩ := Nat.exists_eq_add_of_le hlow
    apply hout i (by omega) hlt
    rw [htbl i (by omega)]
    exact heq
  · intro hout i hi hlt heq
    apply hout (15 + i) ⟨by omega, by omega, hbl, hlt⟩
    rw [← htbl i hi]
    exact heq

section

variable {tbl : Idbuf} (hok : s.FileOk p) (htbl : ∀ i < 128, (tbl.get i).toNat = s.ptr p (15 + i))
  (hbl : bl < 142)
include hok htbl hbl

/-- The indirect block is freed when no entry is left. -/
theorem ScanInv.freed (hid : s.ptr p 143 ≠ 0) (h : ScanInv p s bl tbl 128 t s')
    (hno : t.hasnonzero = false) :
  Shrunk p s ((s'.freed (s.ptr p 143)).updateInode p fun i => { i with indirect := 0 })
    (fun k => DroppedEntry bl k ∨ k = 143)
  := by
  have hheap : (((s'.freed (s.ptr p 143)).updateInode p fun i =>
    { i with indirect := 0 }).heap p).i = { (s.heap p).i with indirect := 0 } := by
    rw [Fs.updateInode, Fs.heap_update_self, ← h.heap]
    rfl
  have hlow : ∀ k < 15, ((s'.freed (s.ptr p 143)).updateInode p fun i =>
    { i with indirect := 0 }).ptr p k = s.ptr p k := by
    intro k hk
    rw [Fs.ptr, hheap, Inode.ptr_direct hk, Fs.ptr, Inode.ptr_direct hk]
  have hnone : ((s'.freed (s.ptr p 143)).updateInode p fun i =>
    { i with indirect := 0 }).ptr p 143 = 0 := by
    rw [Fs.ptr, hheap]
    rfl
  -- the entries that are not dropped were zero already
  have hempty : ∀ k, 15 ≤ k → k < 143 → ¬ DroppedEntry bl k → s.ptr p k = 0 := by
    intro k hk hk' hnot
    obtain ⟨i, rfl⟩ := Nat.exists_eq_add_of_le hk
    have hz := h.hasnonzero hno i (by omega)
    rw [h.idbuf _ (by omega), if_neg fun hlt => hnot ⟨hk, hk', hbl, hlt.2⟩] at hz
    rw [← htbl _ (by omega), hz]
    rfl
  have hlt : s.ptr p 143 < s'.nblocks := by
    rw [h.same.nblocks]
    apply hok.ptr_lt
  apply Shrunk.release hok
  · exact (h.same.trans (SameVolume.freed p s' _)).trans
      (SameVolume.updateInode p _ (fun _ => rfl) (fun _ => rfl))
  · exact (h.sound.unmarked hlt hid).update p _
  · rintro k (⟨-, hk, -⟩ | rfl)
    · omega
    · omega
  · rintro k (⟨hk, hk', -⟩ | rfl)
    · apply Fs.ptr_of_no_indirect hnone hk hk'
    · exact hnone
  · intro k hk
    rw [not_or] at hk
    by_cases hk15 : k < 15
    · apply hlow k hk15
    · by_cases hk143 : k < 143
      · rw [Fs.ptr_of_no_indirect hnone (by omega) hk143, hempty k (by omega) hk143 hk.1]
      · have hbig : 143 < k := by
          have := hk.2
          omega
        rw [Fs.ptr, Inode.ptr_of_lt hbig, Fs.ptr, Inode.ptr_of_lt hbig]
  · intro c
    refine Fs.used_unmarked.trans ?_
    rw [h.used_iff htbl hbl]
    constructor
    · rintro ⟨⟨hc, hout⟩, hne⟩
      refine ⟨hc, ?_⟩
      rintro k (hk | rfl) heq
      · apply hout k hk heq
      · exact absurd heq hne
    · rintro ⟨hc, hout⟩
      refine ⟨⟨hc, fun k hk => hout k (.inl hk)⟩, ?_⟩
      intro heq
      apply hid
      rw [heq]
      apply hout 143 (.inr rfl) heq
  · intro c _ _
    have hd : s'.disk = s.disk := congrArg Lhd.disk h.device
    exact congrFun hd c
  · rw [Fs.size, hheap]
    rfl

/-- The indirect block is written back without the entries. -/
theorem ScanInv.written (hid : s.ptr p 143 ≠ 0) (h : ScanInv p s bl tbl 128 t s') :
  Shrunk p s (s'.write (s.ptr p 143) (Idbuf.encode t.idbuf)) (DroppedEntry bl)
  := by
  have hentry : ∀ i < 128, (s'.write (s.ptr p 143) (Idbuf.encode t.idbuf)).ptr p (15 + i)
      = (t.idbuf.get i).toNat := by
    intro i hi
    have hind : (s'.heap p).i.indirect.toNat = s.ptr p 143 := by
      rw [h.heap]
      rfl
    have htable : (s'.heap p).i.table (s'.write (s.ptr p 143) (Idbuf.encode t.idbuf)).disk
        = t.idbuf := by
      rw [Inode.table, hind, if_neg hid, Fs.disk_write, if_pos rfl, Idbuf.decode_encode]
    rw [Fs.ptr, Inode.ptr_entry hi]
    exact congrArg (fun b : Idbuf => (b.get i).toNat) htable
  have hother : ∀ k, k < 15 ∨ 143 ≤ k →
      (s'.write (s.ptr p 143) (Idbuf.encode t.idbuf)).ptr p k = s.ptr p k := by
    intro k hk
    have hheap : ((s'.write (s.ptr p 143) (Idbuf.encode t.idbuf)).heap p).i = (s.heap p).i := by
      rw [← h.heap]
      rfl
    have hsame : ∀ d d' : ℕ → Block, (s.heap p).i.ptr d k = (s.heap p).i.ptr d' k := by
      intro d d'
      rcases hk with hk | hk
      · rw [Inode.ptr_direct hk, Inode.ptr_direct hk]
      · have hlow : ¬ k < 15 := by omega
        have hmid : ¬ k < 143 := by omega
        simp only [Inode.ptr, if_neg hlow, if_neg hmid]
    rw [Fs.ptr, hheap]
    apply hsame
  apply Shrunk.release hok
  · exact h.same.trans (SameVolume.write p s' _ _)
  · exact h.sound.write _ _
  · rintro k ⟨-, hk, -⟩
    omega
  · rintro k ⟨hlow, hhigh, -, hlt⟩
    obtain ⟨i, rfl⟩ := Nat.exists_eq_add_of_le hlow
    rw [hentry _ (by omega), h.idbuf _ (by omega), if_pos (by omega)]
    rfl
  · intro k hk
    by_cases hin : 15 ≤ k ∧ k < 143
    · obtain ⟨i, rfl⟩ := Nat.exists_eq_add_of_le hin.1
      rw [hentry _ (by omega), h.idbuf _ (by omega), if_neg, htbl _ (by omega)]
      rintro ⟨-, hlt⟩
      exact hk ⟨hin.1, hin.2, hbl, hlt⟩
    · apply hother k
      omega
  · apply h.used_iff htbl hbl
  · intro c _ hc
    have hne : c ≠ s.ptr p 143 := by
      intro heq
      apply hid
      rw [← heq]
      exact hc heq
    have hd : s'.disk = s.disk := congrArg Lhd.disk h.device
    rw [Fs.disk_write, if_neg hne, hd]
  · exact congrArg (fun g : Ptr → SfsVnode => (g p).i.size.toNat) h.heap

/-- No entry is dropped, and nothing changed. -/
theorem ScanInv.clean (h : ScanInv p s bl tbl 128 t s') (hclean : t.iddirty = false) :
  Shrunk p s s' (DroppedEntry bl)
  := by
  have hd : s'.disk = s.disk := congrArg Lhd.disk h.device
  have hptr : ∀ k, s'.ptr p k = s.ptr p k := by
    intro k
    rw [Fs.ptr, h.heap, hd]
    rfl
  apply Shrunk.release hok
  · exact h.same
  · exact h.sound
  · rintro k ⟨-, hk, -⟩
    omega
  · rintro k ⟨hlow, hhigh, -, hlt⟩
    obtain ⟨i, rfl⟩ := Nat.exists_eq_add_of_le hlow
    rw [hptr, ← htbl _ (by omega), h.iddirty hclean _ (by omega) hlt]
    rfl
  · intro k _
    apply hptr
  · apply h.used_iff htbl hbl
  · intro c _ _
    rw [hd]
  · rw [Fs.size, h.heap]
    rfl

end

/-- The part on the indirect block: if it is looked at, it is freed when no entry is left. -/
theorem truncateIndirect_spec (h : s.Sound) (hok : s.FileOk p) (bl : ℕ) :
  wp (truncateIndirect p bl) s
    (fun _ s' => ∃ freed : Prop, Shrunk p s s' (fun k => DroppedEntry bl k ∨ (k = 143 ∧ freed))
      ∧ (freed → bl < 142)
      ∧ (bl < 142 → s'.ptr p 143 ≠ 0 → ∃ k, 15 ≤ k ∧ k < 143 ∧ s'.ptr p k ≠ 0))
  := by
  have hptr : (s.heap p).i.indirect.toNat = s.ptr p 143 := rfl
  simp only [truncateIndirect, wp_bind, wp_get, wp_ite, wp_pure, hptr]
  constructor
  · rintro ⟨hbl, hid⟩
    have hbl' : bl < 142 := by omega
    apply wp_imp (rblock_spec h.serves (hok.ptr_lt 143))
    rintro blk s₁ ⟨rfl, rfl⟩
    have htbl : ∀ i < 128,
        ((Idbuf.decode (s₁.disk (s₁.ptr p 143))).get i).toNat = s₁.ptr p (15 + i) := by
      intro i hi
      have hentry : s₁.ptr p (15 + i) = (((s₁.heap p).i.table s₁.disk).get i).toNat :=
        Inode.ptr_entry hi
      rw [hentry, Inode.table, hptr, if_neg hid]
    apply wp_imp (truncateScan_spec h hok htbl bl)
    intro t s₂ hscan
    constructor
    · intro hno
      have hfreed := hscan.freed hok htbl hbl' hid hno
      have hlt : s₁.ptr p 143 < s₂.nblocks := by
        rw [hscan.same.nblocks]
        apply hok.ptr_lt
      have hused : s₂.Used (s₁.ptr p 143) := by
        rw [hscan.used_iff htbl hbl']
        refine ⟨hok.ptr_used hid, ?_⟩
        rintro k ⟨-, hk, -⟩ heq
        have := hok.ptr_inj hid heq.symm
        omega
      apply wp_imp (bfree_spec hscan.sound hlt hused)
      rintro - s₃ rfl
      simp only [wp_modify]
      refine ⟨True, ?_, fun _ => hbl', ?_⟩
      · simpa only [and_true] using hfreed
      · intro _ hne
        exact absurd (hfreed.ptr_gone 143 (.inr rfl)) hne
    · intro hhas
      -- an entry that is left is one that is not dropped
      obtain ⟨i, hi, hne⟩ := hscan.nonzero (Bool.eq_true_of_not_eq_false hhas)
      have hkept : ¬ DroppedEntry bl (15 + i) := by
        rintro ⟨-, -, -, hlt⟩
        apply hne
        rw [hscan.idbuf i hi, if_pos ⟨hi, hlt⟩]
      have hleft : s₁.ptr p (15 + i) ≠ 0 := by
        intro hzero
        rw [← htbl i hi] at hzero
        apply hne
        rw [hscan.idbuf i hi]
        split
        · rfl
        · exact UInt32.toNat_inj.mp hzero
      have hentry : ∀ s', Shrunk p s₁ s' (DroppedEntry bl) →
          ∃ k, 15 ≤ k ∧ k < 143 ∧ s'.ptr p k ≠ 0 := by
        intro s' hshrunk
        refine ⟨15 + i, by omega, by omega, ?_⟩
        rw [hshrunk.ptr_kept _ hkept]
        exact hleft
      constructor
      · intro hdirty
        have hlt : s₁.ptr p 143 < s₂.nblocks := by
          rw [hscan.same.nblocks]
          apply hok.ptr_lt
        apply wp_imp (wblock_spec hscan.sound.serves hlt _)
        rintro - s₃ rfl
        have hw := hscan.written hok htbl hbl' hid
        refine ⟨False, ?_, False.elim, fun _ _ => hentry _ hw⟩
        simpa only [and_false, or_false] using hw
      · intro hclean
        have hc := hscan.clean hok htbl hbl' (Bool.eq_false_iff.mpr hclean)
        refine ⟨False, ?_, False.elim, fun _ _ => hentry _ hc⟩
        simpa only [and_false, or_false] using hc
  · intro hnot
    refine ⟨False, ?_, False.elim, ?_⟩
    · simp only [and_false, or_false]
      apply Shrunk.refl h hok
      rintro k ⟨hlow, hhigh, hbl, -⟩
      have hz : s.ptr p 143 = 0 := by
        by_contra hne
        exact hnot ⟨by omega, hne⟩
      exact Fs.ptr_of_no_indirect hz hlow hhigh
    · intro hlt hne
      exact absurd ⟨by omega, hne⟩ hnot

/-! ### Truncation -/

theorem blocklen_eq {len : ℕ} (h : len < 2 ^ 31 - 511) :
  blocklen len = (len + 511) / 512
  := by
  have hsub : i32 (i32 ((len : ℤ) + 512) - 1) = ((len + 511 : ℕ) : ℤ) := by
    unfold i32
    omega
  rw [blocklen, hsub, Int.tdiv_eq_ediv_of_nonneg (by omega), toU32]
  omega

/-- A file is truncated to the length `len`, which is `bl` blocks. -/
structure Truncated (p : Ptr) (s s' : Fs) (bl len : ℕ) : Prop extends FileStep p s s' where
  size : s'.size p = len
  byte_gone : ∀ pos, Dropped bl (pos / 512) → s'.byteAt p pos = 0
  byte_kept : ∀ pos, ¬ Dropped bl (pos / 512) → s'.byteAt p pos = s.byteAt p pos
  /-- A file without blocks has no indirect block. -/
  empty : bl = 0 → ∀ k, s'.ptr p k = 0

/-- The cells of a file that is truncated to `bl` blocks. -/
structure Cut (p : Ptr) (s s' : Fs) (bl : ℕ) : Prop where
  ptr_gone : ∀ k, Dropped bl k → s'.ptr p k = 0
  ptr_kept : ∀ k < 143, ¬ Dropped bl k → s'.ptr p k = s.ptr p k
  indirect : s'.ptr p 143 = s.ptr p 143 ∨ bl < 142 ∧ s'.ptr p 143 = 0
  entry : bl < 142 → s'.ptr p 143 ≠ 0 → ∃ k, 15 ≤ k ∧ k < 143 ∧ s'.ptr p k ≠ 0

/-- A file without blocks has no indirect block. -/
theorem Cut.empty (h : Cut p s s' bl) (hbl : bl = 0) (k : ℕ) :
  s'.ptr p k = 0
  := by
  have hgone : ∀ k < 143, s'.ptr p k = 0 := by
    intro k hk
    apply h.ptr_gone
    unfold Dropped DroppedEntry
    omega
  by_cases hk : k < 143
  · exact hgone k hk
  · by_cases h143 : k = 143
    · by_contra hne
      rw [h143] at hne
      obtain ⟨l, -, hl, hne'⟩ := h.entry (by omega) hne
      exact hne' (hgone l hl)
    · exact Inode.ptr_of_lt (by omega)

/-- `sfs_truncate`, with the blocks that the file is left with. -/
theorem truncate_cut (h : s.Sound) (hok : s.FileOk p) {len : ℕ} (hlen : len < 2 ^ 31) :
  wp (truncate p len) s
    (fun _ s' => Truncated p s s' (blocklen len) len ∧ Cut p s s' (blocklen len))
  := by
  simp only [truncate, wp_bind]
  apply wp_imp (truncateDirect_spec h hok _)
  intro _ s₁ hdirect
  apply wp_imp (truncateIndirect_spec hdirect.sound hdirect.ok _)
  rintro - s₂ ⟨freed, hindirect, hfreed, hentry⟩
  simp only [wp_modify]
  have hshrunk := hdirect.trans hindirect
  have hsize : (UInt32.ofNat (toU32 (len : ℤ))).toNat = len := by
    rw [UInt32.toNat_ofNat', toU32]
    omega
  obtain ⟨hstep, hptr, hbytes, hset⟩ :=
    FileStep.setSize hshrunk.sound hshrunk.ok (UInt32.ofNat (toU32 (len : ℤ)))
  have hdrop : ∀ k, Dropped (blocklen len) k → (k < 15 ∧ blocklen len ≤ k)
      ∨ DroppedEntry (blocklen len) k ∨ k = 143 ∧ freed := by
    rintro k (hlow | hhigh)
    · exact .inl hlow
    · exact .inr (.inl hhigh)
  have hkeep : ∀ k < 143, ¬ Dropped (blocklen len) k → ¬ ((k < 15 ∧ blocklen len ≤ k)
      ∨ DroppedEntry (blocklen len) k ∨ k = 143 ∧ freed) := by
    rintro k hk hnot (hlow | hhigh | ⟨heq, -⟩)
    · exact hnot (.inl hlow)
    · exact hnot (.inr hhigh)
    · omega
  generalize s₂.updateInode p (fun i => i.setSize (UInt32.ofNat (toU32 (len : ℤ)))) = s₃
    at hstep hptr hbytes hset ⊢
  have hcut : Cut p s s₃ (blocklen len) := by
    refine ⟨?_, ?_, ?_, ?_⟩
    · intro k hk
      rw [hptr]
      exact hshrunk.ptr_gone k (hdrop k hk)
    · intro k hk hnot
      rw [hptr]
      exact hshrunk.ptr_kept k (hkeep k hk hnot)
    · rw [hptr]
      by_cases hf : freed
      · exact .inr ⟨hfreed hf, hshrunk.ptr_gone 143 (.inr (.inr ⟨rfl, hf⟩))⟩
      · left
        apply hshrunk.ptr_kept
        rintro (⟨hlt, -⟩ | ⟨-, hlt, -⟩ | ⟨-, hf'⟩)
        · omega
        · omega
        · exact hf hf'
    · intro hbl hne
      rw [hptr] at hne
      obtain ⟨k, hlow, hhigh, hne'⟩ := hentry hbl hne
      refine ⟨k, hlow, hhigh, ?_⟩
      rw [hptr]
      exact hne'
  refine ⟨⟨hshrunk.toFileStep.trans hstep, hset.trans hsize, ?_, ?_, hcut.empty⟩, hcut⟩
  · intro pos hpos
    rw [hbytes]
    exact Inode.byteAt_of_ptr_eq_zero (hshrunk.ptr_gone _ (hdrop _ hpos))
  · intro pos hpos
    rw [hbytes]
    by_cases hin : pos / 512 < 143
    · exact hshrunk.byte_kept (hkeep _ hin hpos)
    · rw [Fs.byteAt, Fs.byteAt, Inode.byteAt_of_le (by omega), Inode.byteAt_of_le (by omega)]

theorem truncate_spec (h : s.Sound) (hok : s.FileOk p) {len : ℕ} (hlen : len < 2 ^ 31) :
  wp (truncate p len) s (fun _ s' => Truncated p s s' (blocklen len) len)
  := by
  apply wp_sure (truncate_cut h hok hlen)
  rintro - s' ⟨htrunc, -⟩
  exact htrunc

end Sfs
