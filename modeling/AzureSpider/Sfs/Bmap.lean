import AzureSpider.Sfs.Layout
import Mathlib.Data.Finset.Card
import Mathlib.Data.Finset.Range

/-!
# Mapping blocks

`sfs_bmap` finds the block of a position, and gives the file a block if there is none and it
is asked to.  A block that is given to a file was free and is cleared, so the bytes of the
file are the same before and after (`Grown`).
-/

open Routine

namespace Sfs

variable {p : Ptr} {s s' : Fs} {b k : ℕ}

/-! ### Giving a block to a file -/

section

variable (h : s.Sound) (hok : s.FileOk p)
include h hok

/-- A file is given a block that was free and is cleared. -/
theorem Grown.assign (hsame : SameVolume p s s') (hs' : s'.Sound) (hb : b < s.nblocks)
    (hfree : ¬ s.Used b) (hk : k < 144) (hz : s.ptr p k = 0)
    (hused : ∀ c, s'.Used c ↔ s.Used c ∨ c = b)
    (hptr : ∀ l, s'.ptr p l = if l = k then b else s.ptr p l)
    (hdisk : ∀ c, s.Used c → (c = s.ptr p 143 → c = 0) → s'.disk c = s.disk c)
    (hsize : s'.size p = s.size p) (hnew : k < 143 → s'.disk b = zeroBlock) :
  Grown p s s'
  := by
  have hb0 := h.ne_zero_of_free hfree
  have hcell : s'.cell p = Function.update (s.cell p) k b := by
    funext l
    rw [Fs.cell_eq, hsame.kept.ino, hptr, Function.update_apply, Fs.cell_eq]
    by_cases hl : l = 144
    · rw [if_pos hl, if_neg (by omega), if_pos hl]
    · rw [if_neg hl, if_neg hl]
  have hempty : s.cell p k = 0 := by
    rw [Fs.cell_eq, if_neg (by omega)]
    apply hz
  have hforeign : ∀ c, s'.Foreign p c ↔ s.Foreign p c :=
    Account.foreign_assign hempty hfree hb0 hused hcell
  -- the bytes lie in blocks that are in use and not the indirect block
  have hdata : ∀ l < 143, s.ptr p l ≠ 0 → s'.disk (s.ptr p l) = s.disk (s.ptr p l) := by
    intro l hl hne
    apply hdisk _ (hok.ptr_used hne)
    intro heq
    have hin := hok.ptr_inj hne heq
    omega
  refine ⟨⟨hsame, hs', ⟨hok.account.assign hfree hused hcell, ?_, ?_⟩, hforeign, ?_, ?_⟩,
    hsize, ?_, ?_⟩
  · intro l
    rw [hcell, Function.update_apply, hsame.nblocks]
    split
    · apply hb
    · apply hok.lt
  · rw [hsame.kept.ino]
    apply hok.ino_ne
  · intro c hc
    apply hdisk c hc.1
    intro heq
    by_contra hne
    rw [heq] at hne
    exact hc.ne_ptr hne heq
  · apply hdisk _ hok.ino_used
    intro heq
    exact absurd heq.symm (hok.ptr_ne_ino 143)
  · intro pos
    by_cases heq : pos / 512 = k
    · rw [← heq] at hz
      rw [Fs.byteAt, Fs.byteAt, Inode.byteAt_of_ptr_eq_zero hz, Inode.byteAt]
      split
      · have hblk : (s'.heap p).i.ptr s'.disk (pos / 512) = b := (hptr _).trans (if_pos heq)
        rw [hblk, hnew (by omega), zeroBlock_get]
      · rfl
    · exact Inode.byteAt_congr ((hptr _).trans (if_neg heq)) (hdata _)
  · intro l _ hne
    rw [hptr, if_neg]
    rintro rfl
    apply hne hz

/-- A block that is allocated is put in the cell `k` of the inode. -/
theorem Grown.cell {g : Inode → Inode} (hb : b < s.nblocks) (hfree : ¬ s.Used b) (hk : k < 144)
    (hz : s.ptr p k = 0) (htype : ∀ i, (g i).type = i.type)
    (hlink : ∀ i, (g i).linkcount = i.linkcount) (hsize : ∀ i, (g i).size = i.size)
    (hptr : ∀ l, ((s.allocated b).updateInode p g).ptr p l = if l = k then b else s.ptr p l) :
  Grown p s ((s.allocated b).updateInode p g) ∧ ((s.allocated b).updateInode p g).ptr p k = b
  := by
  refine ⟨?_, by rw [hptr, if_pos rfl]⟩
  apply Grown.assign h hok _ _ hb hfree hk hz _ hptr
  · intro c hc _
    apply if_neg
    rintro rfl
    apply hfree hc
  · rw [Fs.size, Fs.updateInode, Fs.heap_update_self]
    exact congrArg UInt32.toNat (hsize _)
  · intro _
    exact if_pos rfl
  · exact (SameVolume.allocated p s b).trans (SameVolume.updateInode p _ htype hlink)
  · exact (h.allocated hb).update p _
  · exact h.used_allocated hb

/-- A block that is allocated is put in the direct block `k`. -/
theorem Grown.direct (hb : b < s.nblocks) (hfree : ¬ s.Used b) (hk : k < 15) (hz : s.ptr p k = 0) :
  Grown p s ((s.allocated b).updateInode p fun i =>
    { i with direct := i.direct.set k (UInt32.ofNat b) })
    ∧ ((s.allocated b).updateInode p fun i =>
      { i with direct := i.direct.set k (UInt32.ofNat b) }).ptr p k = b
  := by
  refine Grown.cell h hok hb hfree (by omega) hz (fun _ => rfl) (fun _ => rfl) (fun _ => rfl) ?_
  intro l
  rw [Fs.ptr, Fs.updateInode, Fs.heap_update_self]
  rw [Inode.ptr_setDirect (d := s.disk) hk, h.toNat_ofNat hb]
  · rfl
  · intro hne
    apply if_neg
    intro heq
    apply hfree
    rw [← heq]
    exact hok.ptr_used (k := 143) hne

/-- A block that is allocated is made the indirect block. -/
theorem Grown.indirect (hb : b < s.nblocks) (hfree : ¬ s.Used b) (hz : s.ptr p 143 = 0) :
  Grown p s ((s.allocated b).updateInode p fun i => { i with indirect := UInt32.ofNat b })
    ∧ ((s.allocated b).updateInode p fun i =>
      { i with indirect := UInt32.ofNat b }).ptr p 143 = b
  := by
  have hnat := h.toNat_ofNat hb
  have hb0 := h.ne_zero_of_free hfree
  refine Grown.cell h hok hb hfree (by omega) hz (fun _ => rfl) (fun _ => rfl) (fun _ => rfl) ?_
  intro l
  have hcleared : (s.allocated b).disk (UInt32.ofNat b).toNat = zeroBlock := by
    rw [hnat]
    exact if_pos rfl
  have htable : Idbuf.decode ((s.allocated b).disk (UInt32.ofNat b).toNat) = Idbuf.zero := by
    rw [hcleared, Idbuf.decode_zeroBlock]
  have hset := Inode.ptr_setIndirect (d := s.disk) (i := (s.heap p).i) (l := l) hz
    (by rw [hnat]; apply hb0) htable
  rw [hnat] at hset
  rw [Fs.ptr, Fs.updateInode, Fs.heap_update_self]
  exact hset

/-- A block that is allocated is put in an entry of the indirect block. -/
theorem Grown.entry (hb : b < s.nblocks) (hfree : ¬ s.Used b) (hk : k < 128) (hid : s.ptr p 143 ≠ 0)
    (hz : s.ptr p (15 + k) = 0) :
  Grown p s ((s.allocated b).write (s.ptr p 143)
      (Idbuf.encode (((s.heap p).i.table s.disk).set k (UInt32.ofNat b))))
    ∧ ((s.allocated b).write (s.ptr p 143)
      (Idbuf.encode (((s.heap p).i.table s.disk).set k (UInt32.ofNat b)))).ptr p (15 + k) = b
  := by
  have hnat := h.toNat_ofNat hb
  have hne : b ≠ s.ptr p 143 := by
    rintro rfl
    apply hfree (hok.ptr_used hid)
  set blk := Idbuf.encode (((s.heap p).i.table s.disk).set k (UInt32.ofNat b)) with hblk
  have hptr : ∀ l, ((s.allocated b).write (s.ptr p 143) blk).ptr p l
      = if l = 15 + k then b else s.ptr p l := by
    intro l
    have hdec : Idbuf.decode (((s.allocated b).write (s.ptr p 143) blk).disk
        (s.heap p).i.indirect.toNat) = ((s.heap p).i.table s.disk).set k (UInt32.ofNat b) := by
      have hd : ((s.allocated b).write (s.ptr p 143) blk).disk (s.heap p).i.indirect.toNat
          = blk := if_pos rfl
      rw [hd, hblk, Idbuf.decode_encode]
    have hset := Inode.ptr_setEntry (l := l) hk hid hdec
    rw [hnat] at hset
    exact hset
  refine ⟨?_, by rw [hptr, if_pos rfl]⟩
  apply Grown.assign h hok _ _ hb hfree (by omega) hz _ hptr
  · intro c hc hc0
    by_cases heq : c = s.ptr p 143
    · exfalso
      apply hid
      rw [← heq]
      apply hc0 heq
    · have hcb : c ≠ b := by
        rintro rfl
        apply hfree hc
      rw [Fs.disk_write, if_neg heq]
      exact if_neg hcb
  · rfl
  · intro _
    rw [Fs.disk_write, if_neg hne]
    exact if_pos rfl
  · exact (SameVolume.allocated p s b).trans (SameVolume.write p _ _ _)
  · exact (h.allocated hb).write _ _
  · exact h.used_allocated hb

end

/-! ### The routines -/

/-- What `sfs_bmap` returns for the block `k` of a file. -/
structure Bmapped (p : Ptr) (k : ℕ) (doalloc : Bool) (s : Fs) (b : ℕ) (s' : Fs) : Prop
    extends Grown p s s' where
  block : b = s'.ptr p k
  alloc : doalloc = true → b ≠ 0
  look : doalloc = false → s' = s

/-- A block can be had for the block `k` of a file: the file has it, or there is a free one, and
another one for the indirect block if that is missing. -/
def Fs.Room (s : Fs) (p : Ptr) (k : ℕ) : Prop :=
  s.ptr p k ≠ 0 ∨ ∃ b < s.nblocks, ¬ s.Used b
    ∧ (15 ≤ k → s.ptr p 143 = 0 → ∃ c < s.nblocks, ¬ s.Used c ∧ c ≠ b)

theorem Fs.not_room (hz : s.ptr p k = 0) (hall : ∀ c < s.nblocks, s.Used c) :
  ¬ s.Room p k
  := by
  rintro (hne | ⟨b, hb, hfree, -⟩)
  · exact hne hz
  · exact hfree (hall b hb)

/-- The number of blocks whose bit in the free map is clear. -/
def Fs.freeBlocks (s : Fs) : ℕ := ((Finset.range s.nblocks).filter fun b => ¬ s.Used b).card

/-- The number of blocks that are allocated to give a file its block `k`. -/
def lacking (ptr : ℕ → ℕ) (k : ℕ) : ℕ :=
  if ptr k ≠ 0 then 0 else if 15 ≤ k ∧ ptr 143 = 0 then 2 else 1

theorem Fs.freeBlocks_lt (hroom : ¬ s.Room p k) :
  s.freeBlocks < lacking (s.ptr p) k
  := by
  have hz : ¬ s.ptr p k ≠ 0 := fun hne => hroom (.inl hne)
  by_contra hle
  apply hroom
  right
  rw [lacking, if_neg hz] at hle
  split_ifs at hle with hind
  · obtain ⟨b, hb, c, hc, hne⟩ := Finset.one_lt_card.mp (Nat.not_lt.mp hle)
    rw [Finset.mem_filter, Finset.mem_range] at hb hc
    exact ⟨b, hb.1, hb.2, fun _ _ => ⟨c, hc.1, hc.2, hne.symm⟩⟩
  · obtain ⟨b, hb⟩ := Finset.card_pos.mp (Nat.not_lt.mp hle)
    rw [Finset.mem_filter, Finset.mem_range] at hb
    exact ⟨b, hb.1, hb.2, fun hk hz' => absurd ⟨hk, hz'⟩ hind⟩

theorem Fs.freeBlocks_eq_zero (hall : ∀ c < s.nblocks, s.Used c) :
  s.freeBlocks = 0
  := by
  rw [Fs.freeBlocks, Finset.card_eq_zero, Finset.filter_eq_empty_iff]
  intro c hc hfree
  exact hfree (hall c (Finset.mem_range.mp hc))

/-- An allocation takes one block. -/
theorem Fs.freeBlocks_take {s' : Fs} (hb : b < s.nblocks) (hfree : ¬ s.Used b)
    (hn : s'.nblocks = s.nblocks) (hused : ∀ c, s'.Used c ↔ s.Used c ∨ c = b) :
  s.freeBlocks = s'.freeBlocks + 1
  := by
  have herase : ((Finset.range s'.nblocks).filter fun c => ¬ s'.Used c)
      = ((Finset.range s.nblocks).filter fun c => ¬ s.Used c).erase b := by
    ext c
    simp only [Finset.mem_filter, Finset.mem_erase, hn, hused, not_or]
    tauto
  rw [Fs.freeBlocks, Fs.freeBlocks, herase, Finset.card_erase_add_one]
  rw [Finset.mem_filter, Finset.mem_range]
  exact ⟨hb, hfree⟩

/-- What `sfs_bmap` returns, and whether it could have a block. -/
def Mapped (p : Ptr) (k : ℕ) (doalloc : Bool) (s : Fs) (b : ℕ) (s' : Fs) : Prop :=
  Bmapped p k doalloc s b s' ∧ (doalloc = true → s.Room p k)

/-- What happens when `sfs_bmap` finds no block. -/
structure Unmapped (p : Ptr) (k : ℕ) (doalloc : Bool) (s : Fs) (e : Errno) (s' : Fs) : Prop where
  enospc : e = .enospc
  alloc : doalloc = true
  ptr : s.ptr p k = 0
  grown : Grown p s s'
  room : ¬ s.Room p k

/-- A block of the file passes the check. -/
theorem checkUsed_spec (hok : s.FileOk p) (hb : b = s.ptr p k) (hQ : Q () s) :
  wp (checkUsed b) s Q E
  := by
  subst hb
  simp only [checkUsed, wp_ite, wp_bind, wp_pure]
  constructor
  · intro hne
    apply bused_spec (hok.ptr_lt k) (hok.ptr_used hne)
    simp only [wp_assert]
    exact ⟨trivial, hQ⟩
  · intro _
    apply hQ

section

variable (h : s.Sound) (hok : s.FileOk p)
include h hok

theorem bmapDirect_spec (hk : k < 15) (doalloc : Bool) :
  wp (bmapDirect p k doalloc) s (Mapped p k doalloc s) (Unmapped p k doalloc s)
  := by
  have hptr : ((s.heap p).i.direct.get k).toNat = s.ptr p k := (Inode.ptr_direct hk).symm
  simp only [bmapDirect, wp_bind, wp_get, wp_ite, hptr]
  constructor
  · rintro ⟨hz, halloc⟩
    apply wp_mono (balloc_spec h)
    · rintro b s' ⟨hb, hfree, -, rfl⟩
      obtain ⟨hgrown, hblock⟩ := Grown.direct h hok hb hfree hk hz
      have hb0 := h.ne_zero_of_free hfree
      simp only [wp_modify, wp_pure]
      apply checkUsed_spec hgrown.ok hblock.symm
      refine ⟨⟨hgrown, hblock.symm, fun _ => hb0, ?_⟩, fun _ => .inr ⟨b, hb, hfree, ?_⟩⟩
      · exact fun hlook => Bool.noConfusion (halloc.symm.trans hlook)
      · exact fun hlow => absurd hlow (by omega)
    · rintro e s' ⟨rfl, hall, rfl⟩
      exact ⟨rfl, halloc, hz, Grown.refl h hok, Fs.not_room hz hall⟩
  · intro hnot
    simp only [wp_pure]
    apply checkUsed_spec hok rfl
    have hmapped : doalloc = true → s.ptr p k ≠ 0 := fun halloc hz => hnot ⟨hz, halloc⟩
    exact ⟨⟨Grown.refl h hok, rfl, hmapped, fun _ => rfl⟩, fun halloc => .inl (hmapped halloc)⟩

/-- The indirect block, which a file without one is given. -/
theorem bmapIdblock_spec :
  wp (bmapIdblock p) s
    (fun r s' => Grown p s s' ∧ r.1 = s'.ptr p 143 ∧ r.1 ≠ 0
      ∧ r.2 = (s'.heap p).i.table s'.disk ∧ (s.ptr p 143 ≠ 0 → s' = s)
      ∧ (s.ptr p 143 = 0 → r.2 = Idbuf.zero ∧ r.1 < s.nblocks ∧ ¬ s.Used r.1
        ∧ ∀ c, s'.Used c ↔ s.Used c ∨ c = r.1))
    (fun e s' => e = .enospc ∧ s.ptr p 143 = 0 ∧ s' = s ∧ ∀ c < s.nblocks, s.Used c)
  := by
  have hptr : (s.heap p).i.indirect.toNat = s.ptr p 143 := rfl
  simp only [bmapIdblock, wp_bind, wp_get, wp_ite, hptr]
  constructor
  · intro hz
    apply wp_mono (balloc_spec h)
    · rintro b s' ⟨hb, hfree, -, rfl⟩
      obtain ⟨hgrown, hblock⟩ := Grown.indirect h hok hb hfree hz
      have hb0 := h.ne_zero_of_free hfree
      simp only [wp_modify, wp_pure]
      refine ⟨hgrown, hblock.symm, hb0, ?_, fun hne => absurd hz hne, fun _ => ?_⟩
      · rw [Fs.updateInode, Fs.heap_update_self, Inode.table]
        have hnat := h.toNat_ofNat hb
        simp only [hnat, if_neg hb0]
        have hcleared : (s.allocated b).disk b = zeroBlock := if_pos rfl
        exact ((congrArg Idbuf.decode hcleared).trans Idbuf.decode_zeroBlock).symm
      · exact ⟨trivial, hb, hfree, h.used_allocated hb⟩
    · rintro e s' ⟨rfl, hall, rfl⟩
      exact ⟨rfl, hz, rfl, hall⟩
  · intro hne
    apply wp_sure (rblock_spec h.serves (hok.ptr_lt 143))
    rintro blk s' ⟨rfl, rfl⟩
    simp only [wp_pure]
    refine ⟨Grown.refl h hok, trivial, hne, ?_, fun _ => trivial, fun hz => absurd hz hne⟩
    rw [Inode.table, hptr, if_neg hne]

theorem bmapIndirect_spec (hk : k < 128) (doalloc : Bool) :
  wp (bmapIndirect p k doalloc) s (Mapped p (15 + k) doalloc s)
    (Unmapped p (15 + k) doalloc s)
  := by
  have hptr : (s.heap p).i.indirect.toNat = s.ptr p 143 := rfl
  have hnone : s.ptr p 143 = 0 → s.ptr p (15 + k) = 0 :=
    fun hz => Fs.ptr_of_no_indirect hz (by omega) (by omega)
  simp only [bmapIndirect, wp_bind, wp_get, wp_ite, hptr]
  constructor
  · rintro ⟨hz, rfl⟩
    simp only [wp_pure]
    exact ⟨⟨Grown.refl h hok, (hnone hz).symm, Bool.noConfusion, fun _ => rfl⟩, Bool.noConfusion⟩
  · intro hnot
    apply wp_mono (bmapIdblock_spec h hok)
    · rintro ⟨idblock, idbuf⟩ s₁ ⟨hgrown, hid, hid0, hidbuf, hsame, hnew⟩
      simp only at hid hid0 hidbuf hnew
      subst hid hidbuf
      have hentry : (((s₁.heap p).i.table s₁.disk).get k).toNat = s₁.ptr p (15 + k) :=
        (Inode.ptr_entry hk).symm
      simp only [hentry]
      constructor
      · rintro ⟨hz, halloc⟩
        have h₁ := hgrown.sound
        apply wp_mono (balloc_spec h₁)
        · rintro b s₂ ⟨hb, hfree, -, rfl⟩
          obtain ⟨hgrown', hblock⟩ := Grown.entry h₁ hgrown.ok hb hfree hk hid0 hz
          have hb0 := h₁.ne_zero_of_free hfree
          have hlt : s₁.ptr p 143 < (s₁.allocated b).nblocks := hgrown.ok.ptr_lt 143
          apply wp_sure (wblock_spec (h₁.allocated hb).serves hlt _)
          rintro - s₃ rfl
          simp only [wp_pure]
          apply checkUsed_spec hgrown'.ok hblock.symm
          refine ⟨⟨hgrown.trans hgrown', hblock.symm, fun _ => hb0, fun hlook => Bool.noConfusion
            (halloc.symm.trans hlook)⟩, fun _ => .inr ?_⟩
          by_cases hind : s.ptr p 143 = 0
          · obtain ⟨-, hlt', hfree', hused⟩ := hnew hind
            rw [hused, not_or] at hfree
            rw [hgrown.nblocks] at hb
            exact ⟨b, hb, hfree.1, fun _ _ => ⟨_, hlt', hfree', Ne.symm hfree.2⟩⟩
          · rw [hsame hind] at hb hfree
            exact ⟨b, hb, hfree, fun _ hz' => absurd hz' hind⟩
        · rintro e s₂ ⟨rfl, hall, rfl⟩
          have hptr0 : s.ptr p (15 + k) = 0 := by
            by_contra hne
            rw [hgrown.mapped (15 + k) (by omega) hne] at hz
            exact hne hz
          refine ⟨rfl, halloc, hptr0, hgrown, ?_⟩
          rw [hgrown.nblocks] at hall
          rintro (hne | ⟨b, hb, hfree, hother⟩)
          · exact hne hptr0
          · by_cases hind : s.ptr p 143 = 0
            · -- the only free block went to the indirect block
              obtain ⟨-, -, -, hused⟩ := hnew hind
              obtain ⟨c, hc, hfree', hne⟩ := hother (by omega) hind
              have hb' := ((hused b).mp (hall b hb)).resolve_left hfree
              have hc' := ((hused c).mp (hall c hc)).resolve_left hfree'
              exact hne (hc'.trans hb'.symm)
            · rw [hsame hind] at hall
              exact hfree (hall b hb)
      · intro hnot'
        simp only [wp_pure]
        apply checkUsed_spec hgrown.ok rfl
        have hmapped : doalloc = true → s₁.ptr p (15 + k) ≠ 0 := fun halloc hz => hnot' ⟨hz, halloc⟩
        refine ⟨⟨hgrown, rfl, hmapped, ?_⟩, ?_⟩
        · intro hlook
          apply hsame
          intro hz
          exact hnot ⟨hz, hlook⟩
        · intro halloc
          left
          have hne := hmapped halloc
          by_cases hind : s.ptr p 143 = 0
          · rw [← hentry, (hnew hind).1, Idbuf.zero_get] at hne
            exact absurd rfl hne
          · rwa [hsame hind] at hne
    · rintro e s₁ ⟨rfl, hz, rfl, hall⟩
      refine ⟨rfl, ?_, hnone hz, Grown.refl h hok, Fs.not_room (hnone hz) hall⟩
      cases doalloc with
      | true => rfl
      | false => exact absurd ⟨hz, rfl⟩ hnot

/-- `sfs_bmap` for a block that a file can have, and whether it succeeds. -/
theorem bmap_mapped (hk : k < 143) (doalloc : Bool) :
  wp (bmap p k doalloc) s (Mapped p k doalloc s) (Unmapped p k doalloc s)
  := by
  simp only [bmap, wp_ite]
  refine ⟨fun hlt => bmapDirect_spec h hok hlt doalloc, fun hge => ⟨?_, ?_⟩⟩
  · intro hpos
    exfalso
    omega
  · intro _
    have hmod : (k - 15) % 128 = k - 15 := Nat.mod_eq_of_lt (by omega)
    have heq : 15 + (k - 15) = k := by omega
    have hspec := bmapIndirect_spec h hok (k := k - 15) (by omega) doalloc
    rw [heq] at hspec
    rw [hmod]
    apply hspec

/-- `sfs_bmap` that only looks. -/
theorem bmap_look (hk : k < 143) :
  bmap p k false s = .ok (s.ptr p k) s
  := by
  obtain ⟨b, s', hrun, hb, -⟩ := exists_ok_of (bmap_mapped h hok hk false)
    fun _ _ hnone => Bool.noConfusion hnone.alloc
  obtain rfl := hb.look rfl
  rw [hrun, hb.block]

end

/-- `sfs_bmap` for a block that no file can have. -/
theorem bmap_einval (hk : 143 ≤ k) (doalloc : Bool) (hE : E .einval s) :
  wp (bmap p k doalloc) s Q E
  := by
  have hpos : 0 < (k - 15) / 128 := by omega
  rw [bmap, if_neg (by omega), if_pos hpos, wp_fail]
  apply hE

end Sfs
