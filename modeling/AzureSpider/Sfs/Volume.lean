import AzureSpider.Dev.Lhd
import AzureSpider.Kern.Bitmap
import AzureSpider.Kern.Table
import AzureSpider.Sfs.Format

/-!
# Volumes

The state of a mounted SFS volume, `struct sfs_fs`, the block I/O of `sfs_io.c`, and the
allocation of blocks of `sfs_vnode.c`.

The vnode structures lie in a heap, at addresses that stand for their identity: a structure
that is made gets an address that was not in use before.  The answers of `kmalloc` are handed
to the volume beforehand; without answers, `kmalloc` succeeds.
-/

open Machine Routine

namespace Sfs

/-- The address of a vnode. -/
abbrev Ptr : Type := ℕ

/-- The function tables `sfs_fileops` and `sfs_dirops`. -/
inductive VnodeOps where
  | fileops | dirops
  deriving DecidableEq, Repr

/-- `struct sfs_vnode`, with the fields of `struct vnode` that the volume uses. -/
structure SfsVnode where
  /-- `vn_ops`, which is null after `vnode_kill`. -/
  ops : Option VnodeOps
  refcount : ℕ
  opencount : ℕ
  i : Inode
  ino : ℕ
  dirty : Bool

/-- `struct sfs_fs`, with the memory that it uses. -/
structure Fs where
  device : Lhd
  /-- `sp_nblocks` of the superblock. -/
  nblocks : ℕ
  /-- The loaded vnodes. -/
  vnodes : Table Ptr
  freemap : Bitmap
  freemapdirty : Bool
  /-- The vnode structures. -/
  heap : Ptr → SfsVnode
  /-- The address that the next structure gets. -/
  next : Ptr
  /-- Whether the coming calls of `kmalloc` succeed. -/
  kmallocs : List Bool

/-- A routine on a volume. -/
abbrev Run (α : Type) : Type := Routine Errno FsPanic Fs α

/-- A routine on a volume and a region. -/
abbrev IoRun (α : Type) : Type := Routine Errno FsPanic (Fs × Uio) α

namespace Fs

/-- The contents of the blocks. -/
def disk (s : Fs) : ℕ → Block := s.device.disk

/-- The volume with new contents of a block. -/
def write (s : Fs) (b : ℕ) (blk : Block) : Fs := { s with device := s.device.put b blk }

/-- The volume with a changed vnode. -/
def update (s : Fs) (p : Ptr) (f : SfsVnode → SfsVnode) : Fs :=
  { s with heap := fun q => if q = p then f (s.heap p) else s.heap q }

/-- The volume with a changed inode of a vnode, which is dirty then. -/
def updateInode (s : Fs) (p : Ptr) (f : Inode → Inode) : Fs :=
  s.update p fun sv => { sv with i := f sv.i, dirty := true }

/-- The volume with another free map, which is dirty then. -/
def setFreemap (s : Fs) (b : Bitmap) : Fs := { s with freemap := b, freemapdirty := true }

/-- A block that is marked in use. -/
def Used (s : Fs) (b : ℕ) : Prop := s.freemap.isset b = true

instance (s : Fs) (b : ℕ) : Decidable (s.Used b) :=
  inferInstanceAs (Decidable (s.freemap.isset b = true))

end Fs

/-! ### Block I/O -/

/-- `sfs_rwblock` with so many tries left: an I/O error is tried again. -/
def rwblockFrom : (tries : ℕ) → Routine Errno FsPanic (Lhd × Uio) Unit
  | 0 => do
      match ← attempt Lhd.io with
      | .ok _ => pure ()
      | .error e =>
        if e = .einval then Routine.panic .rwblockEinval else fail e
  | tries + 1 => do
      match ← attempt Lhd.io with
      | .ok _ => pure ()
      | .error e =>
        if e = .einval then Routine.panic .rwblockEinval
        else if e = .eio then rwblockFrom tries
        else fail e

/-- `sfs_rwblock`. -/
def rwblock : IoRun Unit :=
  zoom (fun su => (su.1.device, su.2)) (fun du su => ({ su.1 with device := du.1 }, du.2))
    (rwblockFrom 10)

/-- `SFSUIO`: the region of a buffer for a block. -/
def sfsuio (data : Block) (block : ℕ) (rw : UioRw) : Uio :=
  Uio.mkKuio data 512 (i32 (i32 block * 512)) rw

/-- `sfs_rblock`. -/
def rblock (block : ℕ) : Run Block := do
  let r ← withState (sfsuio zeroBlock block .read) rwblock
  match r.1 with
  | .ok _ => pure (Buf.ofFn r.2.mem)
  | .error e => fail e

/-- `sfs_wblock`. -/
def wblock (data : Block) (block : ℕ) : Run Unit := do
  let r ← withState (sfsuio data block .write) rwblock
  match r.1 with
  | .ok _ => pure ()
  | .error e => fail e

/-- `sfs_clearblock`. -/
def clearblock (block : ℕ) : Run Unit := wblock zeroBlock block

/-! ### Space allocation -/

/-- `sfs_balloc`. -/
def balloc : Run ℕ := do
  let diskblock ← zoom Fs.freemap (fun b s => { s with freemap := b }) Bitmap.alloc
  modify fun s => { s with freemapdirty := true }
  let s ← get
  assert (diskblock < s.nblocks) .ballocInvalidBlock
  clearblock diskblock
  pure diskblock

/-- `sfs_bfree`. -/
def bfree (diskblock : ℕ) : Run Unit := do
  zoom Fs.freemap (fun b s => { s with freemap := b }) (Bitmap.unmark diskblock)
  modify fun s => { s with freemapdirty := true }

/-- `sfs_bused`. -/
def bused (diskblock : ℕ) : Run Bool := do
  let s ← get
  assert (diskblock < s.nblocks) .busedOutOfRange
  pure (s.freemap.isset diskblock)

/-! ### Volumes in working order -/

/-- A volume in working order: the device does not fail, the free map has a bit for each block
and the bits that belong to no block are set. -/
structure Fs.Sound (s : Fs) : Prop where
  serves : s.device.Serves s.nblocks
  full : s.freemap.Full
  le : s.nblocks ≤ s.freemap.nbits
  beyond : ∀ b, s.nblocks ≤ b → b < s.freemap.nbits → s.Used b
  /-- The superblock is in use. -/
  super : s.Used 0

namespace Fs

variable {s : Fs} {b c : ℕ} {blk : Block} {p q : Ptr}

@[simp]
theorem disk_write : (s.write b blk).disk c = if c = b then blk else s.disk c
  := rfl

@[simp]
theorem disk_update (f : SfsVnode → SfsVnode) : (s.update p f).disk = s.disk
  := rfl

@[simp]
theorem heap_update (f : SfsVnode → SfsVnode) :
  (s.update p f).heap q = if q = p then f (s.heap p) else s.heap q
  := rfl

theorem heap_update_self (f : SfsVnode → SfsVnode) :
  (s.update p f).heap p = f (s.heap p)
  := if_pos rfl

theorem Sound.used_mark (h : s.Sound) (hb : b < s.freemap.nbits) :
  (s.setFreemap (s.freemap.mark b)).Used c ↔ s.Used c ∨ b = c
  := by
  simp [Used, setFreemap, h.full.isset_mark hb]

theorem used_unmarked :
  (s.setFreemap (s.freemap.unmarked b)).Used c ↔ s.Used c ∧ b ≠ c
  := by
  simp [Used, setFreemap, Bitmap.isset_unmarked]

theorem Sound.lt_of_used (h : s.Sound) (hb : s.Used b) :
  b < s.freemap.nbits
  := by
  by_contra hge
  have hlen := h.full.length_eq
  have hclear : s.freemap.isset b = false := by
    apply BitWords.getBit_eq_false_of_le (by decide)
    omega
  rw [Used, hclear] at hb
  cases hb

theorem Sound.ne_zero_of_free (h : s.Sound) (hfree : ¬ s.Used b) :
  b ≠ 0
  := by
  rintro rfl
  exact hfree h.super

theorem Sound.write (h : s.Sound) (b : ℕ) (blk : Block) :
  (s.write b blk).Sound
  := { h with serves := { h.serves with } }

theorem Sound.update (h : s.Sound) (p : Ptr) (f : SfsVnode → SfsVnode) :
  (s.update p f).Sound
  := { h with }

theorem Sound.mark (h : s.Sound) (hb : b < s.freemap.nbits) :
  (s.setFreemap (s.freemap.mark b)).Sound
  := by
  refine ⟨h.serves, h.full.mark b, h.le, ?_, ?_⟩
  · intro c hc hlt
    apply (h.used_mark hb).mpr
    left
    apply h.beyond c hc hlt
  · apply (h.used_mark hb).mpr
    left
    apply h.super

theorem Sound.unmarked (h : s.Sound) (hb : b < s.nblocks) (hz : b ≠ 0) :
  (s.setFreemap (s.freemap.unmarked b)).Sound
  := by
  refine ⟨h.serves, h.full.unmarked b, h.le, ?_, ?_⟩
  · intro c hc hlt
    have hne : b ≠ c := by
      have hc' : s.nblocks ≤ c := hc
      omega
    exact used_unmarked.mpr ⟨h.beyond c hc hlt, hne⟩
  · exact used_unmarked.mpr ⟨h.super, hz⟩

/-- A number of a block can be stored in 32 bits. -/
theorem Sound.toNat_ofNat (h : s.Sound) (hb : b < s.nblocks) :
  (UInt32.ofNat b).toNat = b
  := by
  have hsmall := h.serves.small
  rw [UInt32.toNat_ofNat']
  omega

end Fs

/-! ### What the routines do to a volume in working order -/

section Specs

variable {s : Fs} {u : Uio} {b n : ℕ}

/-- An error that a device returns other than `EINVAL` and `EIO` is final. -/
theorem rwblockFrom_spec {d : Lhd} (tries : ℕ)
    (h : wp Lhd.io (d, u) Q (fun e du => e = .efault ∧ E e du)) :
  wp (rwblockFrom tries) (d, u) Q E
  := by
  cases tries with
  | zero | succ =>
    simp only [rwblockFrom, wp_bind, wp_attempt]
    apply wp_mono h
    · intro _ du hQ
      simpa only [wp_pure] using hQ
    · rintro e du ⟨rfl, hE⟩
      simpa using hE

section

variable (h : s.device.Serves n) (hb : b < n)
include h hb

/-- What `sfs_rwblock` gives of one block. -/
theorem rwblock_read (hu : u.Ready) (hrw : u.rw = .read) (hoff : u.offset = 512 * (b : ℤ))
    (hresid : u.resid = 512) :
  wp rwblock (s, u)
    (fun _ su => su.1 = s ∧ Uio.Given u su.2 512 (s.disk b).get)
    (fun e su => e = .efault ∧ ¬ u.Reliable ∧ su.1 = s ∧ Uio.Taken u su.2 0)
  := by
  simp only [rwblock, wp_zoom]
  apply rwblockFrom_spec
  apply wp_mono (Lhd.io_read h hb hu hrw hoff hresid)
  · rintro - ⟨d, u'⟩ ⟨rfl, hgiven⟩
    exact ⟨rfl, hgiven⟩
  · rintro e ⟨d, u'⟩ ⟨rfl, hr, rfl, htaken⟩
    exact ⟨rfl, rfl, hr, rfl, htaken⟩

/-- What `sfs_rwblock` stores in one block. -/
theorem rwblock_write (hu : u.Ready) (hrw : u.rw = .write) (hoff : u.offset = 512 * (b : ℤ))
    (hresid : u.resid = 512) :
  wp rwblock (s, u)
    (fun _ su =>
      su.1 = s.write b (Buf.ofFn fun j => u.mem (u.base + j)) ∧ Uio.Taken u su.2 512 ∧ u.Copies)
    (fun e su => e = .efault ∧ ¬ u.Copies ∧ su.1 = s ∧ Uio.Taken u su.2 0)
  := by
  simp only [rwblock, wp_zoom]
  apply rwblockFrom_spec
  apply wp_mono (Lhd.io_write h hb hu hrw hoff hresid)
  · rintro - ⟨d, u'⟩ ⟨rfl, htaken⟩
    exact ⟨rfl, htaken⟩
  · rintro e ⟨d, u'⟩ ⟨rfl, hr, rfl, htaken⟩
    exact ⟨rfl, rfl, hr, rfl, htaken⟩

/-- The region for a block is ready for I/O on the block. -/
theorem sfsuio_ready (data : Block) (rw : UioRw) :
  (sfsuio data b rw).Ready ∧ (sfsuio data b rw).offset = 512 * (b : ℤ)
  := by
  have hsmall := h.small
  have hin : i32 (b : ℤ) = b := by
    apply i32_of_mem
    · omega
    · omega
  have hoff : i32 (i32 (b : ℤ) * 512) = 512 * (b : ℤ) := by
    rw [hin, Int.mul_comm, i32_of_mem (by omega) (by omega)]
  refine ⟨Uio.mkKuio_ready data rw ?_ ?_ ?_, hoff⟩
  all_goals
    rw [hoff]
    omega

theorem rblock_spec :
  wp (rblock b) s (fun blk s' => blk = s.disk b ∧ s' = s)
  := by
  obtain ⟨hready, hoff⟩ := sfsuio_ready h hb zeroBlock .read
  simp only [rblock, wp_bind, wp_withState]
  apply wp_mono (rwblock_read h hb hready rfl hoff rfl)
  · rintro - ⟨s', u'⟩ ⟨rfl, hgiven⟩
    simp only [wp_pure]
    refine ⟨?_, trivial⟩
    apply Buf.ext'
    intro j hj
    rw [Buf.get_ofFn _ hj, hgiven.mem j]
    have hbase : (sfsuio zeroBlock b .read).base = 0 := rfl
    rw [hbase, if_pos (by omega), Nat.sub_zero]
  · rintro e ⟨s', u'⟩ ⟨-, hr, -⟩
    exact absurd (Uio.mkKuio_reliable _ _ _ _) hr

theorem wblock_spec (data : Block) :
  wp (wblock data b) s (fun _ s' => s' = s.write b data)
  := by
  obtain ⟨hready, hoff⟩ := sfsuio_ready h hb data .write
  simp only [wblock, wp_bind, wp_withState]
  apply wp_mono (rwblock_write h hb hready rfl hoff rfl)
  · rintro - ⟨s', u'⟩ ⟨rfl, -⟩
    have hbuf : (Buf.ofFn fun j => data.get (0 + j) : Block) = data := by
      simp only [Nat.zero_add]
      apply Buf.ofFn_get
    simp only [sfsuio, Uio.mkKuio, hbuf, wp_pure]
  · rintro e ⟨s', u'⟩ ⟨-, hr, -⟩
    exact absurd (Uio.mkKuio_reliable _ _ _ _).copies hr

end

/-- The volume after a block is allocated. -/
def Fs.allocated (s : Fs) (b : ℕ) : Fs := (s.setFreemap (s.freemap.mark b)).write b zeroBlock

/-- The volume after a block is freed. -/
def Fs.freed (s : Fs) (b : ℕ) : Fs := s.setFreemap (s.freemap.unmarked b)

theorem Fs.Sound.allocated (h : s.Sound) (hb : b < s.nblocks) :
  (s.allocated b).Sound
  := (h.mark (Nat.lt_of_lt_of_le hb h.le)).write b zeroBlock

theorem Fs.Sound.used_allocated (h : s.Sound) (hb : b < s.nblocks) (c : ℕ) :
  (s.allocated b).Used c ↔ s.Used c ∨ c = b
  := (h.used_mark (Nat.lt_of_lt_of_le hb h.le)).trans (or_congr_right eq_comm)

/-- `sfs_balloc` allocates the first block that was free, or the volume is full. -/
theorem balloc_spec (h : s.Sound) :
  wp balloc s
    (fun b s' => b < s.nblocks ∧ ¬ s.Used b ∧ (∀ c < b, s.Used c) ∧ s' = s.allocated b)
    (fun e s' => e = .enospc ∧ (∀ c < s.nblocks, s.Used c) ∧ s' = s)
  := by
  simp only [balloc, wp_bind, wp_zoom]
  apply wp_mono (Bitmap.alloc_padded h.full.padded)
  · rintro b m ⟨hb, hclear, hleast, rfl⟩
    have hfree : ¬ s.Used b := by
      rw [Fs.Used, hclear]
      exact Bool.false_ne_true
    have hlt : b < s.nblocks := by
      by_contra hge
      apply hfree (h.beyond b (Nat.not_lt.mp hge) hb)
    simp only [wp_modify, wp_get, wp_assert]
    refine ⟨hlt, ?_⟩
    apply wp_sure (wblock_spec (h.mark hb).serves hlt zeroBlock)
    rintro - s' rfl
    simp only [wp_pure]
    exact ⟨hlt, hfree, hleast, rfl⟩
  · rintro e m ⟨rfl, hall, rfl⟩
    refine ⟨rfl, ?_, rfl⟩
    intro c hc
    exact hall c (Nat.lt_of_lt_of_le hc h.le)

theorem bfree_spec (h : s.Sound) (hb : b < s.nblocks) (hused : s.Used b) :
  wp (bfree b) s (fun _ s' => s' = s.freed b)
  := by
  have hle := h.le
  simp only [bfree, wp_bind, wp_zoom]
  apply wp_imp (Bitmap.unmark_spec (b := s.freemap) (by omega) hused)
  rintro - m rfl
  simp only [wp_modify]
  rfl

theorem bused_spec (hb : b < s.nblocks) (hused : s.Used b) (hQ : Q true s) :
  wp (bused b) s Q E
  := by
  simp only [bused, wp_bind, wp_get, wp_assert, wp_pure]
  refine ⟨hb, ?_⟩
  rw [show s.freemap.isset b = true from hused]
  apply hQ

end Specs

end Sfs
