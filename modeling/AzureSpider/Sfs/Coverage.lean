import AzureSpider.Sfs.Mount
import AzureSpider.Sfs.Report

/-!
# The free map of any superblock

`sfs_domount` makes the free map as large as `SFS_BITMAPSIZE` says and accepts any number of
blocks that a superblock names.  The rounding is done in 32 bits: for the last 4095 numbers it
wraps to 0, and the volume is mounted with a map that has no storage.

The device and the allocator may fail at any point; what is said here is about the mounts that
succeed.
-/

open Machine Routine

namespace Sfs

/-! ### The size of the map -/

section Size

variable {n : ℕ}

theorem bitmapSize_eq_mul (n : ℕ) :
  bitmapSize n = 4096 * bitBlocks n ∧ bitBlocks n < 2 ^ 20
  := by
  have hlt := u32_lt (n + 4096 - 1)
  unfold bitBlocks bitmapSize
  omega

theorem le_bitmapSize (h : n + 4095 < 2 ^ 32) :
  n ≤ bitmapSize n
  := by
  rw [bitmapSize, u32_of_lt (by omega)]
  omega

/-- The sum that is rounded wraps. -/
theorem bitmapSize_of_le (h : 2 ^ 32 ≤ n + 4095) (hn : n < 2 ^ 32) :
  bitmapSize n = 0
  := by
  unfold bitmapSize u32
  omega

end Size

/-! ### Reading the map -/

attribute [local irreducible] wlp

section Reading

variable {s s' : Fs}

/-- What reading blocks of the map leaves as it was. -/
structure MapKept (s s' : Fs) : Prop where
  disk : s'.device.disk = s.device.disk
  nblocks : s'.nblocks = s.nblocks
  nbits : s'.freemap.nbits = s.freemap.nbits
  length : s'.freemap.v.length = s.freemap.v.length

/-- `sfs_mapio` that returns 0 has read the free map that the disk holds. -/
theorem mapioRead_loads (hfull : s.freemap.Full) (hnbits : s.freemap.nbits = bitmapSize s.nblocks) :
  wlp (fun _ => True) mapioRead s
    (fun _ s' => MapKept s s' ∧ Loaded s.disk s.nblocks s'.freemap) (fun _ _ => True)
  := by
  obtain ⟨hsize, hbound⟩ := bitmapSize_eq_mul s.nblocks
  simp only [mapioRead, wlp_bind, wlp_get]
  apply wlp_imp (wlp_loop_run (fun j _ s' => MapKept s s' ∧ LoadedTo s.disk j s'.freemap)
    ⟨⟨rfl, rfl, rfl, rfl⟩, loadedTo_zero _ _⟩ ?_)
  · rintro - s' ⟨hkept, hall⟩
    have hfull' : s'.freemap.Full := by
      constructor
      · rw [hkept.length, hkept.nbits]
        exact hfull.length_eq
      · rw [hkept.nbits]
        exact hfull.lt
    exact ⟨hkept, hall.loaded hfull' (hkept.nbits.trans hnbits) hsize⟩
  · rintro j - s' hj ⟨hkept, hall⟩
    rw [wlp_bind]
    apply wlp_returns
    intro blk s₁ hread
    obtain ⟨rfl, d, hd, rfl⟩ := rblock_ok (by omega) hread
    have hblk : s'.disk (2 + j) = s.disk (2 + j) := congrFun hkept.disk _
    rw [hblk, wlp_modify]
    exact ⟨⟨hd.trans hkept.disk, hkept.nblocks, hkept.nbits,
      (length_loadMapBlock ..).trans hkept.length⟩, hall.succ⟩

end Reading

/-! ### Mounting -/

section Mounting

variable {m m' : Mounted}

theorem wlp_onFs {α : Type} {r : Run α} {P : FsPanic → Prop} {Q : α → Mounted → Prop}
    {E : Errno → Mounted → Prop} :
  wlp P (onFs r) m Q E
    ↔ wlp P r m.fs (fun a s => Q a { m with fs := s }) (fun e s => E e { m with fs := s })
  := wlp_zoom _ _

theorem kmallocOrFail_returns {s : Fs} (h : Q () { s with kmallocs := s.kmallocs.tail }) :
  wlp (fun _ => True) kmallocOrFail s Q (fun _ _ => True)
  := by
  simp only [kmallocOrFail, kmalloc, wlp_bind, wlp_get, wlp_modify, wlp_pure, wlp_ite, wlp_fail]
  exact ⟨fun _ => h, fun _ => trivial⟩

/-- The free map of a mounted volume covers the volume that the disk holds. -/
structure Covers (d : ℕ → Block) (m : Mounted) : Prop where
  nbits : m.fs.nblocks ≤ m.fs.freemap.nbits
  storage : m.fs.freemap.v.length = (m.fs.freemap.nbits + 7) / 8
  loaded : ∀ i < m.fs.freemap.nbits,
    m.fs.freemap.isset i = blockBit (d (2 + i / 4096)) (i % 4096)
  /-- The range checks of `sfs_bused` and of `sfs_balloc` let only these blocks through. -/
  inside : ∀ b < m.fs.nblocks, b / 8 < m.fs.freemap.v.length

theorem Loaded.covers {d : ℕ → Block} (h : Loaded d m.fs.nblocks m.fs.freemap)
    (hn : m.fs.nblocks + 4095 < 2 ^ 32) :
  Covers d m
  := by
  have hle := le_bitmapSize hn
  have hlen := h.full.length_eq
  rw [← h.nbits] at hle
  refine ⟨hle, by omega, ?_, ?_⟩
  · intro i hi
    apply h.isset
    rwa [← h.nbits]
  · intro b hb
    omega

/-- A mount that succeeds has read the superblock, and then the free map into a bitmap of the
computed size. -/
theorem domount_loads (m : Mounted) :
  wlp (fun _ => True) domount m
    (fun _ m' => m'.fs.nblocks = (Super.decode (m.fs.disk 0)).nblocks.toNat
      ∧ Loaded m.fs.disk m'.fs.nblocks m'.fs.freemap)
    (fun _ _ => True)
  := by
  simp only [domount, wlp_bind, wlp_onFs, wlp_modify]
  apply kmallocOrFail_returns
  apply kmallocOrFail_returns
  apply wlp_returns
  intro b s₁ hread
  obtain ⟨rfl, d, hd, rfl⟩ := rblock_ok (by decide) hread
  rw [wlp_ite, wlp_fail]
  refine ⟨fun _ => trivial, fun _ => ?_⟩
  simp only [wlp_bind, wlp_onFs, wlp_modify]
  apply kmallocOrFail_returns
  apply kmallocOrFail_returns
  have hdisk : Fs.disk { m.fs with vnodes := ⟨[], 0⟩, kmallocs := m.fs.kmallocs.tail.tail }
      = m.fs.disk := rfl
  rw [hdisk]
  generalize Super.decode (m.fs.disk 0) = sp
  obtain ⟨hsize, hbound⟩ := bitmapSize_eq_mul sp.nblocks.toNat
  apply wlp_of_wp
  apply Bitmap.create_spec (by omega) (by omega)
  intro freemap hnbits hfull _
  apply wlp_imp (mapioRead_loads (by exact hfull) (by exact hnbits))
  rintro - s' ⟨hkept, hloaded⟩
  refine ⟨hkept.nblocks, ?_⟩
  rw [hkept.nblocks, ← show d.disk = m.fs.disk from hd]
  exact hloaded

/-- For every superblock, a volume that was mounted has a free map that covers it exactly when
the number of its blocks can be rounded up to whole blocks of the map. -/
theorem domount_covers_iff {m m' : Mounted} (h : domount m = .ok () m') :
  m'.fs.nblocks = (Super.decode (m.fs.disk 0)).nblocks.toNat
    ∧ (Covers m.fs.disk m' ↔ (Super.decode (m.fs.disk 0)).nblocks.toNat + 4095 < 2 ^ 32)
  := by
  obtain ⟨hn, hloaded⟩ := wlp_ok (domount_loads m) h
  refine ⟨hn, ?_⟩
  rw [← hn]
  refine ⟨?_, hloaded.covers⟩
  intro hcovers
  by_contra hge
  -- the map has no bits
  have hle := hcovers.nbits
  have hlt := UInt32.toNat_lt (Super.decode (m.fs.disk 0)).nblocks
  rw [hloaded.nbits, bitmapSize_of_le (by omega) (by omega)] at hle
  omega

/-- A disk whose superblock names so many blocks, and on which all else is 0. -/
def labelled (n : UInt32) : Mounted where
  fs :=
    { device :=
        ⟨fun b => if b = 0 then
            { Super.decode zeroBlock with magic := magic, nblocks := n }.encode
          else zeroBlock, 3, []⟩
      nblocks := 0
      vnodes := ⟨[], 0⟩
      freemap := ⟨0, []⟩
      freemapdirty := false
      heap := fun _ => ⟨none, 0, 0, Inode.cleared, 0, false⟩
      next := 0
      kmallocs := [] }
  super := Super.decode zeroBlock
  superdirty := false

/-- A disk of three blocks is mounted with a map that covers it. -/
theorem domount_covers_iff_threeBlocks :
  ∃ m', domount (labelled 3) = .ok () m' ∧ m'.fs.nblocks = 3 ∧ Covers (labelled 3).fs.disk m'
  := by
  obtain ⟨m', hrun⟩ : ∃ m', domount (labelled 3) = .ok () m' := by decide +kernel
  have hn : (Super.decode ((labelled 3).fs.disk 0)).nblocks.toNat = 3 := by decide +kernel
  obtain ⟨hnblocks, hiff⟩ := domount_covers_iff hrun
  refine ⟨m', hrun, hnblocks.trans hn, hiff.mpr ?_⟩
  rw [hn]
  decide

/-- The largest number of blocks is accepted, with a map that has no bits; `sfs_bused` looks for
a block in it all the same. -/
theorem domount_covers_nothing :
  ∃ m', domount (labelled 4294967295) = .ok () m' ∧ m'.fs.nblocks = 4294967295
    ∧ m'.fs.freemap.nbits = 0 ∧ m'.fs.freemap.v = []
    ∧ bused 7 m'.fs = .ok false m'.fs ∧ ¬ Covers (labelled 4294967295).fs.disk m'
  := by
  obtain ⟨m', hrun, hn, hbits, hv⟩ : ∃ m', domount (labelled 4294967295) = .ok () m'
      ∧ m'.fs.nblocks = 4294967295 ∧ m'.fs.freemap.nbits = 0 ∧ m'.fs.freemap.v = [] := by
    decide +kernel
  refine ⟨m', hrun, hn, hbits, hv, ?_, ?_⟩
  · rw [bused, get_bind, assert_bind (by omega), Bitmap.isset, hv]
    rfl
  · intro hcovers
    have hle := hcovers.nbits
    omega

end Mounting

end Sfs
