import AzureSpider.Sfs.File

/-!
# Mounting and syncing

The file-system level of SFS, `sfs_fs.c`: reading and writing the free map, syncing a mounted
volume and mounting one.
-/

open Machine Routine

namespace Sfs

/-- `SFS_BITMAPSIZE`. -/
def bitmapSize (nblocks : ℕ) : ℕ := u32 (nblocks + 4096 - 1) / 4096 * 4096

/-- `SFS_BITBLOCKS`. -/
def bitBlocks (nblocks : ℕ) : ℕ := bitmapSize nblocks / 4096

/-- `struct sfs_fs` with its superblock. -/
structure Mounted where
  fs : Fs
  super : Super
  superdirty : Bool

/-- A routine on a mounted volume. -/
abbrev MRun (α : Type) : Type := Routine Errno FsPanic Mounted α

/-- A routine on the volume. -/
def onFs {α : Type} (m : Run α) : MRun α :=
  zoom Mounted.fs (fun s m => { m with fs := s }) m

/-- The answer of a call of `kmalloc`. -/
def kmalloc : Run Bool := do
  let s ← get
  modify fun s => { s with kmallocs := s.kmallocs.tail }
  pure (s.kmallocs.head?.getD true)

/-- A call of `kmalloc` that must succeed. -/
def kmallocOrFail : Run Unit := do
  let answer ← kmalloc
  if answer then pure () else fail .enomem

/-! ### The free map -/

/-- `sfs_mapio` that reads. -/
def mapioRead : Run Unit := do
  let s ← get
  loop (bitBlocks s.nblocks) 0 (fun j _ => do
    let b ← rblock (2 + j)
    modify fun s => { s with freemap := { s.freemap with v := loadMapBlock s.freemap.v j b } })
    ()

/-- `sfs_mapio` that writes. -/
def mapioWrite : Run Unit := do
  let s ← get
  loop (bitBlocks s.nblocks) 0 (fun j _ => do
    let s ← get
    wblock (mapBlock s.freemap.v j) (2 + j))
    ()

/-! ### Syncing -/

/-- `sfs_fsync`. -/
def fsync (v : Ptr) : Run Unit := syncInode v

/-- The loop of `sfs_sync` over the vnodes, which ignores the results of `VOP_FSYNC`. -/
def syncVnodes : List Ptr → Run Unit
  | [] => pure ()
  | v :: vs => do
      let _ ← attempt (fsync v)
      syncVnodes vs

/-- The part of `sfs_sync` for the free map. -/
def syncFreemap : Run Unit := do
  let s ← get
  if s.freemapdirty then do
    mapioWrite
    modify fun s => { s with freemapdirty := false }
  else
    pure ()

/-- The part of `sfs_sync` for the superblock. -/
def syncSuper : MRun Unit := do
  let m ← get
  if m.superdirty then do
    onFs (wblock m.super.encode 0)
    modify fun m => { m with superdirty := false }
  else
    pure ()

/-- `sfs_sync`. -/
def sync : MRun Unit := do
  let m ← get
  onFs (syncVnodes m.fs.vnodes.guys)
  onFs syncFreemap
  syncSuper

/-! ### Mounting -/

/-- `sfs_domount`, on a device of sectors of 512 bytes.  The structure that is set up is the
state; what it holds before is of no account, but for the device and the memory. -/
def domount : MRun Unit := do
  onFs kmallocOrFail
  -- `array_create`
  onFs kmallocOrFail
  modify fun m => { m with fs := { m.fs with vnodes := ⟨[], 0⟩ } }
  let b ← onFs (rblock 0)
  modify fun m => { m with super := Super.decode b }
  if (Super.decode b).magic ≠ magic then fail .einval
  else do
    modify fun m =>
      { m with
        super := m.super.terminate
        fs := { m.fs with nblocks := m.super.nblocks.toNat } }
    -- `bitmap_create`
    onFs kmallocOrFail
    onFs kmallocOrFail
    let freemap ← Bitmap.create (bitmapSize (Super.decode b).nblocks.toNat)
    modify fun m => { m with fs := { m.fs with freemap := freemap } }
    onFs mapioRead
    modify fun m =>
      { m with superdirty := false, fs := { m.fs with freemapdirty := false } }

/-! ### What the routines do -/

section Specs

variable {m : Mounted} {s : Fs} {Q : Unit → Fs → Prop} {E : Errno → Fs → Prop}

theorem wp_onFs {α : Type} {r : Run α} {Q : α → Mounted → Prop} {E : Errno → Mounted → Prop} :
  wp (onFs r) m Q E
    ↔ wp r m.fs (fun a s => Q a { m with fs := s }) (fun e s => E e { m with fs := s })
  := wp_zoom _ _

theorem kmallocOrFail_spec (h : s.kmallocs = []) (hQ : Q () s) :
  wp kmallocOrFail s Q E
  := by
  obtain ⟨device, nblocks, vnodes, freemap, freemapdirty, heap, next, kmallocs⟩ := s
  obtain rfl : kmallocs = [] := h
  simp only [kmallocOrFail, kmalloc, wp_bind, wp_get, wp_modify,
    wp_pure, List.head?_nil, Option.getD_none, if_true]
  exact hQ

/-- A volume whose size the free map can describe. -/
theorem bitmapSize_eq {n : ℕ} (h : n ≤ 2 ^ 22) :
  bitmapSize n = 4096 * bitBlocks n ∧ bitBlocks n = (n + 4095) / 4096
    ∧ n ≤ 4096 * bitBlocks n ∧ bitBlocks n ≤ 2 ^ 10
  := by
  unfold bitBlocks bitmapSize
  rw [u32_of_lt (by omega)]
  omega

/-- The free map that a disk holds, of a volume with so many blocks. -/
structure Loaded (d : ℕ → Block) (n : ℕ) (b : Bitmap) : Prop where
  nbits : b.nbits = bitmapSize n
  full : b.Full
  isset : ∀ i < bitmapSize n, b.isset i = blockBit (d (2 + i / 4096)) (i % 4096)

/-- The first `j` blocks of the map are those of the disk. -/
def LoadedTo (d : ℕ → Block) (j : ℕ) (b : Bitmap) : Prop :=
  ∀ i < 8 * b.v.length, i / 4096 < j → b.isset i = blockBit (d (2 + i / 4096)) (i % 4096)

theorem loadedTo_zero (d : ℕ → Block) (b : Bitmap) :
  LoadedTo d 0 b
  := fun _ _ hlt => absurd hlt (Nat.not_lt_zero _)

/-- Reading one more block of the map. -/
theorem LoadedTo.succ {d : ℕ → Block} {j : ℕ} {b : Bitmap} (h : LoadedTo d j b) :
  LoadedTo d (j + 1) { b with v := loadMapBlock b.v j (d (2 + j)) }
  := by
  intro i hi hj
  rw [length_loadMapBlock] at hi
  rw [Bitmap.isset, getBit_loadMapBlock hi]
  split
  · next heq => rw [heq]
  · apply h i hi
    omega

/-- All the blocks of the map are loaded. -/
theorem LoadedTo.loaded {d : ℕ → Block} {n : ℕ} {b : Bitmap} (h : LoadedTo d (bitBlocks n) b)
    (hfull : b.Full) (hnbits : b.nbits = bitmapSize n)
    (hsize : bitmapSize n = 4096 * bitBlocks n) :
  Loaded d n b
  := by
  have hlen := hfull.length_eq
  refine ⟨hnbits, hfull, ?_⟩
  intro i hi
  apply h i (by omega)
  omega

/-- `sfs_mapio` reads the free map that the disk holds. -/
theorem mapioRead_spec {n : ℕ} (h : s.device.Serves n) (hn : s.nblocks = n)
    (hmap : 2 + bitBlocks n ≤ n) (hfull : s.freemap.Full) (hnbits : s.freemap.nbits = bitmapSize n)
    (hQ : ∀ b, Loaded s.disk n b → Q () { s with freemap := b }) :
  wp mapioRead s Q E
  := by
  obtain ⟨hsize, -, -, -⟩ := bitmapSize_eq h.small
  simp only [mapioRead, wp_bind, wp_get, hn]
  -- after `j` rounds the first `j` blocks of the map are loaded
  refine wp_imp (wp_loop_run
    (fun j _ s' => ∃ b : Bitmap, s' = { s with freemap := b } ∧ b.nbits = bitmapSize n ∧ b.Full
      ∧ LoadedTo s.disk j b)
    ⟨s.freemap, rfl, hnbits, hfull, loadedTo_zero _ _⟩ ?_) ?_
  · rintro j - s' hj ⟨b, rfl, hbits, hfull', hall⟩
    simp only [wp_bind]
    apply wp_sure (rblock_spec (s := { s with freemap := b }) h (b := 2 + j) (by omega))
    rintro blk s₁ ⟨rfl, rfl⟩
    simp only [wp_modify]
    refine ⟨_, rfl, hbits, ⟨?_, hfull'.lt⟩, hall.succ⟩
    rw [length_loadMapBlock]
    exact hfull'.length_eq
  · rintro - s' ⟨b, rfl, hbits, hfull', hall⟩
    exact hQ b (hall.loaded hfull' hbits hsize)

/-- A volume that was mounted from a disk with the superblock. -/
structure FreshlyMounted (m m' : Mounted) (sp : Super) : Prop where
  super : m'.super = sp.terminate
  superdirty : m'.superdirty = false
  nblocks : m'.fs.nblocks = sp.nblocks.toNat
  device : m'.fs.device = m.fs.device
  vnodes : m'.fs.vnodes = ⟨[], 0⟩
  freemap : Loaded m.fs.disk sp.nblocks.toNat m'.fs.freemap
  freemapdirty : m'.fs.freemapdirty = false
  kmallocs : m'.fs.kmallocs = []

/-- `sfs_domount` succeeds on a disk with a superblock whose blocks the device serves. -/
theorem domount_spec {n : ℕ} (h : m.fs.device.Serves n) (hk : m.fs.kmallocs = [])
    (hmagic : (Super.decode (m.fs.disk 0)).magic = magic)
    (hn : (Super.decode (m.fs.disk 0)).nblocks.toNat = n) (hmap : 2 + bitBlocks n ≤ n) :
  wp domount m (fun _ m' => FreshlyMounted m m' (Super.decode (m.fs.disk 0)))
  := by
  obtain ⟨hsize, -, -, hbound⟩ := bitmapSize_eq h.small
  simp only [domount, wp_bind, wp_onFs]
  apply kmallocOrFail_spec (by exact hk)
  apply kmallocOrFail_spec (by exact hk)
  simp only [wp_modify]
  apply wp_imp (rblock_spec (s := { m.fs with vnodes := ⟨[], 0⟩ }) h (b := 0) (by omega))
  rintro b s' ⟨rfl, rfl⟩
  simp only [wp_ite]
  refine ⟨fun hnot => absurd hmagic hnot, fun _ => ?_⟩
  simp only [wp_bind, wp_modify, wp_onFs]
  apply kmallocOrFail_spec (by exact hk)
  apply kmallocOrFail_spec (by exact hk)
  have hdisk : Fs.disk { m.fs with vnodes := ⟨[], 0⟩ } = m.fs.disk := rfl
  rw [hdisk, hn]
  apply Bitmap.create_spec (by omega) (by omega)
  intro freemap hbits hfull _
  apply mapioRead_spec (by exact h) (by rfl) hmap (by exact hfull) (by exact hbits)
  intro b hb
  refine ⟨rfl, rfl, hn.symm, rfl, rfl, ?_, rfl, hk⟩
  rw [hn]
  exact hb

end Specs

end Sfs
