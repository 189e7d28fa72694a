import AzureSpider.Sfs.Volume

/-!
# Files

The part of `sfs_vnode.c` that maps the blocks of a file, transfers its bytes and sets its
size.  A file is given by the address of its vnode.
-/

open Machine Routine

namespace Sfs

/-- `sfs_sync_inode`. -/
def syncInode (sv : Ptr) : Run Unit := do
  let s ← get
  if (s.heap sv).dirty then do
    wblock (s.heap sv).i.encode (s.heap sv).ino
    modify fun s => s.update sv fun v => { v with dirty := false }
  else
    pure ()

/-! ### Block mapping -/

/-- The check of `sfs_bmap` before a block is handed back. -/
def checkUsed (block : ℕ) : Run Unit :=
  if block ≠ 0 then do
    let used ← bused block
    assert (used = true) .bmapMarkedFree
  else
    pure ()

/-- `sfs_bmap` for a direct block. -/
def bmapDirect (sv : Ptr) (fileblock : ℕ) (doalloc : Bool) : Run ℕ := do
  let s ← get
  let old := ((s.heap sv).i.direct.get fileblock).toNat
  let block ←
    if old = 0 ∧ doalloc = true then do
      let block ← balloc
      modify fun s => s.updateInode sv fun i =>
        { i with direct := i.direct.set fileblock (UInt32.ofNat block) }
      pure block
    else
      pure old
  checkUsed block
  pure block

/-- The indirect block and its contents, which is allocated if there is none. -/
def bmapIdblock (sv : Ptr) : Run (ℕ × Idbuf) := do
  let s ← get
  let idblock := (s.heap sv).i.indirect.toNat
  if idblock = 0 then do
    let idblock ← balloc
    modify fun s => s.updateInode sv fun i =>
      { i with indirect := UInt32.ofNat idblock }
    pure (idblock, Idbuf.zero)
  else do
    let idbuf ← rblock idblock
    pure (idblock, Idbuf.decode idbuf)

/-- `sfs_bmap` for a block of the indirect block. -/
def bmapIndirect (sv : Ptr) (idoff : ℕ) (doalloc : Bool) : Run ℕ := do
  let s ← get
  if (s.heap sv).i.indirect.toNat = 0 ∧ doalloc = false then
    pure 0
  else do
    let id ← bmapIdblock sv
    let old := (id.2.get idoff).toNat
    let block ←
      if old = 0 ∧ doalloc = true then do
        let block ← balloc
        wblock (Idbuf.encode (id.2.set idoff (UInt32.ofNat block))) id.1
        pure block
      else
        pure old
    checkUsed block
    pure block

/-- `sfs_bmap`. -/
def bmap (sv : Ptr) (fileblock : ℕ) (doalloc : Bool) : Run ℕ :=
  if fileblock < 15 then
    bmapDirect sv fileblock doalloc
  else if 0 < (fileblock - 15) / 128 then
    fail .einval
  else
    bmapIndirect sv ((fileblock - 15) % 128) doalloc

/-! ### Transfers -/

/-- `sfs_partialio`. -/
def partialio (sv : Ptr) (skipstart len : ℕ) : IoRun Unit := do
  let su ← get
  assert (u32 (skipstart + len) ≤ 512) .partialioLen
  let fileblock := toU32 (su.2.offset.tdiv 512)
  let diskblock ← onFst (bmap sv fileblock (su.2.rw = .write))
  let iobuf ←
    if diskblock = 0 then do
      assert (su.2.rw = .read) .partialioRw
      pure zeroBlock
    else
      onFst (rblock diskblock)
  let iobuf ← onSnd (Uio.uiomove iobuf skipstart len)
  if su.2.rw = .write then
    onFst (wblock iobuf diskblock)
  else
    pure ()

/-- A region with the offset and the residue of a block, which make sense to the device. -/
def diskRegion (u : Uio) (diskblock : ℕ) : Uio := u.aim (i32 (diskblock * 512)) 512

/-- A region `u` that was handed to the device and came back as `u'`, with the original
offset and residue updated by the amount of I/O done. -/
def fileRegion (u u' : Uio) (diskblock : ℕ) : Uio :=
  u'.aim (i32 (u'.offset - i32 (diskblock * 512) + u.offset))
    (toU32 (u'.resid - 512 + i32 u.resid))

/-- The part of `sfs_blockio` that transfers a block that is mapped. -/
def blockioDisk (diskblock : ℕ) : IoRun Unit := do
  let saved ← get
  assert (512 ≤ saved.2.resid) .blockioResid
  modify fun su => (su.1, diskRegion su.2 diskblock)
  let result ← attempt rwblock
  modify fun su => (su.1, fileRegion saved.2 su.2 diskblock)
  match result with
  | .ok _ => pure ()
  | .error e => fail e

/-- `sfs_blockio`. -/
def blockio (sv : Ptr) : IoRun Unit := do
  let su ← get
  let fileblock := toU32 (su.2.offset.tdiv 512)
  let diskblock ← onFst (bmap sv fileblock (su.2.rw = .write))
  if diskblock = 0 then do
    assert (su.2.rw = .read) .blockioRw
    onSnd (Uio.uiomovezeros 512)
  else
    blockioDisk diskblock

/-- The part of `sfs_io` that checks for the end of the file: nothing if a read is at or past
it, and otherwise the number of bytes that cannot be read because of it. -/
def ioExtraresid (sv : Ptr) : IoRun (Option ℕ) := do
  let su ← get
  if su.2.rw = .read then
    let size := i32 (su.1.heap sv).i.size.toNat
    let endpos := i32 (su.2.offset + su.2.resid)
    if size ≤ su.2.offset then
      pure none
    else if size < endpos then do
      let extraresid := toU32 (endpos - size)
      assert (extraresid < su.2.resid) .ioExtraresid
      modify fun su => (su.1, su.2.aim su.2.offset (su.2.resid - extraresid))
      pure (some extraresid)
    else
      pure (some 0)
  else
    pure (some 0)

/-- The part of `sfs_io` that does the leading partial block. -/
def ioLeading (sv : Ptr) : IoRun Unit := do
  let su ← get
  let blkoff := toU32 (su.2.offset.tmod 512)
  if blkoff ≠ 0 then
    partialio sv blkoff (min (toU32 (512 - blkoff)) su.2.resid)
  else
    pure ()

/-- The part of `sfs_io` that does the whole blocks and the partial block at the end. -/
def ioAligned (sv : Ptr) : IoRun Unit := do
  let su ← get
  assert (su.2.offset.tmod 512 = 0) .ioOffset
  loop (su.2.resid / 512) 0 (fun _ _ => blockio sv) ()
  let su ← get
  assert (su.2.resid < 512) .ioResid
  if 0 < su.2.resid then
    partialio sv 0 su.2.resid
  else
    pure ()

/-- The part of `sfs_io` that transfers, up to the label `out`. -/
def ioTransfer (sv : Ptr) : IoRun Unit := do
  ioLeading sv
  let su ← get
  if su.2.resid = 0 then
    pure ()
  else
    ioAligned sv

/-- The part of `sfs_io` that adjusts the length of a file that was written to. -/
def ioLength (sv : Ptr) : IoRun Unit := do
  let su ← get
  if su.2.rw = .write ∧ i32 (su.1.heap sv).i.size.toNat < su.2.offset then
    modify fun su =>
      (su.1.updateInode sv fun i => i.setSize (UInt32.ofNat (toU32 su.2.offset)), su.2)
  else
    pure ()

/-- `sfs_io`. -/
def io (sv : Ptr) : IoRun Unit := do
  match ← ioExtraresid sv with
  | none => pure ()
  | some extraresid => do
      let result ← attempt (ioTransfer sv)
      ioLength sv
      modify fun su => (su.1, su.2.aim su.2.offset (u32 (su.2.resid + extraresid)))
      match result with
      | .ok _ => pure ()
      | .error e => fail e

/-- `sfs_read`. -/
def read (v : Ptr) : IoRun Unit := do
  let su ← get
  assert (su.2.rw = .read) .readRw
  io v

/-- `sfs_write`. -/
def write (v : Ptr) : IoRun Unit := do
  let su ← get
  assert (su.2.rw = .write) .writeRw
  io v

/-! ### Truncation -/

/-- `DIVROUNDUP(len, SFS_BLOCKSIZE)`. -/
def blocklen (len : ℤ) : ℕ := toU32 ((i32 (i32 (len + 512) - 1)).tdiv 512)

/-- One round of the loop of `sfs_truncate` over the direct blocks. -/
def truncateDirect (sv : Ptr) (blocklen i : ℕ) : Run Unit := do
  let s ← get
  let block := ((s.heap sv).i.direct.get i).toNat
  if blocklen ≤ i ∧ block ≠ 0 then do
    bfree block
    modify fun s => s.updateInode sv fun i' =>
      { i' with direct := i'.direct.set i 0 }
  else
    pure ()

/-- What the loop of `sfs_truncate` over the indirect block keeps. -/
structure TruncateScan where
  idbuf : Idbuf
  hasnonzero : Bool
  iddirty : Bool

/-- One round of the loop of `sfs_truncate` over the indirect block. -/
def truncateEntry (blocklen j : ℕ) (t : TruncateScan) : Run TruncateScan := do
  let t ←
    if blocklen < 15 + j ∧ t.idbuf.get j ≠ 0 then do
      bfree (t.idbuf.get j).toNat
      pure { t with idbuf := t.idbuf.set j 0, iddirty := true }
    else
      pure t
  pure (if t.idbuf.get j ≠ 0 then { t with hasnonzero := true } else t)

/-- The part of `sfs_truncate` on the indirect block. -/
def truncateIndirect (sv : Ptr) (blocklen : ℕ) : Run Unit := do
  let s ← get
  let idblock := (s.heap sv).i.indirect.toNat
  if blocklen < 15 + 128 - 1 ∧ idblock ≠ 0 then do
    let idbuf ← rblock idblock
    let t ← loop 128 0 (truncateEntry blocklen) ⟨Idbuf.decode idbuf, false, false⟩
    if t.hasnonzero = false then do
      bfree idblock
      modify fun s => s.updateInode sv fun i => { i with indirect := 0 }
    else if t.iddirty then
      wblock (Idbuf.encode t.idbuf) idblock
    else
      pure ()
  else
    pure ()

/-- `sfs_truncate`. -/
def truncate (v : Ptr) (len : ℤ) : Run Unit := do
  loop 15 0 (fun i _ => truncateDirect v (blocklen len) i) ()
  truncateIndirect v (blocklen len)
  modify fun s => s.updateInode v fun i => i.setSize (UInt32.ofNat (toU32 len))

end Sfs
