import AzureSpider.Sfs.Directory
import AzureSpider.Sfs.Mount
import AzureSpider.Sfs.Truncate

/-!
# Vnodes

The rest of `sfs_vnode.c`, with the reference counts of `vnode.c`: loading and reclaiming
vnodes, and the operations on the names in the directory.  The operations run one at a time, so
the locks of the counts are left out.
-/

open Machine Routine

namespace Sfs

/-! ### Reference counts -/

/-- `vnode_check`, before an operation that may or may not be a reclaim. -/
def vnodeCheck (v : Ptr) (reclaim : Bool) : Run Unit := do
  let s ← get
  assert ((s.heap v).ops ≠ none) .vnodeNullOps
  assert (¬ ((s.heap v).refcount = 0 ∧ reclaim = false)) .vnodeZeroRefcount

/-- A `VOP_` call, by the entries of `sfs_fileops` and `sfs_dirops` for the operation. -/
def vop {α : Type} (v : Ptr) (fileop dirop : Run α) : Run α := do
  vnodeCheck v false
  let s ← get
  match (s.heap v).ops with
  | some .fileops => fileop
  | some .dirops => dirop
  | none => Routine.panic .vnodeNullOps

/-- `vnode_incref`. -/
def incref (v : Ptr) : Run Unit :=
  modify fun s => s.update v fun vn => { vn with refcount := vn.refcount + 1 }

/-- `vnode_kill`. -/
def kill (v : Ptr) : Run Unit := do
  let s ← get
  assert ((s.heap v).refcount = 1) .killRefcount
  assert ((s.heap v).opencount = 0) .killOpencount
  modify fun s => s.update v fun vn =>
    { vn with ops := none, refcount := 0, opencount := 0 }

/-- The part of `sfs_reclaim` that removes the vnode from the table. -/
def reclaimRemove (v : Ptr) : Run Unit := do
  let s ← get
  match s.vnodes.guys.findIdx? (· = v) with
  | some ix => modify fun s => { s with vnodes := s.vnodes.remove ix }
  | none => Routine.panic .reclaimNotInPool

/-- The part of `sfs_reclaim` that gives back the blocks of a file without links. -/
def reclaimErase (v : Ptr) : Run Unit := do
  let s ← get
  if (s.heap v).i.linkcount = 0 then
    vop v (truncate v 0) (fail .eisdir)
  else
    pure ()

/-- The part of `sfs_reclaim` that gives back the block of an inode without links. -/
def reclaimInode (v : Ptr) : Run Unit := do
  let s ← get
  if (s.heap v).i.linkcount = 0 then
    bfree (s.heap v).ino
  else
    pure ()

/-- `sfs_reclaim`. -/
def reclaim (v : Ptr) : Run Unit := do
  let s ← get
  if (s.heap v).refcount ≠ 1 then do
    assert (1 < (s.heap v).refcount) .reclaimRefcount
    modify fun s => s.update v fun vn => { vn with refcount := vn.refcount - 1 }
    fail .ebusy
  else do
    reclaimErase v
    syncInode v
    reclaimInode v
    reclaimRemove v
    kill v

/-- `vnode_decref`, which ignores the result of `VOP_RECLAIM`. -/
def decref (v : Ptr) : Run Unit := do
  let s ← get
  assert (0 < (s.heap v).refcount) .decrefRefcount
  if 1 < (s.heap v).refcount then
    modify fun s => s.update v fun vn => { vn with refcount := vn.refcount - 1 }
  else do
    vnodeCheck v true
    let _ ← attempt (reclaim v)
    pure ()

/-! ### Loading -/

/-- The search of `sfs_loadvnode` in the table. -/
def findVnode (ino : ℕ) : List Ptr → Run (Option Ptr)
  | [] => pure none
  | sv :: guys => do
      let s ← get
      let used ← bused (s.heap sv).ino
      assert (used = true) .loadvnodeLoadedFree
      if (s.heap sv).ino = ino then
        pure (some sv)
      else
        findVnode ino guys

/-- The function table for a type of inodes. -/
def opsOf (type : UInt16) : Run VnodeOps :=
  if type = typeFile then pure .fileops
  else if type = typeDir then pure .dirops
  else Routine.panic .loadvnodeType

/-- The inode that `sfs_loadvnode` sets up from the one on the disk, and whether it is dirty. -/
def forceType (i : Inode) (forcetype : UInt16) : Run (Inode × Bool) :=
  if forcetype ≠ typeInval then do
    assert (i.type = typeInval) .loadvnodeNotInval
    pure ({ i with type := forcetype }, true)
  else
    pure (i, false)

/-- `array_add` to the table, which asks for memory if the table is full. -/
def vnodesAdd (sv : Ptr) : Run Unit := do
  let s ← get
  let mem ← if s.vnodes.max < s.vnodes.guys.length + 1 then kmalloc else pure true
  match s.vnodes.add sv mem with
  | some vnodes => modify fun s => { s with vnodes := vnodes }
  | none => fail .enomem

/-- The part of `sfs_loadvnode` for an inode that is not in the table. -/
def loadInode (ino : ℕ) (forcetype : UInt16) : Run Ptr := do
  kmallocOrFail
  let used ← bused ino
  assert (used = true) .loadvnodeFree
  let b ← rblock ino
  let id ← forceType (Inode.decode b) forcetype
  let ops ← opsOf id.1.type
  -- `lock_create` and the name of the lock
  kmallocOrFail
  kmallocOrFail
  let s ← get
  vnodesAdd s.next
  modify fun s =>
    { s with
      heap := fun q => if q = s.next then ⟨some ops, 1, 0, id.1, ino, id.2⟩ else s.heap q
      next := s.next + 1 }
  pure s.next

/-- `sfs_loadvnode`. -/
def loadvnode (ino : ℕ) (forcetype : UInt16) : Run Ptr := do
  let s ← get
  match ← findVnode ino s.vnodes.guys with
  | some sv => do
      assert (forcetype = typeInval) .loadvnodeForcetype
      incref sv
      pure sv
  | none => loadInode ino forcetype

/-- `sfs_getroot`. -/
def fsGetroot : Run Ptr := do
  match ← attempt (loadvnode 1 typeInval) with
  | .ok sv => pure sv
  | .error _ => Routine.panic .getroot

/-- `sfs_lookonce`, which hands back the slot as well. -/
def lookonce (sv : Ptr) (name : Name) : Run (Ptr × ℕ) := do
  let r ← dirFindname sv name
  match r.found with
  | some (slot, ino) => do
      let ret ← loadvnode ino.toNat typeInval
      let s ← get
      assert ((s.heap ret).i.linkcount ≠ 0) .lookonceLinkcount
      pure (ret, slot)
  | none => fail .enoent

/-- `sfs_makeobj`. -/
def makeobj (type : UInt16) : Run Ptr := do
  let ino ← balloc
  loadvnode ino type

/-! ### Names -/

/-- One link more to an inode, which is dirty then. -/
def linkcountUp (v : Ptr) : Run Unit :=
  modify fun s => s.updateInode v fun i => { i with linkcount := i.linkcount + 1 }

/-- One link less to an inode, which is dirty then. -/
def linkcountDown (v : Ptr) : Run Unit :=
  modify fun s => s.updateInode v fun i => { i with linkcount := i.linkcount - 1 }

/-- The part of `sfs_creat` for a name that does not exist. -/
def creatNew (v : Ptr) (name : Name) : Run Ptr := do
  let newguy ← makeobj typeFile
  let s ← get
  match ← attempt (dirLink v name (UInt32.ofNat (s.heap newguy).ino)) with
  | .ok _ => do
      linkcountUp newguy
      pure newguy
  | .error e => do
      decref newguy
      fail e

/-- `sfs_creat`. -/
def creat (v : Ptr) (name : Name) (excl : Bool) : Run Ptr := do
  let r ← dirFindname v name
  match r.found with
  | some (_, ino) =>
    if excl then fail .eexist else loadvnode ino.toNat typeInval
  | none => creatNew v name

/-- `sfs_link`, of a file on the volume of the directory. -/
def link (dir : Ptr) (name : Name) (file : Ptr) : Run Unit := do
  let s ← get
  let _ ← dirLink dir name (UInt32.ofNat (s.heap file).ino)
  linkcountUp file

/-- The part of `sfs_remove` that erases the entry of a file. -/
def removeEntry (dir victim : Ptr) (slot : ℕ) : Run Unit := do
  dirUnlink dir slot
  let s ← get
  assert (0 < (s.heap victim).i.linkcount) .removeLinkcount
  linkcountDown victim

/-- `sfs_remove`. -/
def remove (dir : Ptr) (name : Name) : Run Unit := do
  let victim ← lookonce dir name
  let result ← attempt (removeEntry dir victim.1 victim.2)
  decref victim.1
  match result with
  | .ok _ => pure ()
  | .error e => fail e

/-- The part of `sfs_rename` after the label `puke_harder` up to the label `puke`. -/
def renameUndo (d g : Ptr) (slot2 : ℕ) : Run Unit := do
  match ← attempt (dirUnlink d slot2) with
  | .ok _ =>
    -- here the inode is not marked dirty
    modify fun s => s.update g fun v =>
      { v with i := { v.i with linkcount := v.i.linkcount - 1 } }
  | .error _ => Routine.panic .renameRecover

/-- The part of `sfs_rename` that replaces the name of a file. -/
def renameEntry (d g : Ptr) (slot1 : ℕ) (n2 : Name) : Run Unit := do
  let s ← get
  assert ((s.heap g).i.type = typeFile) .renameType
  let slot2 ← dirLink d n2 (UInt32.ofNat (s.heap g).ino)
  linkcountUp g
  match ← attempt (dirUnlink d slot1) with
  | .ok _ => do
      let s ← get
      assert (0 < (s.heap g).i.linkcount) .renameLinkcount
      linkcountDown g
  | .error e => do
      renameUndo d g slot2
      fail e

/-- `sfs_rename`. -/
def rename (d1 : Ptr) (n1 : Name) (d2 : Ptr) (n2 : Name) : Run Unit := do
  let s ← get
  assert (d1 = d2) .renameDirs
  assert ((s.heap d1).ino = 1) .renameRoot
  let g ← lookonce d1 n1
  let result ← attempt (renameEntry d1 g.1 g.2 n2)
  decref g.1
  match result with
  | .ok _ => pure ()
  | .error e => fail e

/-- `sfs_lookup`. -/
def lookup (v : Ptr) (path : Name) : Run Ptr := do
  let s ← get
  if (s.heap v).i.type ≠ typeDir then
    fail .enotdir
  else do
    let final ← lookonce v path
    pure final.1

/-- `sfs_lookparent`, which copies the path to a buffer of a size. -/
def lookparent (v : Ptr) (path : Name) (buflen : ℕ) : Run Ptr := do
  let s ← get
  if (s.heap v).i.type ≠ typeDir then
    fail .enotdir
  else if path.length + 1 > buflen then
    fail .enametoolong
  else do
    incref v
    pure v

/-! ### Opening -/

/-- `sfs_open`. -/
def openFile (_v : Ptr) (openflags : UInt32) : Run Unit :=
  if openflags &&& 32 ≠ 0 then fail .eunimp else pure ()

/-- `sfs_opendir`: directories may only be open for read. -/
def opendir (_v : Ptr) (openflags : UInt32) : Run Unit :=
  if openflags &&& 3 ≠ 0 then fail .eisdir
  else if openflags &&& 32 ≠ 0 then fail .eisdir
  else pure ()

/-- `sfs_gettype`. -/
def gettype (v : Ptr) : Run UInt32 := do
  let s ← get
  if (s.heap v).i.type = typeFile then pure 0o10000
  else if (s.heap v).i.type = typeDir then pure 0o20000
  else Routine.panic .gettypeInvalid

/-! ### The operations by their tables -/

/-- `VOP_CREAT`. -/
def vopCreat (dir : Ptr) (name : Name) (excl : Bool) : Run Ptr :=
  vop dir (fail .enotdir) (creat dir name excl)

/-- `VOP_LINK`. -/
def vopLink (dir : Ptr) (name : Name) (file : Ptr) : Run Unit :=
  vop dir (fail .enotdir) (link dir name file)

/-- `VOP_REMOVE`. -/
def vopRemove (dir : Ptr) (name : Name) : Run Unit :=
  vop dir (fail .enotdir) (remove dir name)

/-- `VOP_RENAME`. -/
def vopRename (d1 : Ptr) (n1 : Name) (d2 : Ptr) (n2 : Name) : Run Unit :=
  vop d1 (fail .enotdir) (rename d1 n1 d2 n2)

/-- `VOP_LOOKUP`. -/
def vopLookup (dir : Ptr) (path : Name) : Run Ptr :=
  vop dir (fail .enotdir) (lookup dir path)

/-- `VOP_LOOKPARENT`. -/
def vopLookparent (dir : Ptr) (path : Name) (buflen : ℕ) : Run Ptr :=
  vop dir (fail .enotdir) (lookparent dir path buflen)

/-- `VOP_TRUNCATE`. -/
def vopTruncate (v : Ptr) (len : ℤ) : Run Unit :=
  vop v (truncate v len) (fail .eisdir)

/-- `VOP_FSYNC`. -/
def vopFsync (v : Ptr) : Run Unit := vop v (fsync v) (fsync v)

/-- `VOP_OPEN`. -/
def vopOpen (v : Ptr) (openflags : UInt32) : Run Unit :=
  vop v (openFile v openflags) (opendir v openflags)

/-- `VOP_CLOSE`: `sfs_close` is `VOP_FSYNC`. -/
def vopClose (v : Ptr) : Run Unit := vop v (vopFsync v) (vopFsync v)

/-- `VOP_RECLAIM`. -/
def vopReclaim (v : Ptr) : Run Unit := do
  vnodeCheck v true
  reclaim v

/-- `VOP_GETTYPE`. -/
def vopGettype (v : Ptr) : Run UInt32 := vop v (gettype v) (gettype v)

/-- `VOP_READLINK`. -/
def vopReadlink (v : Ptr) : Run Unit := vop v (fail .enotdir) (fail .eisdir)

/-- `VOP_SYMLINK`, `VOP_MKDIR` and `VOP_RMDIR`. -/
def vopUnimp (dir : Ptr) : Run Unit := vop dir (fail .enotdir) (fail .eunimp)

/-- A transfer with a region, which is handed back with the result. -/
def transfer (m : IoRun Unit) (u : Uio) : Run (Except Errno Unit × Uio) :=
  withState u m

/-- `VOP_READ`. -/
def vopRead (v : Ptr) (u : Uio) : Run (Except Errno Unit × Uio) :=
  vop v (transfer (read v) u) (fail .eisdir)

/-- `VOP_WRITE`. -/
def vopWrite (v : Ptr) (u : Uio) : Run (Except Errno Unit × Uio) :=
  vop v (transfer (write v) u) (fail .eisdir)

end Sfs
