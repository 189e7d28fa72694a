import AzureSpider.Vfs.Devices

/-!
# Operations on paths

`vnode.c`, `vfslookup.c`, `vfscwd.c` and `vfspath.c`: the counts of the vnodes, the translation
of paths, and the operations on paths, over any file systems.

What the file systems do is given by their operations, which are routines on the state; the
part of the state that only they know is the world `W`.  A vnode without references may have
been freed: to touch it is an error, which the code cannot detect, and it panics here.
-/

open Routine

/-- What the VFS layer knows: the counts of the vnodes, the current directory of the current
thread, the directory that `/` stands for, and the named devices. -/
structure Vfs (W : Type) where
  refcount : VnodeId → ℕ
  opencount : VnodeId → ℕ
  cwd : Option VnodeId
  bootfs : Option VnodeId
  knowndevs : List KnownDev
  world : W

namespace Vfs

/-- Routines of the VFS layer. -/
abbrev Run (W α : Type) := Routine Errno VfsPanic (Vfs W) α

end Vfs

/-- The operations of the file systems: `struct vnode_ops`, `FSOP_GETROOT`, and the field
`vn_fs` of the vnodes. -/
structure VnodeOps (W : Type) where
  vnFs : VnodeId → Vfs W → Option AbsFs
  getroot : AbsFs → Vfs.Run W VnodeId
  openFile : VnodeId → UInt32 → Vfs.Run W Unit
  close : VnodeId → Vfs.Run W Unit
  reclaim : VnodeId → Vfs.Run W Unit
  readlink : VnodeId → Vfs.Run W Unit
  gettype : VnodeId → Vfs.Run W UInt32
  truncate : VnodeId → ℕ → Vfs.Run W Unit
  creat : VnodeId → CString → Bool → Vfs.Run W VnodeId
  symlink : VnodeId → CString → CString → Vfs.Run W Unit
  mkdir : VnodeId → CString → Vfs.Run W Unit
  link : VnodeId → CString → VnodeId → Vfs.Run W Unit
  remove : VnodeId → CString → Vfs.Run W Unit
  rmdir : VnodeId → CString → Vfs.Run W Unit
  rename : VnodeId → CString → VnodeId → CString → Vfs.Run W Unit
  lookup : VnodeId → CString → Vfs.Run W VnodeId
  lookparent : VnodeId → CString → ℕ → Vfs.Run W (VnodeId × CString)

namespace Vfs

variable {W : Type}

/-! ### Counts -/

/-- The code follows a pointer to the vnode. -/
def touch (vn : VnodeId) : Run W Unit := do
  let s ← get
  assert (0 < s.refcount vn) .unreferenced

/-- A `VOP_` macro: `vnode_check`, and the operation. -/
def vop {α : Type} (vn : VnodeId) (m : Run W α) : Run W α := do
  let s ← get
  assert (0 < s.refcount vn) .vnodeCheck
  m

/-- Change the reference count of a vnode. -/
def setRefcount (vn : VnodeId) (n : ℕ) (s : Vfs W) : Vfs W :=
  { s with refcount := Function.update s.refcount vn n }

/-- Change the open count of a vnode. -/
def setOpencount (vn : VnodeId) (n : ℕ) (s : Vfs W) : Vfs W :=
  { s with opencount := Function.update s.opencount vn n }

/-- `vnode_incref`. -/
def incref (vn : VnodeId) : Run W Unit := do
  touch vn
  modify fun s => s.setRefcount vn (s.refcount vn + 1)

/-- `vnode_incopen`. -/
def incopen (vn : VnodeId) : Run W Unit := do
  touch vn
  modify fun s => s.setOpencount vn (s.opencount vn + 1)

/-- Return what another routine has returned. -/
def giveBack {α : Type} : Except Errno α → Run W α
  | .ok a => pure a
  | .error e => fail e

variable (fs : VnodeOps W)

/-- `vnode_decref`, which ignores what `VOP_RECLAIM` returns. -/
def decref (vn : VnodeId) : Run W Unit := do
  let s ← get
  assert (0 < s.refcount vn) .decrefRefcount
  if 1 < s.refcount vn then
    modify fun s => s.setRefcount vn (s.refcount vn - 1)
  else do
    let _ ← attempt (fs.reclaim vn)
    pure ()

/-- `vnode_decopen`, which ignores what `VOP_CLOSE` returns. -/
def decopen (vn : VnodeId) : Run W Unit := do
  touch vn
  let s ← get
  assert (0 < s.opencount vn) .decopenOpencount
  modify fun s => s.setOpencount vn (s.opencount vn - 1)
  if 1 < s.opencount vn then
    pure ()
  else do
    let _ ← attempt (vop vn (fs.close vn))
    pure ()

/-- Do something with a vnode, drop the reference to it, and return the result. -/
def thenDecref {α : Type} (vn : VnodeId) (m : Run W α) : Run W α := do
  let result ← attempt m
  decref fs vn
  giveBack result

/-! ### The current directory -/

/-- `vfs_getcurdir`. -/
def getcurdir : Run W VnodeId := do
  let s ← get
  match s.cwd with
  | some vn => do
      incref vn
      pure vn
  | none => fail .enoent

/-- Drop the reference to a vnode, if there is one. -/
def decrefOld : Option VnodeId → Run W Unit
  | some old => decref fs old
  | none => pure ()

/-- `vfs_setcurdir`. -/
def setcurdir (dir : VnodeId) : Run W Unit := do
  let vtype ← vop dir (fs.gettype dir)
  if vtype &&& 0o70000 ≠ 0o20000 then
    fail .enotdir
  else
    incref dir
    let s ← get
    modify fun s => { s with cwd := some dir }
    decrefOld fs s.cwd

/-! ### Translation of paths -/

/-- The loop of `getdevice`: the first colon, or the first slash. -/
def findMark (i : ℕ) : CString → Option ℕ × Option ℕ
  | [] => (none, none)
  | c :: rest =>
    if c = 58 then
      (some i, none)
    else if c = 47 then
      (none, some i)
    else
      findMark (i + 1) rest

/-- The path without the slashes at its front. -/
def skipSlashes (path : CString) : CString := path.dropWhile (· == 47)

/-- `vfs_getroot`. -/
def getroot (devname : CString) : Run W VnodeId := do
  let s ← get
  match ← Devices.findRoot devname s.knowndevs with
  | .fs f => fs.getroot f
  | .device vn => do
      incref vn
      pure vn

/-- The root of the current file system, for the paths that start with a colon. -/
def getcurroot : Run W VnodeId := do
  let vn ← getcurdir
  touch vn
  let s ← get
  match fs.vnFs vn s with
  | none => Routine.panic .getdeviceFs
  | some f => do
      let root ← fs.getroot f
      decref fs vn
      pure root

/-- The directory that the paths starting with a slash are relative to. -/
def getbootfs : Run W VnodeId := do
  let s ← get
  match s.bootfs with
  | none => fail .enoent
  | some vn => do
      incref vn
      pure vn

/-- `getdevice`: the rest of the path, and the vnode to start from. -/
def getdevice (path : CString) : Run W (CString × VnodeId) :=
  match findMark 0 path with
  | (some 0, _) => do
      let vn ← getcurroot fs
      pure (skipSlashes (path.drop 1), vn)
  | (some colon, _) => do
      let vn ← getroot fs (path.take colon)
      pure (skipSlashes (path.drop (colon + 1)), vn)
  | (none, some 0) => do
      let vn ← getbootfs
      pure (skipSlashes (path.drop 1), vn)
  | (none, _) => do
      let vn ← getcurdir
      pure (path, vn)

/-- `vfs_lookparent`. -/
def lookparent (path : CString) : Run W (VnodeId × CString) := do
  let (path, startvn) ← getdevice fs path
  thenDecref fs startvn
    (if path = [] then fail .einval else vop startvn (fs.lookparent startvn path 256))

/-- `vfs_lookup`. -/
def lookup (path : CString) : Run W VnodeId := do
  let (path, startvn) ← getdevice fs path
  if path = [] then
    pure startvn
  else
    thenDecref fs startvn (vop startvn (fs.lookup startvn path))

/-! ### Operations -/

/-- `vfs_chdir`. -/
def chdir (path : CString) : Run W Unit := do
  let vn ← lookup fs path
  thenDecref fs vn (setcurdir fs vn)

/-- `change_bootfs`, for a new directory. -/
def changeBootfs (newguy : VnodeId) : Run W Unit := do
  let s ← get
  modify fun s => { s with bootfs := some newguy }
  decrefOld fs s.bootfs

/-- `vfs_setbootfs`; the buffer has room for 254 bytes of the name, and a name with a colon is
refused wherever the colon is. -/
def setbootfs (fsname : CString) : Run W Unit := do
  let tmp := fsname.take 254
  if 58 ∈ tmp then
    fail .einval
  else
    chdir fs (tmp ++ [58])
    let newguy ← getcurdir
    changeBootfs fs newguy

/-- The first half of `vfs_open`: the vnode to open. -/
def openLookup (path : CString) (openflags : UInt32) : Run W VnodeId :=
  if openflags &&& 4 ≠ 0 then do
    let (dir, name) ← lookparent fs path
    thenDecref fs dir (vop dir (fs.creat dir name (openflags &&& 8 ≠ 0)))
  else
    lookup fs path

/-- The end of `vfs_open`, for a file that is to be truncated. -/
def openTruncate (vn : VnodeId) (canwrite : Bool) : Run W VnodeId := do
  match ← attempt
    (if canwrite then vop vn (fs.truncate vn 0) else fail .einval) with
  | .ok _ => pure vn
  | .error e => do
      decopen fs vn
      decref fs vn
      fail e

/-- The second half of `vfs_open`. -/
def openVnode (vn : VnodeId) (openflags : UInt32) (canwrite : Bool) : Run W VnodeId := do
  match ← attempt (vop vn (fs.openFile vn openflags)) with
  | .error e => do
      decref fs vn
      fail e
  | .ok _ => do
      incopen vn
      if openflags &&& 16 ≠ 0 then openTruncate fs vn canwrite else pure vn

/-- `vfs_open`. -/
def vfsOpen (path : CString) (openflags : UInt32) : Run W VnodeId :=
  if openflags &&& 3 = 3 then
    fail .einval
  else do
    let vn ← openLookup fs path openflags
    openVnode fs vn openflags (openflags &&& 3 ≠ 0)

/-- `vfs_close`. -/
def vfsClose (vn : VnodeId) : Run W Unit := do
  decopen fs vn
  decref fs vn

/-- An operation on the parent directory of a path. -/
def onParent (path : CString) (m : VnodeId → CString → Run W Unit) : Run W Unit := do
  let (dir, name) ← lookparent fs path
  thenDecref fs dir (vop dir (m dir name))

/-- `vfs_remove`. -/
def remove (path : CString) : Run W Unit := onParent fs path fs.remove

/-- `vfs_symlink`. -/
def symlink (contents path : CString) : Run W Unit :=
  onParent fs path fun newdir newname => fs.symlink newdir newname contents

/-- `vfs_mkdir`. -/
def mkdir (path : CString) : Run W Unit := onParent fs path fs.mkdir

/-- `vfs_rmdir`. -/
def rmdir (path : CString) : Run W Unit := onParent fs path fs.rmdir

/-- `vfs_readlink`. -/
def readlink (path : CString) : Run W Unit := do
  let vn ← lookup fs path
  thenDecref fs vn (vop vn (fs.readlink vn))

/-- The two vnodes are on one file system. -/
def sameFs (vn vn' : VnodeId) (s : Vfs W) : Bool :=
  match fs.vnFs vn s, fs.vnFs vn' s with
  | some f, some f' => f.addr == f'.addr
  | _, _ => false

/-- The common part of `vfs_rename` and `vfs_link`: look up the parent directory of the new
path, check that it is on the file system of `old`, and do something with both. -/
def withNewdir (old : VnodeId) (newpath : CString) (m : VnodeId → CString → Run W Unit) :
    Run W Unit :=
  thenDecref fs old do
    let (newdir, newname) ← lookparent fs newpath
    touch old
    touch newdir
    let s ← get
    thenDecref fs newdir (if sameFs fs old newdir s then m newdir newname else fail .exdev)

/-- `vfs_rename`. -/
def rename (oldpath newpath : CString) : Run W Unit := do
  let (olddir, oldname) ← lookparent fs oldpath
  withNewdir fs olddir newpath fun newdir newname =>
    vop olddir (fs.rename olddir oldname newdir newname)

/-- `vfs_link`. -/
def link (oldpath newpath : CString) : Run W Unit := do
  let oldfile ← lookup fs oldpath
  withNewdir fs oldfile newpath fun newdir newname => vop newdir (fs.link newdir newname oldfile)

end Vfs
