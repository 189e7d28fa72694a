import Mathlib.Tactic.Common

/-!
# Panics of the file system

The assertions and panics of `bitmap.c`, `uio.c`, `vnode.c` and of the SFS sources, one name
each.
-/

/-- The places where the file system panics. -/
inductive FsPanic where
  -- `bitmap.c`
  | bitmapCreateWords | bitmapCreateOverbits | bitmapAllocIndex | bitmapAllocStuck
  | bitmapMarkIndex | bitmapMarkSet | bitmapUnmarkIndex | bitmapUnmarkClear
  -- `uio.c`
  | uiomoveSpace | uiomoveSize | uiomovezerosRw
  -- `sfs_io.c`
  | rwblockEinval
  -- `vnode.c`
  | vnodeNullOps | vnodeZeroRefcount | decrefRefcount | killRefcount | killOpencount
  | decopenOpencount
  -- `sfs_vnode.c`: blocks
  | ballocInvalidBlock | busedOutOfRange | bmapMarkedFree
  -- `sfs_vnode.c`: files
  | partialioLen | partialioRw | blockioRw | blockioResid | ioExtraresid | ioOffset | ioResid
  | readRw | writeRw
  -- `sfs_vnode.c`: directories
  | readdirShort | writedirShort | nentriesType | nentriesSize | findnameTwice
  | lookonceLinkcount
  -- `sfs_vnode.c`: vnodes
  | reclaimRefcount | reclaimNotInPool | gettypeInvalid | namefileRoot
  | linkFs | removeLinkcount | renameDirs | renameRoot | renameType | renameLinkcount
  | renameRecover | loadvnodeLoadedFree | loadvnodeForcetype | loadvnodeFree | loadvnodeNotInval
  | loadvnodeType | getroot
  deriving DecidableEq, Repr
