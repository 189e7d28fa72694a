import AzureSpider.Lib.Interleave
import AzureSpider.Thread.Thread

/-!
# References to the vnodes of emufs

`emu.c` and `vnode.c`: threads look up files, take further references to vnodes that they have,
and drop references.  `vnode_decref` decides to reclaim a vnode under the lock of its count and
releases this lock before `emufs_reclaim`, which decides again under the lock of the device; in
between, `emufs_loadvnode` may find the vnode and take a reference to it.  A thread may be
switched away wherever it does not hold the lock that another thread needs.

The count of a vnode is the number of references to it that are out, as long as no reclaim finds
that it has come too late, and the hardware closes what it is asked to close.
-/

open Routine

/-! ### The hardware -/

/-- The codes of `REG_RESULT`; the last one stands for all codes that do not exist. -/
inductive EmuResult where
  | success | badHandle | badOp | badPath | badSize | exists' | isDir | media | noHandles
  | noSpace | notDir | unknown | unsupp | other
  deriving DecidableEq, Repr

/-- The panics and assertions of the functions below. -/
inductive EmuPanic where
  | fatalResult | decrefRefcount | notInPool | killRefcount
  deriving DecidableEq, Repr

/-- Why a thread cannot go on. -/
inductive EmuBlocked where
  /-- It waits for the lock of the device. -/
  | lock
  /-- It has no reference to the vnode. -/
  | noReference
  deriving DecidableEq, Repr

/-- `struct emufs_vnode`, with the number of references to it that have been handed out and not
yet dropped, the thread that drops the last one, and whether the hardware has closed its
handle. -/
structure EmuVnode where
  handle : ℕ
  refcount : ℕ
  handed : ℕ
  dropper : Option Tid
  closed : Bool
  deriving DecidableEq, Repr

/-- The vnodes in the order in which they were allocated, the ones that are in `ef_vnodes`, and
the owner of `e_lock`. -/
structure Emufs where
  vnodes : List EmuVnode
  efVnodes : List ℕ
  eLock : Option Tid
  deriving DecidableEq, Repr

namespace Emufs

/-- Routines of a thread. -/
abbrev Run (α : Type) := Routine EmuBlocked EmuPanic Emufs α

/-- `translate_err`; `none` is `0`. -/
def translateErr : EmuResult → Run (Option Errno)
  | .success => pure none
  | .badHandle => Routine.panic .fatalResult
  | .badOp => Routine.panic .fatalResult
  | .badSize => Routine.panic .fatalResult
  | .badPath => pure (some .enoent)
  | .exists' => pure (some .eexist)
  | .isDir => pure (some .eisdir)
  | .media => pure (some .eio)
  | .noHandles => pure (some .enfile)
  | .noSpace => pure (some .enospc)
  | .notDir => pure (some .enotdir)
  | .unknown => pure (some .eio)
  | .unsupp => pure (some .eunimp)
  | .other => pure (some .eagain)

/-- The loop of `emu_close`, with so many retries left; `code i` is the result of the attempt
`i`. -/
def emuCloseFrom (code : ℕ → EmuResult) : (retries i : ℕ) → Run (Option Errno)
  | 0, i => translateErr (code i)
  | retries + 1, i => do
      let result ← translateErr (code i)
      if result = some .eio then emuCloseFrom code retries (i + 1) else pure result

/-- `emu_close`, by a thread that holds `e_lock`. -/
def emuClose (code : ℕ → EmuResult) : Run (Option Errno) := emuCloseFrom code 10 0

/-! ### The functions -/

/-- Where a thread is, when it may be switched away. -/
inductive Pc where
  /-- Outside of the functions. -/
  | idle
  /-- `emu_open` has returned a handle. -/
  | opened (handle : ℕ)
  /-- `emufs_loadvnode` has found the vnode and holds `e_lock`. -/
  | found (v : ℕ)
  /-- `emufs_loadvnode` has failed. -/
  | failed (handle : ℕ)
  /-- `vnode_decref` has called `emufs_reclaim`. -/
  | reclaim (v : ℕ)
  /-- `emufs_reclaim` has checked the count and holds `e_lock`. -/
  | closing (v : ℕ)
  /-- The hardware has closed the handle, `emufs_reclaim` holds `e_lock`. -/
  | closed (v : ℕ)
  /-- `emufs_reclaim` has released `e_lock`. -/
  | kill (v : ℕ)
  deriving DecidableEq, Repr

/-- What a thread may call. -/
inductive Call where
  /-- `emufs_lookup` or `emufs_creat`. -/
  | lookup
  /-- `VOP_INCREF`. -/
  | incref (v : ℕ)
  /-- `VOP_DECREF`. -/
  | decref (v : ℕ)
  deriving DecidableEq, Repr

/-- What a thread calls next, the answers of the hardware to `emu_open` and `emu_close`, and
whether there is memory for the structure, for its lock and for its place in `ef_vnodes`. -/
structure Choice where
  call : Call
  open' : EmuResult
  handle : ℕ
  close : ℕ → EmuResult
  kmalloc : Bool
  lockCreate : Bool
  arrayAdd : Bool

/-- A change of a vnode. -/
def setVnode (v : ℕ) (f : EmuVnode → EmuVnode) : Run Unit :=
  modify fun s => { s with vnodes := s.vnodes.modify v f }

/-- The vnode that a thread has a reference to. -/
def getVnode (v : ℕ) : Run EmuVnode := do
  let s ← get
  match s.vnodes[v]? with
  | none => fail .noReference
  | some ev => pure ev

/-- The vnode, for a caller that has a reference to it. -/
def getReferenced (v : ℕ) : Run EmuVnode := do
  let ev ← getVnode v
  if ev.handed = 0 then fail .noReference else pure ev

/-- Wait for `e_lock`. -/
def awaitLock : Run Unit := do
  let s ← get
  if s.eLock = none then pure () else fail .lock

/-- Have `e_lock`, or release it. -/
def setLock (owner : Option Tid) : Run Unit :=
  modify fun s => { s with eLock := owner }

/-- `emu_open`. -/
def emuOpen (a : Choice) : Run Pc := do
  awaitLock
  let result ← translateErr a.open'
  match result with
  | some _ => pure .idle
  | none => pure (.opened a.handle)

/-- The new vnode of `emufs_loadvnode`. -/
def newVnode (handle : ℕ) : Run Unit :=
  modify fun s => { s with
    vnodes := s.vnodes ++ [⟨handle, 1, 1, none, false⟩]
    efVnodes := s.efVnodes ++ [s.vnodes.length] }

/-- The test of the loop of `emufs_loadvnode`. -/
def hasHandle (s : Emufs) (handle v : ℕ) : Bool :=
  match s.vnodes[v]? with
  | none => false
  | some ev => ev.handle == handle

/-- `emufs_loadvnode`, up to the count of a vnode that it finds. -/
def loadvnode (t : Tid) (a : Choice) (handle : ℕ) : Run Pc := do
  awaitLock
  let s ← get
  match s.efVnodes.find? (s.hasHandle handle) with
  | some v => do
      setLock (some t)
      pure (.found v)
  | none =>
    if a.kmalloc ∧ a.lockCreate ∧ a.arrayAdd then do
      newVnode handle
      pure .idle
    else pure (.failed handle)

/-- `vnode_incref`. -/
def vnodeIncref (v : ℕ) : Run Unit :=
  setVnode v fun ev => { ev with refcount := ev.refcount + 1, handed := ev.handed + 1 }

/-- `vnode_decref`, up to its call of `VOP_RECLAIM`. -/
def vnodeDecref (t : Tid) (v : ℕ) : Run Pc := do
  let ev ← getReferenced v
  assert (ev.refcount > 0) .decrefRefcount
  if ev.refcount > 1 then do
    setVnode v fun ev => { ev with refcount := ev.refcount - 1, handed := ev.handed - 1 }
    pure .idle
  else do
    setVnode v fun ev => { ev with handed := ev.handed - 1, dropper := some t }
    pure (.reclaim v)

/-- `emufs_reclaim`, up to the release of `vn_countlock`. -/
def reclaimCheck (t : Tid) (v : ℕ) : Run Pc := do
  awaitLock
  let ev ← getVnode v
  if ev.refcount ≠ 1 then do
    setVnode v fun ev => { ev with dropper := none }
    pure .idle
  else do
    setLock (some t)
    pure (.closing v)

/-- `emufs_reclaim`: the call of `emu_close`. -/
def reclaimClose (a : Choice) (v : ℕ) : Run Pc := do
  let result ← emuClose a.close
  match result with
  | some _ => do
      setVnode v fun ev => { ev with dropper := none }
      setLock none
      pure .idle
  | none => do
      setVnode v fun ev => { ev with closed := true }
      pure (.closed v)

/-- `emufs_reclaim`: the loop over `ef_vnodes`, and the release of `e_lock`. -/
def reclaimRemove (v : ℕ) : Run Pc := do
  let s ← get
  assert (v ∈ s.efVnodes) .notInPool
  modify fun s => { s with efVnodes := s.efVnodes.erase v }
  setLock none
  pure (.kill v)

/-- `emufs_reclaim`: `VOP_KILL`. -/
def reclaimKill (v : ℕ) : Run Pc := do
  let ev ← getVnode v
  assert (ev.refcount = 1) .killRefcount
  setVnode v fun ev => { ev with refcount := 0, dropper := none }
  pure .idle

/-- What a thread does, up to the next place where it may be switched away. -/
def step (t : Tid) (a : Choice) : Pc → Run Pc
  | .idle =>
    match a.call with
    | .lookup => emuOpen a
    | .incref v => do
        let _ ← getReferenced v
        vnodeIncref v
        pure .idle
    | .decref v => vnodeDecref t v
  | .opened handle => loadvnode t a handle
  | .found v => do
      vnodeIncref v
      setLock none
      pure .idle
  | .failed _ => do
      awaitLock
      let _ ← emuClose a.close
      pure .idle
  | .reclaim v => reclaimCheck t v
  | .closing v => reclaimClose a v
  | .closed v => reclaimRemove v
  | .kill v => reclaimKill v

/-! ### Runs -/

/-- A condition on the steps of a run. -/
abbrev Condition := Emufs → Pc → Choice → Prop

/-- Every step is admitted. -/
def anyStep : Condition := fun _ _ _ => True

/-- The steps of the threads that meet a condition. -/
def moves (allow : Condition) : Moves Tid Emufs Pc where
  own t s pc s' pc' := ∃ a, allow s pc a ∧ step t a pc s = .ok pc' s'
  env _ _ := False

/-- No vnode, and no thread in one of the functions. -/
def init : Interleaved Tid Emufs Pc := ⟨⟨[], [], none⟩, fun _ => .idle⟩

/-- No call is in progress. -/
def Quiescent (c : Interleaved Tid Emufs Pc) : Prop := ∀ t, c.pc t = .idle

end Emufs
