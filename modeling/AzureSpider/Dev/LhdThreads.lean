import AzureSpider.Dev.Lhd
import AzureSpider.Lib.Interleave
import AzureSpider.Thread.Thread

/-!
# Disks that are used by several threads

`lhd_io` once more, as it runs among other threads: the disk has one buffer on the card, one
status register and one variable for results.  A thread waits for the semaphore `lh_clear` before
it uses them, starts an operation, and waits for the semaphore `lh_done`, which the interrupt
handler posts when the operation has completed.  `Lhd.io` is what one thread sees of it.

A thread may be switched away between any two of its steps, and the disk completes an operation
and interrupts at any time.
-/

open Machine Routine

/-- The status register: `LHD_IDLE`, `LHD_WORKING`, or the result of an operation. -/
inductive LhdStat where
  | idle
  | working (write : Bool)
  | complete (status : LhdStatus)
  deriving DecidableEq, Repr

/-- An operation that has completed: its number, its sector, its result, and what the buffer on
the card has held then. -/
structure LhdCompletion where
  op : ℕ
  sector : ℕ
  status : LhdStatus
  buf : Buf 512 UInt8

/-- `struct lhd_softc` with the registers, the buffer on the card and the contents of the disk;
and the number of operations that have been started, those that have completed, and the thread
that uses the disk. -/
structure LhdSoftc where
  sect : ℕ
  stat : LhdStat
  buf : Buf 512 UInt8
  disk : ℕ → Buf 512 UInt8
  dBlocks : ℕ
  lhClear : ℕ
  lhDone : ℕ
  lhResult : Option Errno
  started : ℕ
  completions : List LhdCompletion
  user : Option Tid

/-- Why a thread cannot go on, or nothing happens. -/
inductive LhdBlocked where
  /-- The thread waits for a semaphore. -/
  | semaphore
  /-- The disk does not work. -/
  | notWorking
  deriving DecidableEq, Repr

namespace LhdSoftc

/-- Routines on the disk. -/
abbrev Run (α : Type) := Routine LhdBlocked FsPanic LhdSoftc α

/-! ### The disk and its interrupts -/

/-- The disk completes its operation. -/
def complete (status : LhdStatus) : Run Unit := do
  let s ← get
  match s.stat with
  | .working write =>
    let buf := if status = .ok ∧ write = false then s.disk s.sect else s.buf
    let disk :=
      if status = .ok ∧ write = true then Function.update s.disk s.sect s.buf else s.disk
    modify fun s => { s with
      stat := .complete status
      buf := buf
      disk := disk
      completions := s.completions ++ [⟨s.started, s.sect, status, buf⟩] }
  | _ => fail .notWorking

/-- `lhd_iodone`. -/
def iodone (err : Option Errno) : Run Unit :=
  modify fun s => { s with lhResult := err, lhDone := s.lhDone + 1 }

/-- `lhd_irq`. -/
def irq : Run Unit := do
  let s ← get
  match s.stat with
  | .idle => pure ()
  | .working _ => pure ()
  | .complete status => do
      modify fun s => { s with stat := .idle }
      iodone (Lhd.codeToErrno status)

/-! ### `lhd_io` -/

/-- The variables of a call of `lhd_io`, with the number of the last operation that it has
started and the sectors of all of them. -/
structure Request where
  uio : Uio
  sector : ℕ
  len : ℕ
  i : ℕ
  op : ℕ
  sectors : List ℕ

/-- Where a thread is, when it may be switched away. -/
inductive Pc where
  /-- Outside of `lhd_io`. -/
  | idle
  /-- At the head of the loop. -/
  | loop (r : Request)
  /-- After `P(lh_clear)`. -/
  | cleared (r : Request)
  /-- The data to write are in the buffer on the card. -/
  | loaded (r : Request)
  /-- The register has the sector. -/
  | aimed (r : Request)
  /-- The operation has been started. -/
  | started (r : Request)
  /-- After `P(lh_done)`. -/
  | done (r : Request)
  /-- `result` has been read. -/
  | got (r : Request) (result : Option Errno)
  /-- Before `V(lh_clear)`. -/
  | leaving (r : Request) (result : Option Errno)
  /-- `lhd_io` has returned. -/
  | returned (r : Request) (result : Option Errno)

/-- `P(lh_clear)`. -/
def pClear (t : Tid) : Run Unit := do
  let s ← get
  if s.lhClear = 0 then fail .semaphore
  else modify fun s => { s with lhClear := s.lhClear - 1, user := some t }

/-- `V(lh_clear)`. -/
def vClear : Run Unit :=
  modify fun s => { s with lhClear := s.lhClear + 1, user := none }

/-- `P(lh_done)`. -/
def pDone : Run Unit := do
  let s ← get
  if s.lhDone = 0 then fail .semaphore
  else modify fun s => { s with lhDone := s.lhDone - 1 }

/-- `uiomove(lh->lh_buf, LHD_SECTSIZE, uio)`. -/
def moveBuf (uio : Uio) : Run (Option Errno × Uio) := do
  let s ← get
  match Uio.uiomove s.buf 0 512 uio with
  | .ok buf uio => do
      modify fun s => { s with buf := buf }
      pure (none, uio)
  | .err e uio => pure (some e, uio)
  | .panic p => Routine.panic p

/-- The beginning of `lhd_io`. -/
def begin' (uio : Uio) : Run Pc := do
  let s ← get
  let sector := toU32 (uio.offset.tdiv 512)
  let sectoff := toU32 (uio.offset.tmod 512)
  let len := uio.resid / 512
  let lenoff := uio.resid % 512
  let r : Request := ⟨uio, sector, len, 0, 0, []⟩
  if sectoff ≠ 0 ∨ lenoff ≠ 0 then pure (.returned r (some .einval))
  else if u32 (sector + len) > s.dBlocks then pure (.returned r (some .einval))
  else pure (.loop r)

/-- The head of the loop. -/
def head (t : Tid) (r : Request) : Run Pc :=
  if r.i < r.len then do
    pClear t
    pure (.cleared r)
  else pure (.returned r none)

/-- The data to write are moved to the buffer on the card. -/
def load (r : Request) : Run Pc :=
  if r.uio.rw = .write then do
    let (result, uio) ← moveBuf r.uio
    match result with
    | some e => pure (.leaving { r with uio := uio } (some e))
    | none => pure (.loaded { r with uio := uio })
  else pure (.loaded r)

/-- The register gets the sector. -/
def aim (r : Request) : Run Pc := do
  modify fun s => { s with sect := u32 (r.sector + r.i) }
  pure (.aimed r)

/-- The operation is started. -/
def start (r : Request) : Run Pc := do
  let s ← get
  modify fun s => { s with
    stat := .working (r.uio.rw = .write)
    started := s.started + 1 }
  pure (.started { r with op := s.started + 1, sectors := r.sectors ++ [s.sect] })

/-- The result is read. -/
def getResult (r : Request) : Run Pc := do
  let s ← get
  pure (.got r s.lhResult)

/-- The data that have been read are moved from the buffer on the card. -/
def unload (r : Request) (result : Option Errno) : Run Pc :=
  if result = none ∧ r.uio.rw = .read then do
    let (result, uio) ← moveBuf r.uio
    pure (.leaving { r with uio := uio } result)
  else pure (.leaving r result)

/-- The end of the loop. -/
def leave (r : Request) (result : Option Errno) : Run Pc := do
  vClear
  if result = none then pure (.loop { r with i := r.i + 1 }) else pure (.returned r result)

/-- What a thread does, up to the next place where it may be switched away; `uio` is the region
of the next call. -/
def step (t : Tid) (uio : Uio) : Pc → Run Pc
  | .idle => begin' uio
  | .loop r => head t r
  | .cleared r => load r
  | .loaded r => aim r
  | .aimed r => start r
  | .started r => do
      pDone
      pure (.done r)
  | .done r => getResult r
  | .got r result => unload r result
  | .leaving r result => leave r result
  | .returned _ _ => begin' uio

/-! ### Runs -/

/-- What happens besides the threads: the disk completes its operation, or it interrupts; an
interrupt at another time shows that it is idle or works. -/
inductive Event where
  | complete (status : LhdStatus)
  | irq
  deriving DecidableEq, Repr

/-- What an event does. -/
def event : Event → Run Unit
  | .complete status => complete status
  | .irq => irq

/-- The steps of the threads, and the events. -/
def moves : Moves Tid LhdSoftc Pc where
  own t s pc s' pc' := ∃ uio, step t uio pc s = .ok pc' s'
  env c s' := ∃ e, event e c.shared = .ok () s'

/-- The state that `config_lhd` leaves, on a disk with given contents. -/
def init (disk : ℕ → Buf 512 UInt8) (buf : Buf 512 UInt8) (dBlocks : ℕ) :
    Interleaved Tid LhdSoftc Pc :=
  ⟨⟨0, .idle, buf, disk, dBlocks, 1, 0, none, 0, [], none⟩, fun _ => .idle⟩

end LhdSoftc
