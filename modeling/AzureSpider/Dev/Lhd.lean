import AzureSpider.Kern.Uio

/-!
# Disks

The driver `lhd.c` of the hard disks, with sectors of `LHD_SECTSIZE = 512` bytes.  What the
operations of a disk complete with is handed to it beforehand; a disk without such answers is
one whose operations succeed.  An operation that fails leaves the disk as it was.
-/

open Machine Routine

/-- What an operation of a disk completes with: `LHD_OK`, `LHD_INVSECT` or `LHD_MEDIA`. -/
inductive LhdStatus where
  | ok | invsect | media
  deriving DecidableEq, Repr

/-- A disk. -/
structure Lhd where
  /-- The contents of the sectors. -/
  disk : ℕ → Buf 512 UInt8
  /-- `d_blocks`. -/
  dBlocks : ℕ
  /-- The results of the coming operations. -/
  results : List LhdStatus

namespace Lhd

/-- A routine on a disk. -/
abbrev Run (α : Type) : Type := Routine Errno FsPanic Lhd α

/-- `lhd_code_to_errno`, for a code that is not `LHD_OK`. -/
def codeToErrno : LhdStatus → Option Errno
  | .ok => none
  | .invsect => some .einval
  | .media => some .eio

/-- The disk with new contents of a sector. -/
def put (d : Lhd) (sector : ℕ) (buf : Buf 512 UInt8) : Lhd :=
  { d with disk := fun b => if b = sector then buf else d.disk b }

/-- Wait for the operation of the disk and get its result. -/
def complete : Run Unit := do
  let d ← get
  modify fun d => { d with results := d.results.tail }
  match d.results with
  | [] => pure ()
  | code :: _ =>
    match codeToErrno code with
    | none => pure ()
    | some e => fail e

/-- Write the buffer on the card to a sector. -/
def writeSector (sector : ℕ) (buf : Buf 512 UInt8) : Run Unit := do
  complete
  modify fun d => d.put sector buf

/-- Read a sector to the buffer on the card. -/
def readSector (sector : ℕ) : Run (Buf 512 UInt8) := do
  complete
  let d ← get
  pure (d.disk sector)

/-- `lhd_io`: transfer whole sectors between a disk and a region. -/
def io : Routine Errno FsPanic (Lhd × Uio) Unit := do
  let du ← get
  let sector := toU32 (du.2.offset.tdiv 512)
  let sectoff := toU32 (du.2.offset.tmod 512)
  let len := du.2.resid / 512
  let lenoff := du.2.resid % 512
  if sectoff ≠ 0 ∨ lenoff ≠ 0 then fail .einval
  else if u32 (sector + len) > du.1.dBlocks then fail .einval
  else
    loop len 0 (fun i _ =>
      if du.2.rw = .write then do
        let buf ← onSnd (Uio.uiomove (Buf.ofFn fun _ => 0) 0 512)
        onFst (writeSector (u32 (sector + i)) buf)
      else do
        let buf ← onFst (readSector (u32 (sector + i)))
        let _ ← onSnd (Uio.uiomove buf 0 512)
        pure ()) ()

/-- The operations of a disk succeed on its first `n` sectors: the disk has them, their
offsets are file offsets, and there is no failure to come. -/
structure Serves (d : Lhd) (n : ℕ) : Prop where
  results : d.results = []
  le : n ≤ d.dBlocks
  small : n ≤ 2 ^ 22

variable {d : Lhd} {n b : ℕ} {u : Uio}

theorem Serves.complete (h : d.Serves n) (hQ : Q () d) :
  wp complete d Q E
  := by
  obtain ⟨disk, dBlocks, results⟩ := d
  obtain rfl : results = [] := h.results
  simp only [Lhd.complete, wp_bind, wp_get, wp_modify, wp_pure]
  apply hQ

/-- The sector of a region that starts at a sector and is one sector long. -/
theorem one_sector (h : d.Serves n) (hb : b < n) (hoff : u.offset = 512 * (b : ℤ))
    (hresid : u.resid = 512) :
  toU32 (u.offset.tdiv 512) = b ∧ toU32 (u.offset.tmod 512) = 0 ∧ u.resid / 512 = 1
    ∧ u.resid % 512 = 0 ∧ u32 (b + 1) ≤ d.dBlocks ∧ u32 (b + 0) = b
  := by
  have hle := h.le
  have hsmall := h.small
  have hdiv : u.offset.tdiv 512 = b := by
    rw [hoff]
    apply Int.mul_tdiv_cancel_left
    decide
  have hmod : u.offset.tmod 512 = 0 := by
    rw [hoff]
    apply Int.mul_tmod_right
  rw [hdiv, hmod, hresid]
  refine ⟨?_, by decide +kernel, rfl, rfl, ?_, ?_⟩
  · unfold toU32
    omega
  · rw [u32_of_lt (by omega)]
    omega
  · apply u32_of_lt
    omega

/-- What `lhd_io` gives of one sector. -/
theorem io_read (h : d.Serves n) (hb : b < n) (hu : u.Ready) (hrw : u.rw = .read)
    (hoff : u.offset = 512 * (b : ℤ)) (hresid : u.resid = 512) :
  wp io (d, u)
    (fun _ du => du.1 = d ∧ Uio.Given u du.2 512 (d.disk b).get)
    (fun e du => e = .efault ∧ ¬ u.Reliable ∧ du.1 = d ∧ Uio.Taken u du.2 0)
  := by
  obtain ⟨hsector, hsectoff, hlen, hlenoff, hin, hzero⟩ := one_sector h hb hoff hresid
  have hne : ¬ u.rw = .write := by
    rw [hrw]
    decide
  simp only [io, wp_bind, wp_get, hsector, hsectoff, hlen, hlenoff]
  rw [if_neg (by simp), if_neg (by omega)]
  rw [wp_loop_succ]
  simp only [if_neg hne, hzero, readSector, wp_bind, wp_onFst, wp_onSnd, wp_loop_zero]
  apply h.complete
  simp only [wp_get, wp_pure]
  apply wp_mono (Uio.uiomove_spec (d.disk b) 0 hu.backed (n := 512) (by omega))
  · intro buf u' hmove
    refine ⟨trivial, ?_⟩
    have hgiven := hmove.1 hrw
    simp only [Nat.zero_add] at hgiven
    apply hgiven
  · rintro e u' ⟨rfl, hr, htaken⟩
    exact ⟨rfl, hr, trivial, htaken⟩

/-- A sector of memory is fetched whole. -/
theorem fetched_zero (mem : ℕ → UInt8) (base : ℕ) :
  Uio.fetched mem base 512 (Buf.ofFn fun _ => 0 : Buf 512 UInt8) 0
    = Buf.ofFn fun j => mem (base + j)
  := by
  funext j
  simp only [Uio.fetched, Buf.ofFn]
  rw [if_pos (by omega), Nat.sub_zero]

/-- What `lhd_io` stores in one sector. -/
theorem io_write (h : d.Serves n) (hb : b < n) (hu : u.Ready) (hrw : u.rw = .write)
    (hoff : u.offset = 512 * (b : ℤ)) (hresid : u.resid = 512) :
  wp io (d, u)
    (fun _ du => du.1 = d.put b (Buf.ofFn fun j => u.mem (u.base + j)) ∧ Uio.Taken u du.2 512
      ∧ u.Copies)
    (fun e du => e = .efault ∧ ¬ u.Copies ∧ du.1 = d ∧ Uio.Taken u du.2 0)
  := by
  obtain ⟨hsector, hsectoff, hlen, hlenoff, hin, hzero⟩ := one_sector h hb hoff hresid
  simp only [io, wp_bind, wp_get, hsector, hsectoff, hlen, hlenoff]
  rw [if_neg (by simp), if_neg (by omega)]
  rw [wp_loop_succ]
  simp only [if_pos hrw, hzero, writeSector, wp_bind, wp_onFst, wp_onSnd, wp_loop_zero]
  apply wp_mono
    (Uio.uiomove_write (Buf.ofFn fun _ => 0 : Buf 512 UInt8) 0 hu.backed (n := 512) (by omega)
      hrw)
  · rintro buf u' ⟨htaken, rfl, hcopies⟩
    apply h.complete
    simp only [wp_modify]
    refine ⟨?_, htaken, hcopies (by decide)⟩
    rw [fetched_zero]
  · rintro e u' ⟨rfl, hr, htaken⟩
    exact ⟨rfl, hr, trivial, htaken⟩

/-! ### Single operations of any disk -/

/-- The result of the coming operation. -/
def nextResult (d : Lhd) : LhdStatus := d.results.head?.getD .ok

/-- The disk once the coming operation has completed. -/
def completed (d : Lhd) : Lhd := { d with results := d.results.tail }

/-- The sector that a region starts at, as `lhd_io` computes it. -/
def sectorOf (u : Uio) : ℕ := toU32 (u.offset.tdiv 512)

theorem complete_eq (d : Lhd) :
  complete d
    = match d.nextResult with
      | .ok => .ok () d.completed
      | .invsect => .err .einval d.completed
      | .media => .err .eio d.completed
  := by
  obtain ⟨disk, dBlocks, results⟩ := d
  cases results with
  | nil => rfl
  | cons code rest =>
    cases code with
    | ok | invsect | media => rfl

theorem u32_sectorOf (u : Uio) :
  u32 (sectorOf u + 0) = sectorOf u
  := by
  unfold sectorOf toU32 u32
  omega

/-- A region that starts at a sector is aligned. -/
theorem sectoff_eq (h : 512 ∣ u.offset) :
  toU32 (u.offset.tmod 512) = 0
  := by
  rw [Int.tmod_eq_zero_of_dvd h]
  rfl

/-- A region past the end of the disk is refused. -/
theorem io_refused (d : Lhd) (hal : 512 ∣ u.offset) (hlen : u.resid % 512 = 0)
    (hin : d.dBlocks < u32 (sectorOf u + u.resid / 512)) :
  io (d, u) = .err .einval (d, u)
  := by
  simp only [sectorOf] at hin
  simp only [io, get_bind, sectoff_eq hal, hlen]
  rw [if_neg (by simp), if_pos hin]
  rfl

/-- A region with no data left: the device is not asked for anything. -/
theorem io_none (d : Lhd) (hal : 512 ∣ u.offset) (hresid : u.resid = 0)
    (hin : sectorOf u ≤ d.dBlocks) :
  io (d, u) = .ok () (d, u)
  := by
  have hzero := u32_sectorOf u
  simp only [sectorOf] at hzero hin
  simp only [io, get_bind, sectoff_eq hal, hresid, Nat.zero_mod, Nat.zero_div, hzero]
  rw [if_neg (by simp), if_neg (Nat.not_lt.mpr hin)]
  rfl

/-- One sector is handed to the body of the loop. -/
theorem io_one (d : Lhd) (hal : 512 ∣ u.offset) (hresid : u.resid = 512)
    (hin : u32 (sectorOf u + 1) ≤ d.dBlocks) :
  io (d, u)
    = (if u.rw = .write then do
          let buf ← onSnd (Uio.uiomove (Buf.ofFn fun _ => 0 : Buf 512 UInt8) 0 512)
          onFst (writeSector (sectorOf u) buf)
        else do
          let buf ← onFst (readSector (sectorOf u))
          let _ ← onSnd (Uio.uiomove buf 0 512)
          pure () : Routine Errno FsPanic (Lhd × Uio) Unit) (d, u)
  := by
  have hzero := u32_sectorOf u
  have hone : (512 : ℕ) / 512 = 1 := rfl
  simp only [sectorOf] at hzero hin ⊢
  simp only [io, get_bind, sectoff_eq hal, hresid, Nat.mod_self, hone]
  rw [if_neg (by simp), if_neg (Nat.not_lt.mpr hin), loop_one, hzero]

/-- One sector is written: the data is taken from the region before the device reports its
result. -/
theorem io_write_one (d : Lhd) (hrw : u.rw = .write) (hal : 512 ∣ u.offset)
    (hresid : u.resid = 512) (hin : u32 (sectorOf u + 1) ≤ d.dBlocks) {buf : Buf 512 UInt8}
    {u' : Uio}
    (hrun : Uio.uiomove (Buf.ofFn fun _ => 0 : Buf 512 UInt8) 0 512 u = .ok buf u') :
  io (d, u)
    = match d.nextResult with
      | .ok => .ok () (d.completed.put (sectorOf u) buf, u')
      | .invsect => .err .einval (d.completed, u')
      | .media => .err .eio (d.completed, u')
  := by
  rw [io_one d hal hresid hin, if_pos hrw]
  simp only [bind, andThen, onSnd, onFst, zoom, hrun, writeSector, complete_eq]
  cases d.nextResult with
  | ok | invsect | media => rfl

/-- One sector is read: the region is as it was until the device has reported success. -/
theorem io_read_one (d : Lhd) (hrw : u.rw = .read) (hal : 512 ∣ u.offset)
    (hresid : u.resid = 512) (hin : u32 (sectorOf u + 1) ≤ d.dBlocks) {buf : Buf 512 UInt8}
    {u' : Uio} (hrun : Uio.uiomove (d.disk (sectorOf u)) 0 512 u = .ok buf u') :
  io (d, u)
    = match d.nextResult with
      | .ok => .ok () (d.completed, u')
      | .invsect => .err .einval (d.completed, u)
      | .media => .err .eio (d.completed, u)
  := by
  have hne : ¬ u.rw = .write := by
    rw [hrw]
    decide
  have hdisk : d.completed.disk = d.disk := rfl
  rw [io_one d hal hresid hin, if_neg hne]
  simp only [bind, andThen, onSnd, onFst, zoom, readSector, complete_eq]
  cases d.nextResult with
  | ok => simp only [Routine.get, pure, Routine.return', hdisk, hrun]
  | invsect | media => rfl

end Lhd
