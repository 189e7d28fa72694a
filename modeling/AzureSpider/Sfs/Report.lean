import AzureSpider.Sfs.File

/-!
# What block I/O reports

Block I/O on a device whose operations may fail.  A write that is tried again has lost its
data: `lhd_io` takes the data from the region before the device reports its result, so the
region that `sfs_rwblock` hands over a second time is empty, and I/O on an empty region
succeeds.  A read takes nothing before it has succeeded, so it may be tried again.
-/

open Machine Routine

namespace Sfs

/-! ### Tries -/

section Tries

variable {d : Lhd} {u : Uio} {du : Lhd × Uio} {tries : ℕ}

theorem rwblockFrom_ok (h : Lhd.io (d, u) = .ok () du) :
  rwblockFrom tries (d, u) = .ok () du
  := by
  cases tries with
  | zero | succ =>
    simp only [rwblockFrom, bind, andThen, attempt, h]
    rfl

theorem rwblockFrom_einval (h : Lhd.io (d, u) = .err .einval du) :
  rwblockFrom tries (d, u) = .panic .rwblockEinval
  := by
  cases tries with
  | zero | succ =>
    simp only [rwblockFrom, bind, andThen, attempt, h]
    rfl

theorem rwblockFrom_efault (h : Lhd.io (d, u) = .err .efault du) :
  rwblockFrom tries (d, u) = .err .efault du
  := by
  cases tries with
  | zero | succ =>
    simp only [rwblockFrom, bind, andThen, attempt, h]
    rfl

theorem rwblockFrom_eio (h : Lhd.io (d, u) = .err .eio du) :
  rwblockFrom (tries + 1) (d, u) = rwblockFrom tries du
  := by
  simp only [rwblockFrom, bind, andThen, attempt, h]
  rfl

theorem rwblockFrom_giveUp (h : Lhd.io (d, u) = .err .eio du) :
  rwblockFrom 0 (d, u) = .err .eio du
  := by
  simp only [rwblockFrom, bind, andThen, attempt, h]
  rfl

end Tries

/-! ### Writes -/

/-- The sector that `lhd_io` computes for a block. -/
def sectorOfBlock (b : ℕ) : ℕ := toU32 ((i32 (b * 512)).tdiv 512)

/-- The sector that `lhd_io` computes for what is left of the region for a block once its
data is taken. -/
def sectorPast (b : ℕ) : ℕ := toU32 ((i32 (b * 512 + 512)).tdiv 512)

/-- The driver refuses the block, which lies past the end of the disk. -/
def Refused (d : Lhd) (b : ℕ) : Prop := d.dBlocks < u32 (sectorOfBlock b + 1)

/-- A region with one block of data for the block `b`. -/
structure BlockRegion (u : Uio) (b : ℕ) (rw : UioRw) : Prop extends u.Backed where
  rw : u.rw = rw
  offset : u.offset = i32 (b * 512)
  resid : u.resid = 512

section Region

variable {d : Lhd} {u u' : Uio} {b : ℕ} {data : Block} {tries : ℕ}

/-- File offsets of blocks are multiples of the block size, wrapped around or not. -/
theorem dvd_i32 {z : ℤ} (h : 512 ∣ z) :
  512 ∣ i32 z
  := by
  unfold i32
  omega

theorem BlockRegion.dvd {rw : UioRw} (h : BlockRegion u b rw) :
  512 ∣ u.offset
  := by
  rw [h.offset]
  apply dvd_i32
  omega

theorem BlockRegion.sectorOf {rw : UioRw} (h : BlockRegion u b rw) :
  Lhd.sectorOf u = sectorOfBlock b
  := by
  rw [Lhd.sectorOf, h.offset, sectorOfBlock]

theorem BlockRegion.refused {rw : UioRw} (h : BlockRegion u b rw) (hd : Refused d b) :
  rwblockFrom tries (d, u) = .panic .rwblockEinval
  := by
  apply rwblockFrom_einval (Lhd.io_refused d h.dvd _ _)
  · rw [h.resid]
  · rw [h.resid, h.sectorOf]
    exact hd

/-- What is left of a region once its block is taken from it. -/
theorem BlockRegion.past (h : BlockRegion u b .write) (ht : Uio.Taken u u' 512) :
  512 ∣ u'.offset ∧ u'.resid = 0 ∧ Lhd.sectorOf u' = sectorPast b
  := by
  have hoff : u'.offset = i32 (b * 512 + 512) := by
    rw [ht.offset, h.offset, i32_add]
    rfl
  have hresid := ht.resid
  rw [h.resid] at hresid
  refine ⟨?_, by omega, ?_⟩
  · rw [hoff]
    apply dvd_i32
    omega
  · rw [Lhd.sectorOf, hoff, sectorPast]

/-- When a write to a block is reported truthfully: the block holds the data already, or the
driver panics over the block or over what is left of its region, or the device succeeds at
once and its sector is the one meant. -/
def WriteHonest (d : Lhd) (b : ℕ) (data : Block) : Prop :=
  d.disk b = data ∨ Refused d b ∨
    match d.nextResult with
    | .ok => sectorOfBlock b = b
    | .invsect => True
    | .media => d.dBlocks < sectorPast b

/-- How a write ends whose data was taken from the region: a try that ends in a media error is
followed by one with an empty region. -/
theorem BlockRegion.write_eq (h : BlockRegion u b .write) (ht : Uio.Taken u u' 512)
    (hrun : Uio.uiomove (Buf.ofFn fun _ => 0 : Buf 512 UInt8) 0 512 u = .ok data u')
    (hd : ¬ Refused d b) :
  rwblockFrom (tries + 1) (d, u)
    = match d.nextResult with
      | .ok => .ok () (d.completed.put (sectorOfBlock b) data, u')
      | .invsect => .panic .rwblockEinval
      | .media =>
        if d.dBlocks < sectorPast b then .panic .rwblockEinval else .ok () (d.completed, u')
  := by
  obtain ⟨hdvd, hresid, hpast⟩ := h.past ht
  have hin : u32 (Lhd.sectorOf u + 1) ≤ d.dBlocks := by
    rw [h.sectorOf]
    exact Nat.not_lt.mp hd
  have hio := Lhd.io_write_one d h.rw h.dvd h.resid hin hrun
  rw [h.sectorOf] at hio
  cases hnext : d.nextResult with
  | ok =>
    rw [hnext] at hio
    exact rwblockFrom_ok hio
  | invsect =>
    rw [hnext] at hio
    exact rwblockFrom_einval hio
  | media =>
    rw [hnext] at hio
    rw [rwblockFrom_eio hio]
    -- the region is empty now
    by_cases hout : d.dBlocks < sectorPast b
    · have hsector : u32 (Lhd.sectorOf u' + u'.resid / 512) = sectorPast b := by
        rw [hresid, ← hpast]
        apply Lhd.u32_sectorOf
      have hrefused := Lhd.io_refused d.completed hdvd (by rw [hresid])
        (by rw [hsector]; exact hout)
      rw [rwblockFrom_einval hrefused]
      simp only [if_pos hout]
    · have hnone := Lhd.io_none d.completed hdvd hresid (by rw [hpast]; exact Nat.not_lt.mp hout)
      rw [rwblockFrom_ok hnone]
      simp only [if_neg hout]

/-- When a write to a block panics: the driver refuses the block, or the device does, or the
driver refuses what is left of its region. -/
def WriteRefused (d : Lhd) (b : ℕ) : Prop :=
  Refused d b ∨ d.nextResult = .invsect ∨ d.dBlocks < sectorPast b

/-- A write panics, or stores the data, or loses it. -/
theorem BlockRegion.write_cases (h : BlockRegion u b .write) (ht : Uio.Taken u u' 512)
    (hrun : Uio.uiomove (Buf.ofFn fun _ => 0 : Buf 512 UInt8) 0 512 u = .ok data u') :
  (WriteRefused d b ∧ ∃ q, rwblockFrom (tries + 1) (d, u) = .panic q)
    ∨ (d.nextResult = .ok
      ∧ rwblockFrom (tries + 1) (d, u) = .ok () (d.completed.put (sectorOfBlock b) data, u'))
    ∨ (d.nextResult = .media ∧ rwblockFrom (tries + 1) (d, u) = .ok () (d.completed, u'))
  := by
  by_cases hd : Refused d b
  · exact .inl ⟨.inl hd, _, h.refused hd⟩
  rw [h.write_eq ht hrun hd]
  cases hnext : d.nextResult with
  | ok => exact .inr (.inl ⟨rfl, rfl⟩)
  | invsect => exact .inl ⟨.inr (.inl hnext), _, rfl⟩
  | media =>
    by_cases hout : d.dBlocks < sectorPast b
    · exact .inl ⟨.inr (.inr hout), _, if_pos hout⟩
    · exact .inr (.inr ⟨rfl, if_neg hout⟩)

/-- A write whose data was taken from the region. -/
theorem BlockRegion.write_iff (h : BlockRegion u b .write) (ht : Uio.Taken u u' 512)
    (hrun : Uio.uiomove (Buf.ofFn fun _ => 0 : Buf 512 UInt8) 0 512 u = .ok data u') :
  (∀ du, rwblockFrom (tries + 1) (d, u) = .ok () du → du.1.disk b = data)
    ↔ WriteHonest d b data
  := by
  by_cases hd : Refused d b
  · rw [h.refused hd]
    simp [WriteHonest, hd]
  rw [h.write_eq ht hrun hd]
  simp only [WriteHonest, hd, false_or]
  cases hnext : d.nextResult with
  | ok =>
    -- another sector may have been written
    have hput : (d.completed.put (sectorOfBlock b) data).disk b
        = if b = sectorOfBlock b then data else d.disk b := rfl
    constructor
    · intro hall
      have hdisk := hall _ rfl
      rw [hput] at hdisk
      by_cases heq : b = sectorOfBlock b
      · exact .inr heq.symm
      · rw [if_neg heq] at hdisk
        exact .inl hdisk
    · rintro hor du ⟨⟩
      rw [hput]
      by_cases heq : b = sectorOfBlock b
      · rw [if_pos heq]
      · rw [if_neg heq]
        exact hor.resolve_right (fun h => heq h.symm)
  | invsect => simp
  | media =>
    by_cases hout : d.dBlocks < sectorPast b
    · simp [hout]
    · simp only [hout, if_false, or_false]
      constructor
      · intro hall
        exact hall _ rfl
      · rintro hor du ⟨⟩
        exact hor

/-! ### Reads -/

/-- Whether a device with the results reports success within so many retries. -/
def Delivers : (tries : ℕ) → List LhdStatus → Prop
  | _, [] => True
  | _, .ok :: _ => True
  | _, .invsect :: _ => False
  | 0, .media :: _ => False
  | tries + 1, .media :: rest => Delivers tries rest

section

variable (h : BlockRegion u b .read) (hr : u.Reliable) (hd : ¬ Refused d b)
include h hr hd

theorem BlockRegion.read_try :
  ∃ u', Uio.Given u u' 512 (d.disk (sectorOfBlock b)).get ∧ Lhd.io (d, u)
    = match d.nextResult with
      | .ok => .ok () (d.completed, u')
      | .invsect => .err .einval (d.completed, u)
      | .media => .err .eio (d.completed, u)
  := by
  have hin : u32 (Lhd.sectorOf u + 1) ≤ d.dBlocks := by
    rw [h.sectorOf]
    exact Nat.not_lt.mp hd
  have hmove : wp (Uio.uiomove (d.disk (sectorOfBlock b)) 0 512) u
      (fun _ u' => Uio.Given u u' 512 (d.disk (sectorOfBlock b)).get) := by
    apply wp_mono (Uio.uiomove_spec (d.disk (sectorOfBlock b)) 0 h.toBacked (n := 512)
      (Nat.le_of_eq h.resid.symm))
    · intro _ u' hg
      have hgiven := hg.1 h.rw
      simp only [Nat.zero_add] at hgiven
      exact hgiven
    · rintro e u' ⟨-, hnot, -⟩
      exact hnot hr
  obtain ⟨buf, u', hrun, hgiven⟩ := exists_ok hmove
  rw [← h.sectorOf] at hrun
  exact ⟨u', hgiven, Lhd.io_read_one d h.rw h.dvd h.resid hin hrun⟩

/-- A block that the device delivers is read from the sector computed for it, and no other one is
reported as read. -/
theorem BlockRegion.read_cases (tries : ℕ) :
  (Delivers tries d.results ∧ ∃ du, rwblockFrom tries (d, u) = .ok () du
      ∧ Uio.Given u du.2 512 (d.disk (sectorOfBlock b)).get ∧ du.1.disk = d.disk)
    ∨ ¬ Delivers tries d.results ∧ ∀ du, rwblockFrom tries (d, u) ≠ .ok () du
  := by
  obtain ⟨disk, dBlocks, results⟩ := d
  -- the region stays as it was from try to try, and so does the disk
  induction results generalizing tries with
  | nil =>
    obtain ⟨u', hgiven, hio⟩ := h.read_try hr hd
    exact .inl ⟨by simp [Delivers], _, rwblockFrom_ok hio, hgiven, rfl⟩
  | cons r rest ih =>
    obtain ⟨u', hgiven, hio⟩ := h.read_try hr hd
    cases r with
    | ok => exact .inl ⟨by simp [Delivers], _, rwblockFrom_ok hio, hgiven, rfl⟩
    | invsect =>
      rw [rwblockFrom_einval hio]
      exact .inr ⟨by simp [Delivers], nofun⟩
    | media =>
      cases tries with
      | zero =>
        rw [rwblockFrom_giveUp hio]
        exact .inr ⟨by simp [Delivers], nofun⟩
      | succ tries =>
        rw [rwblockFrom_eio hio]
        exact ih tries hd

end

/-- The byte offset of a block that the first two gigabytes hold does not wrap. -/
theorem sectorOfBlock_eq (hb : b < 2 ^ 22) :
  sectorOfBlock b = b
  := by
  have hin : i32 ((b : ℤ) * 512) = b * 512 := by
    apply i32_of_mem
    · omega
    · omega
  rw [sectorOfBlock, hin, Int.mul_tdiv_cancel _ (by decide)]
  unfold toU32
  omega

/-- When a read from a block is reported truthfully: the sector computed for the block holds
what the block holds, or the driver panics over the block, or the device does not deliver. -/
def ReadHonest (d : Lhd) (b : ℕ) : Prop :=
  d.disk (sectorOfBlock b) = d.disk b ∨ Refused d b ∨ ¬ Delivers 10 d.results

end Region

/-! ### Reports of a volume -/

variable {s : Fs} {b : ℕ} {data : Block}

theorem mkKuio_blockRegion (data : Block) (rw : UioRw) {pos : ℤ} (hpos : pos = i32 (b * 512)) :
  BlockRegion (Uio.mkKuio data 512 pos rw) b rw
  := by
  refine ⟨⟨rfl, Nat.le_refl 512, (by decide : 512 < 2 ^ 32), ?_, ?_⟩, rfl, hpos, rfl⟩
  · rw [hpos]
    apply le_i32
  · rw [hpos]
    apply i32_lt

theorem sfsuio_blockRegion (data : Block) (b : ℕ) (rw : UioRw) :
  BlockRegion (sfsuio data b rw) b rw
  := by
  apply mkKuio_blockRegion
  apply i32_mul

variable {u : Uio}

theorem rwblock_eq_ok {su' : Fs × Uio} :
  rwblock (s, u) = .ok () su'
    ↔ ∃ du, rwblockFrom 10 (s.device, u) = .ok () du
      ∧ ({ s with device := du.1 }, du.2) = su'
  := zoom_eq_ok

variable {s' : Fs}

/-- A block is transferred through a region of its own. -/
theorem transferred_eq_ok {α : Type} (f : Uio → α) {x : α} :
  (do
    let r ← withState u rwblock
    match r.1 with
    | .ok _ => pure (f r.2)
    | .error e => fail e : Run α) s = .ok x s'
    ↔ ∃ du, rwblockFrom 10 (s.device, u) = .ok () du
      ∧ x = f du.2 ∧ s' = { s with device := du.1 }
  := by
  rw [bind_eq_ok]
  constructor
  · rintro ⟨r, s₁, hstate, hrest⟩
    rcases withState_eq_ok.mp hstate with ⟨⟨⟩, u', hrun, rfl⟩ | ⟨e, u', -, rfl⟩
    · obtain ⟨du, hdu, heq⟩ := rwblock_eq_ok.mp hrun
      obtain ⟨rfl, rfl⟩ := pure_eq_ok.mp hrest
      obtain ⟨rfl, rfl⟩ := Prod.mk.inj heq
      exact ⟨du, hdu, rfl, rfl⟩
    · exact (fail_eq_ok.mp hrest).elim
  · rintro ⟨du, hdu, rfl, rfl⟩
    refine ⟨(.ok (), du.2), _, withState_eq_ok.mpr (.inl ⟨(), du.2, ?_, rfl⟩), rfl⟩
    exact rwblock_eq_ok.mpr ⟨du, hdu, rfl⟩

theorem wblock_eq_ok :
  wblock data b s = .ok () s'
    ↔ ∃ du, rwblockFrom 10 (s.device, sfsuio data b .write) = .ok () du
      ∧ s' = { s with device := du.1 }
  := by
  apply (transferred_eq_ok fun _ => ()).trans
  simp only [true_and]

theorem rblock_eq_ok {blk : Block} :
  rblock b s = .ok blk s'
    ↔ ∃ du, rwblockFrom 10 (s.device, sfsuio zeroBlock b .read) = .ok () du
      ∧ blk = Buf.ofFn du.2.mem ∧ s' = { s with device := du.1 }
  := transferred_eq_ok fun u => Buf.ofFn u.mem

theorem blockioDisk_ok {su' : Fs × Uio} (h : blockioDisk b (s, u) = .ok () su') :
  ∃ du, rwblockFrom 10 (s.device, diskRegion u b) = .ok () du
    ∧ su'.1 = { s with device := du.1 }
  := by
  simp only [blockioDisk, get_bind] at h
  obtain ⟨_, su₁, hassert, h⟩ := bind_eq_ok.mp h
  obtain ⟨-, rfl⟩ := assert_eq_ok.mp hassert
  rw [modify_bind] at h
  obtain ⟨r, su₂, hattempt, h⟩ := bind_eq_ok.mp h
  rw [modify_bind] at h
  rcases attempt_eq_ok.mp hattempt with ⟨⟨⟩, hrun, rfl⟩ | ⟨e, -, rfl⟩
  · obtain ⟨du, hdu, rfl⟩ := rwblock_eq_ok.mp hrun
    obtain ⟨-, rfl⟩ := pure_eq_ok.mp h
    exact ⟨du, hdu, rfl⟩
  · exact (fail_eq_ok.mp h).elim

/-- The data of a kernel buffer is taken from its region. -/
theorem BlockRegion.taken (h : BlockRegion u b .write) (hr : u.Reliable) :
  ∃ u', Uio.Taken u u' 512
    ∧ Uio.uiomove (Buf.ofFn fun _ => 0 : Buf 512 UInt8) 0 512 u
      = .ok (Buf.ofFn fun j => u.mem (u.base + j)) u'
  := by
  have hmove : wp (Uio.uiomove (Buf.ofFn fun _ => 0 : Buf 512 UInt8) 0 512) u
      (fun buf u' => Uio.Taken u u' 512 ∧ buf = Buf.ofFn fun j => u.mem (u.base + j)) := by
    apply wp_mono (Uio.uiomove_spec _ 0 h.toBacked (Nat.le_of_eq h.resid.symm))
    · intro buf u' hm
      obtain ⟨htaken, hbuf⟩ := hm.2 h.rw
      exact ⟨htaken, hbuf.trans (Lhd.fetched_zero _ _)⟩
    · rintro e u' ⟨-, hnot, -⟩
      exact hnot hr
  obtain ⟨buf, u', hrun, htaken, rfl⟩ := exists_ok hmove
  exact ⟨u', htaken, hrun⟩

/-- What is reported of a block is true: after a write that returns 0 the sector holds the
data, and what a read that returns 0 hands over is what the sector holds. -/
structure Reported (s : Fs) (b : ℕ) (data : Block) : Prop where
  wblock : ∀ s', Sfs.wblock data b s = .ok () s' → s'.disk b = data
  /-- The write of a whole block in `sfs_blockio`. -/
  blockio : ∀ (u : Uio) (su' : Fs × Uio), u.Backed → u.rw = .write → 512 ≤ u.resid →
    (Buf.ofFn fun j => u.mem (u.base + j)) = data →
    blockioDisk b (s, u) = .ok () su' → su'.1.disk b = data
  rblock : ∀ blk s', Sfs.rblock b s = .ok blk s' → blk = s.disk b

theorem aim_blockRegion (hu : u.Backed) (hrw : u.rw = .write) (hresid : 512 ≤ u.resid)
    {x : ℤ} (hx : x = i32 (b * 512)) :
  BlockRegion (u.aim x 512) b .write
  := by
  have hle := hu.resid_le
  refine ⟨⟨hu.space, Nat.le_trans hresid hle, (by decide : 512 < 2 ^ 32), ?_, ?_⟩, hrw, hx, rfl⟩
  · rw [hx]
    apply le_i32
  · rw [hx]
    apply i32_lt

/-- A write to a block from a region is not reported unless its data was taken. -/
theorem BlockRegion.write_honest (h : BlockRegion u b .write)
    (hdata : (Buf.ofFn fun j => u.mem (u.base + j)) = data) (hw : WriteHonest s.device b data)
    {du : Lhd × Uio} (hrun : rwblockFrom 10 (s.device, u) = .ok () du) :
  du.1.disk b = data
  := by
  have hmove := Uio.uiomove_spec (Buf.ofFn fun _ => 0 : Buf 512 UInt8) 0 h.toBacked
    (Nat.le_of_eq h.resid.symm)
  cases hout : Uio.uiomove (Buf.ofFn fun _ => 0 : Buf 512 UInt8) 0 512 u with
  | ok buf u' =>
    obtain ⟨htaken, hbuf⟩ := (wp_ok hmove hout).2 h.rw
    rw [Lhd.fetched_zero, hdata] at hbuf
    rw [hbuf] at hout
    exact (h.write_iff htaken hout).mpr hw du hrun
  | err e u' =>
    obtain ⟨rfl, -, -⟩ := wp_err hmove hout
    by_cases hd : Refused s.device b
    · rw [h.refused hd] at hrun
      contradiction
    · have hin : u32 (Lhd.sectorOf u + 1) ≤ s.device.dBlocks := by
        rw [h.sectorOf]
        exact Nat.not_lt.mp hd
      have hio : Lhd.io (s.device, u) = .err .efault (s.device, u') := by
        rw [Lhd.io_one s.device h.dvd h.resid hin, if_pos h.rw]
        simp only [bind, andThen, onSnd, zoom, hout]
      rw [rwblockFrom_efault hio] at hrun
      contradiction
  | panic p =>
    exact (wp_not_panic hmove hout).elim

/-- The data of a block is taken from a kernel buffer whole. -/
theorem sfsuio_taken (data : Block) (b : ℕ) :
  ∃ u', Uio.Taken (sfsuio data b .write) u' 512
    ∧ Uio.uiomove (Buf.ofFn fun _ => 0 : Buf 512 UInt8) 0 512 (sfsuio data b .write)
      = .ok data u'
  := by
  have hregion := sfsuio_blockRegion data b .write
  obtain ⟨u', htaken, hrun⟩ := hregion.taken (Uio.mkKuio_reliable _ _ _ _)
  have hdata : (Buf.ofFn fun j => (sfsuio data b .write).mem ((sfsuio data b .write).base + j))
      = data := by
    have hbase : (sfsuio data b .write).base = 0 := rfl
    simp only [hbase, Nat.zero_add]
    exact Buf.ofFn_get data
  rw [hdata] at hrun
  exact ⟨u', htaken, hrun⟩

theorem wblock_iff :
  (∀ s', wblock data b s = .ok () s' → s'.disk b = data) ↔ WriteHonest s.device b data
  := by
  obtain ⟨u', htaken, hrun⟩ := sfsuio_taken data b
  rw [← (sfsuio_blockRegion data b .write).write_iff htaken hrun]
  constructor
  · intro hall du hdu
    exact hall _ (wblock_eq_ok.mpr ⟨du, hdu, rfl⟩)
  · intro hall s' hs'
    obtain ⟨du, hdu, rfl⟩ := wblock_eq_ok.mp hs'
    exact hall du hdu

theorem wblock_panic {q : FsPanic}
    (h : rwblockFrom 10 (s.device, sfsuio data b .write) = .panic q) :
  wblock data b s = .panic q
  := by
  rw [wblock]
  apply bind_panic
  apply withState_panic
  exact zoom_panic h

/-- A write to a block panics, or stores the data, or loses it; it never returns an error. -/
theorem wblock_cases (s : Fs) (b : ℕ) (data : Block) :
  (WriteRefused s.device b ∧ ∃ q, wblock data b s = .panic q)
    ∨ (s.device.nextResult = .ok
      ∧ wblock data b s
        = .ok () { s with device := s.device.completed.put (sectorOfBlock b) data })
    ∨ (s.device.nextResult = .media
      ∧ wblock data b s = .ok () { s with device := s.device.completed })
  := by
  obtain ⟨u', htaken, hrun⟩ := sfsuio_taken data b
  rcases (sfsuio_blockRegion data b .write).write_cases htaken hrun with
    ⟨hrefused, q, hpanic⟩ | ⟨hnext, hok⟩ | ⟨hnext, hok⟩
  · exact .inl ⟨hrefused, q, wblock_panic hpanic⟩
  · exact .inr (.inl ⟨hnext, wblock_eq_ok.mpr ⟨_, hok, rfl⟩⟩)
  · exact .inr (.inr ⟨hnext, wblock_eq_ok.mpr ⟨_, hok, rfl⟩⟩)

/-- A block that was read is what the sector computed for it holds. -/
theorem rblock_returns {blk : Block} (h : rblock b s = .ok blk s') :
  ¬ Refused s.device b ∧ Delivers 10 s.device.results ∧ blk = s.disk (sectorOfBlock b)
    ∧ ∃ d, d.disk = s.device.disk ∧ s' = { s with device := d }
  := by
  have hregion := sfsuio_blockRegion zeroBlock b .read
  obtain ⟨du, hdu, rfl, rfl⟩ := rblock_eq_ok.mp h
  have hd : ¬ Refused s.device b := by
    intro hrefused
    rw [hregion.refused hrefused] at hdu
    cases hdu
  rcases hregion.read_cases (Uio.mkKuio_reliable _ _ _ _) hd 10 with
    ⟨hdel, du', hdu', hgiven, hdisk⟩ | ⟨-, hnot⟩
  · rw [hdu] at hdu'
    obtain ⟨-, rfl⟩ := Outcome.ok.inj hdu'
    refine ⟨hd, hdel, ?_, du.1, hdisk, rfl⟩
    apply Buf.ext'
    intro j hj
    have hbase : (sfsuio zeroBlock b .read).base = 0 := rfl
    rw [Buf.get_ofFn _ hj, hgiven.mem j, hbase, if_pos (by omega), Nat.sub_zero]
    rfl
  · exact absurd hdu (hnot du)

theorem rblock_iff :
  (∀ blk s', rblock b s = .ok blk s' → blk = s.disk b) ↔ ReadHonest s.device b
  := by
  constructor
  · intro hall
    by_contra hnot
    simp only [ReadHonest, not_or, not_not] at hnot
    obtain ⟨hne, hd, hdel⟩ := hnot
    rcases (sfsuio_blockRegion zeroBlock b .read).read_cases (Uio.mkKuio_reliable _ _ _ _) hd 10
      with ⟨-, du, hdu, -⟩ | ⟨hdel', -⟩
    · have hrun := rblock_eq_ok.mpr ⟨du, hdu, rfl, rfl⟩
      exact hne ((rblock_returns hrun).2.2.1.symm.trans (hall _ _ hrun))
    · exact hdel' hdel
  · intro hhonest blk s' hs'
    obtain ⟨hd, hdel, rfl, -⟩ := rblock_returns hs'
    rcases hhonest with heq | hd' | hdel'
    · exact heq
    · exact absurd hd' hd
    · exact absurd hdel hdel'

/-- A block of the first two gigabytes that was read is the block of the disk, which stays as it
was. -/
theorem rblock_ok {blk : Block} (hb : b < 2 ^ 22) (h : rblock b s = .ok blk s') :
  blk = s.disk b ∧ ∃ d, d.disk = s.device.disk ∧ s' = { s with device := d }
  := by
  obtain ⟨-, -, hblk, hs'⟩ := rblock_returns h
  rw [sectorOfBlock_eq hb] at hblk
  exact ⟨hblk, hs'⟩

/-- On any volume, with any results of the device to come, what is reported of a block is true
exactly when its write and its read are honest. -/
theorem reported_iff (s : Fs) (b : ℕ) (data : Block) :
  Reported s b data ↔ WriteHonest s.device b data ∧ ReadHonest s.device b
  := by
  constructor
  · intro h
    exact ⟨wblock_iff.mp h.wblock, rblock_iff.mp h.rblock⟩
  · rintro ⟨hwrite, hread⟩
    refine ⟨wblock_iff.mpr hwrite, ?_, rblock_iff.mpr hread⟩
    intro u su' hu hrw hresid hdata hrun
    obtain ⟨du, hdu, hsu⟩ := blockioDisk_ok hrun
    have hdata' : (Buf.ofFn fun j => (diskRegion u b).mem ((diskRegion u b).base + j)) = data := by
      rw [diskRegion, Uio.aim_mem, Uio.aim_base]
      exact hdata
    rw [hsu]
    exact (aim_blockRegion hu hrw hresid rfl).write_honest hdata' hwrite hdu

/-- A volume of two empty blocks, whose device reports a media error once. -/
def mediaErrorOnce : Fs where
  device := ⟨fun _ => zeroBlock, 2, [.media]⟩
  nblocks := 2
  vnodes := ⟨[], 0⟩
  freemap := ⟨4096, List.replicate 512 255⟩
  freemapdirty := false
  heap := fun _ => ⟨none, 0, 0, Inode.cleared, 0, false⟩
  next := 0
  kmallocs := []

/-- The second try of a write finds no data left and reports success. -/
theorem not_reported_mediaErrorOnce :
  1 < mediaErrorOnce.device.dBlocks ∧ ¬ Reported mediaErrorOnce 1 (Buf.ofFn fun _ => 1)
  := by
  refine ⟨by decide, ?_⟩
  intro h
  rcases wblock_iff.mp h.wblock with hdisk | hrefused | hpast
  · have hbyte := congrFun hdisk 0
    exact absurd hbyte (by decide)
  · exact absurd hrefused (by decide : ¬ 2 < u32 (sectorOfBlock 1 + 1))
  · exact absurd hpast (by decide : ¬ 2 < sectorPast 1)

end Sfs
