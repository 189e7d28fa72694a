import AzureSpider.Sfs.Contents

/-!
# Requests to read

What `sfs_read` does with the requests of any size at any offset, as the headers of a program file
hand them over.

* The check for the end of the file adds the offset and the length of a request in a signed word.
  As long as the sum fits there, a read gives the bytes up to the size of the file; a longer
  request is not cut.
* The place of an offset in its block is computed with signed arithmetic and then taken as an
  unsigned word.  So a read at a negative offset that is not the start of a block copies from
  outside of the buffer, and the assertion on the part of the block, which is taken modulo `2 ^ 32`,
  does not see it.
-/

open Machine Routine

namespace Sfs

/-! ### The end of the file -/

section Clipped

variable {s : Fs} {p : Ptr} {u : Uio}

/-- A read at or past the end of a file returns at once. -/
theorem io_past_end (hrw : u.rw = .read) (hpast : i32 (s.heap p).i.size.toNat ≤ u.offset) :
  io p (s, u) = .ok () (s, u)
  := by
  have hnone : ioExtraresid p (s, u) = .ok none (s, u) := by
    simp only [ioExtraresid, get_bind, if_pos hrw, if_pos hpast]
    rfl
  simp only [io, bind, andThen, hnone]
  rfl

theorem read_eq_io (hrw : u.rw = .read) :
  read p (s, u) = io p (s, u)
  := by
  simp only [read, get_bind, assert, if_pos hrw]
  rfl

end Clipped

/-- A read gives the bytes from its offset up to the end of the file: at or past the end for every
length, and before it if the end of the request is an offset, the file has blocks for the bytes and
the memory can be written. -/
theorem read_clipped {s : Fs} {p : Ptr} {u : Uio} (h : s.Sound) (hok : s.FileOk p)
    (hsize : s.size p < 2 ^ 31) (hu : u.Ahead) (hrw : u.rw = .read)
    (hfits : s.size p ≤ u.offset ∨ u.offset + u.resid < 2 ^ 31 ∧ u.Reliable
      ∧ min (u.offset.toNat + u.resid) (s.size p) ≤ 73216) :
  ∃ u', read p (s, u) = .ok () (s, u')
    ∧ Uio.Given u u' (min u.resid (s.size p - u.offset.toNat))
      (fun j => s.byteAt p (u.offset.toNat + j))
    ∧ u'.resid = u.resid - min u.resid (s.size p - u.offset.toNat)
  := by
  have hnonneg := hu.offset_nonneg
  rw [read_eq_io hrw]
  by_cases hpast : s.size p ≤ u.offset
  · have hsize' : i32 ((s.heap p).i.size.toNat : ℤ) = s.size p :=
      i32_of_mem (by omega) (by exact_mod_cast hsize)
    have hzero : min u.resid (s.size p - u.offset.toNat) = 0 := by omega
    refine ⟨u, io_past_end hrw (by rw [hsize']; exact hpast), ?_, by omega⟩
    rw [hzero]
    exact hu.taken_zero.given _
  · obtain ⟨hend, hrel, hblocks⟩ := hfits.resolve_left hpast
    have hwithin : u.Within := ⟨⟨hu.space, hu.resid_le, hnonneg, hu.offset_lt, by omega⟩, hend⟩
    have ho : u.offset = (u.offset.toNat : ℕ) := (Int.toNat_of_nonneg hnonneg).symm
    have hspec : wp (io p) (s, u)
        (fun _ su => su.1 = s ∧ Uio.Given u su.2 (s.readable p u.offset.toNat u.resid)
          (fun j => s.byteAt p (u.offset.toNat + j))) := by
      apply wp_mono (io_read h hok hsize hwithin hrw ho rfl)
      · rintro - su ⟨hs, hgiven, -⟩
        exact ⟨hs, hgiven⟩
      · rintro e su ⟨-, hcause⟩
        obtain ⟨-, hlt, hfar⟩ := hcause hrel
        unfold Fs.readable at hfar
        omega
    obtain ⟨⟨⟩, ⟨s', u'⟩, hrun, hs, hgiven⟩ := exists_ok hspec
    simp only at hs hgiven
    subst hs
    refine ⟨u', hrun, hgiven, ?_⟩
    have hresid := hgiven.resid
    unfold Fs.readable at hresid
    omega

/-- The file `a` has one byte, and three bytes are asked for. -/
theorem read_clipped_oneByte :
  ∃ u', read 1 (started [.write 1 (filled 7 1 0 .write)], filled 0 3 0 .read)
      = .ok () (started [.write 1 (filled 7 1 0 .write)], u')
    ∧ u'.resid = 2
  := by
  obtain ⟨h, hok⟩ := fileOk_started [.write 1 (filled 7 1 0 .write)] (by decide +kernel)
    (by decide +kernel)
  have hsize : (started [.write 1 (filled 7 1 0 .write)]).size 1 = 1 := by decide +kernel
  generalize started [.write 1 (filled 7 1 0 .write)] = s at h hok hsize ⊢
  have hu : (filled 0 3 0 .read).Ahead :=
    ⟨⟨rfl, by decide, by decide, by decide, by decide⟩, by decide⟩
  obtain ⟨u', hrun, -, hresid⟩ := read_clipped h hok (by omega) hu rfl
    (.inr ⟨by decide, .inl rfl, by rw [hsize]; decide⟩)
  refine ⟨u', hrun, ?_⟩
  rw [hresid, hsize]
  rfl

/-- A region of the kernel with `2 ^ 31` bytes, for the last block of a file. -/
def hugeRegion : Uio := { filled 0 0 72704 .read with iovLen := 2 ^ 31, resid := 2 ^ 31 }

/-- A read past the blocks that a file can have is refused, and so is one into memory that a user
does not have; and a request whose end is not an offset is not cut at the end of the file. -/
theorem read_overruns :
  ((started [.truncate 1 100000]).size 1 = 100000
      ∧ ∃ su, read 1 (started [.truncate 1 100000], filled 0 1 73216 .read) = .err .einval su)
    ∧ ((started [.write 1 (filled 7 1 72704 .write)]).size 1 = 72705
      ∧ (∃ su, read 1 (started [.write 1 (filled 7 1 72704 .write)], unbacked 0)
        = .err .efault su)
      ∧ ∃ su, read 1 (started [.write 1 (filled 7 1 72704 .write)], hugeRegion) = .err .einval su
        ∧ hugeRegion.resid - su.2.resid = 512)
  := by
  exact ⟨by decide +kernel, by decide +kernel⟩

/-! ### The buffer -/

/-- The part of `sfs_io` that does the leading partial block, with any routine in the place of
`sfs_partialio`. -/
def ioLeadingBy (part : ℕ → ℕ → IoRun Unit) : IoRun Unit := do
  let su ← get
  let blkoff := toU32 (su.2.offset.tmod 512)
  if blkoff ≠ 0 then
    part blkoff (min (toU32 (512 - blkoff)) su.2.resid)
  else
    pure ()

/-- The part of `sfs_io` that does the whole blocks and the partial block at the end, with any
routine in the place of `sfs_partialio`. -/
def ioAlignedBy (sv : Ptr) (part : ℕ → ℕ → IoRun Unit) : IoRun Unit := do
  let su ← get
  assert (su.2.offset.tmod 512 = 0) .ioOffset
  loop (su.2.resid / 512) 0 (fun _ _ => blockio sv) ()
  let su ← get
  assert (su.2.resid < 512) .ioResid
  if 0 < su.2.resid then
    part 0 su.2.resid
  else
    pure ()

/-- The part of `sfs_io` that transfers, with any routine in the place of `sfs_partialio`. -/
def ioTransferBy (sv : Ptr) (part : ℕ → ℕ → IoRun Unit) : IoRun Unit := do
  ioLeadingBy part
  let su ← get
  if su.2.resid = 0 then
    pure ()
  else
    ioAlignedBy sv part

/-- `sfs_io`, with any routine in the place of `sfs_partialio`. -/
def ioBy (sv : Ptr) (part : ℕ → ℕ → IoRun Unit) : IoRun Unit := do
  match ← ioExtraresid sv with
  | none => pure ()
  | some extraresid => do
      let result ← attempt (ioTransferBy sv part)
      ioLength sv
      modify fun su => (su.1, su.2.aim su.2.offset (u32 (su.2.resid + extraresid)))
      match result with
      | .ok _ => pure ()
      | .error e => fail e

theorem ioBy_partialio (sv : Ptr) :
  ioBy sv (partialio sv) = io sv
  := rfl

/-- The routines that do what `sfs_partialio` does as long as they stay in the buffer. -/
def InBuffer (sv : Ptr) (part : ℕ → ℕ → IoRun Unit) : Prop :=
  ∀ skipstart len, skipstart + len ≤ 512 → part skipstart len = partialio sv skipstart len

/-- Each call of `sfs_partialio` that `sfs_io` makes stays in the buffer: it makes no difference
what a call does that leaves it. -/
def Confined (sv : Ptr) (su : Fs × Uio) : Prop :=
  ∀ part, InBuffer sv part → ioBy sv part su = io sv su

section Confined

variable {s : Fs} {p : Ptr} {u : Uio} {part : ℕ → ℕ → IoRun Unit}

/-- The partial block at the end is always in the buffer. -/
theorem ioAlignedBy_eq (hpart : InBuffer p part) :
  ioAlignedBy p part = ioAligned p
  := by
  funext su
  apply Routine.bind_congr rfl
  intro su₁ su₂ _
  apply Routine.bind_congr rfl
  intro _ su₃ _
  apply Routine.bind_congr rfl
  intro _ su₄ _
  apply Routine.bind_congr rfl
  intro su₅ su₆ _
  apply Routine.bind_congr rfl
  intro _ su₇ hassert
  obtain ⟨hlt, -⟩ := assert_eq_ok.mp hassert
  rw [hpart 0 su₅.2.resid (by omega)]

/-- The transfer is confined if its leading partial block is in the buffer. -/
theorem ioTransferBy_eq (hpart : InBuffer p part) {su : Fs × Uio}
    (hlead : su.2.offset.tmod 512 = 0 ∨ 0 ≤ su.2.offset) :
  ioTransferBy p part su = ioTransfer p su
  := by
  have hleading : ioLeadingBy part su = ioLeading p su := by
    simp only [ioLeadingBy, ioLeading, get_bind]
    split_ifs with hne
    · rw [hpart]
      rcases hlead with hzero | hpos
      · rw [hzero] at hne
        exact absurd rfl hne
      · have hmod := Int.tmod_eq_emod_of_nonneg (b := 512) hpos
        rw [hmod]
        unfold toU32
        omega
    · rfl
  apply Routine.bind_congr hleading
  intro _ su' _
  rw [ioAlignedBy_eq hpart]

/-- The check for the end of the file leaves something to read before it. -/
theorem ioExtraresid_before (hrw : u.rw = .read) (hge : -2 ^ 31 ≤ u.offset)
    (hresid : u.resid < 2 ^ 32) (hbefore : u.offset < i32 (s.heap p).i.size.toNat) :
  ∃ x r, ioExtraresid p (s, u) = .ok (some x) (s, u.aim u.offset r) ∧ (r = 0 ↔ u.resid = 0)
  := by
  have hend := exists_i32_eq (u.offset + u.resid)
  have hhigh := i32_lt (u.offset + u.resid)
  have hnot : ¬ i32 (s.heap p).i.size.toNat ≤ u.offset := by omega
  simp only [ioExtraresid, get_bind, if_pos hrw, if_neg hnot]
  generalize i32 ((s.heap p).i.size.toNat : ℤ) = size at *
  generalize i32 (u.offset + u.resid) = endpos at *
  obtain ⟨m, hm⟩ := hend
  by_cases hcut : size < endpos
  · have hextra : (toU32 (endpos - size) : ℤ) = endpos - size := by
      unfold toU32
      omega
    have hlt : toU32 (endpos - size) < u.resid := by omega
    rw [if_pos hcut]
    refine ⟨toU32 (endpos - size), u.resid - toU32 (endpos - size), ?_, by omega⟩
    simp only [assert, if_pos hlt]
    rfl
  · rw [if_neg hcut]
    exact ⟨0, u.resid, rfl, Iff.rfl⟩

/-- A transfer whose leading partial block is not called, or in the buffer. -/
theorem confined_of_lead (hrw : u.rw = .read) (hge : -2 ^ 31 ≤ u.offset)
    (hresid : u.resid < 2 ^ 32) (hlead : u.offset.tmod 512 = 0 ∨ 0 ≤ u.offset) :
  Confined p (s, u)
  := by
  intro part hpart
  rw [← ioBy_partialio]
  apply Routine.bind_congr rfl
  rintro extra su hextra
  by_cases hpast : i32 (s.heap p).i.size.toNat ≤ u.offset
  · simp only [ioExtraresid, get_bind, if_pos hrw, if_pos hpast] at hextra
    obtain ⟨rfl, -⟩ := pure_eq_ok.mp hextra
    rfl
  · obtain ⟨x, r, hsome, -⟩ := ioExtraresid_before hrw hge hresid (Int.not_le.mp hpast)
    rw [hsome] at hextra
    cases hextra
    apply Routine.bind_congr
    · apply attempt_congr
      exact ioTransferBy_eq hpart hlead
    · intro _ _ _
      rfl

omit s p u part in
/-- The remainder of a negative number, as C takes it. -/
theorem tmod_of_nonpos {z : ℤ} (hz : z ≤ 0) :
  z.tmod 512 = -(-z % 512)
  := by
  have hneg := Int.neg_tmod (-z) 512
  have hpos : 0 ≤ -z := by omega
  rwa [Int.neg_neg, Int.tmod_eq_emod_of_nonneg hpos] at hneg

/-- The routine that fails with an error when it leaves the buffer. -/
def probe (sv : Ptr) (e : Errno) (skipstart len : ℕ) : IoRun Unit :=
  if skipstart + len ≤ 512 then partialio sv skipstart len else fail e

theorem inBuffer_probe (e : Errno) :
  InBuffer p (probe p e)
  := fun _ _ hle => if_pos hle

/-- A read at a negative offset inside of a block leaves the buffer. -/
theorem ioBy_probe (hrw : u.rw = .read) (hge : -2 ^ 31 ≤ u.offset) (hresid : u.resid < 2 ^ 32)
    (hbefore : u.offset < i32 (s.heap p).i.size.toNat) (hneg : u.offset < 0)
    (hmod : u.offset.tmod 512 ≠ 0) (e : Errno) :
  wp (ioBy p (probe p e)) (s, u) (fun _ _ => False) (fun e' _ => e' = e)
  := by
  obtain ⟨x, r, hsome, -⟩ := ioExtraresid_before hrw hge hresid hbefore
  have hrem := tmod_of_nonpos (Int.le_of_lt hneg)
  have hblk : 512 < toU32 (u.offset.tmod 512) := by
    unfold toU32
    omega
  simp only [ioBy, wp_bind]
  apply wp_of_ok hsome
  simp only [wp_bind, wp_attempt, ioTransferBy, ioLeadingBy, wp_get, wp_ite, probe, wp_fail]
  constructor
  · intro _
    constructor
    · intro hle
      simp only [Uio.aim_offset] at hle
      omega
    · intro _
      apply ioLength_read
      · rw [Uio.aim_rw]
        exact hrw
      · simp only [wp_modify]
  · intro hzero
    simp only [Uio.aim_offset] at hzero
    omega

/-- A transfer at the start of a block that no file has fails. -/
theorem ioTransfer_far (hrw : u.rw = .read) (hfar : 143 ≤ toU32 (u.offset.tdiv 512))
    (hmod : u.offset.tmod 512 = 0) (hsome : u.resid ≠ 0) :
  wp (ioTransfer p) (s, u) (fun _ _ => False) (fun _ su => su.2.rw = .read)
  := by
  have hzero : toU32 0 = 0 := rfl
  simp only [ioTransfer, ioLeading, wp_bind, wp_get, hmod, hzero, ne_eq,
    not_true_eq_false, if_false, wp_pure, if_neg hsome, ioAligned, wp_assert]
  refine ⟨trivial, ?_⟩
  cases hblocks : u.resid / 512 with
  | zero =>
    -- a partial block only
    have hlt : u.resid < 512 := by omega
    simp only [wp_loop_zero, if_pos (Nat.pos_of_ne_zero hsome), partialio,
      wp_bind, wp_get, wp_assert, wp_onFst]
    refine ⟨hlt, ?_, bmap_einval hfar _ hrw⟩
    rw [u32_of_lt (by omega)]
    omega
  | succ m =>
    rw [wp_loop_succ]
    simp only [blockio, wp_bind, wp_get, wp_onFst]
    exact bmap_einval hfar _ hrw

/-- A read of some bytes at a negative offset that is the start of a block is refused. -/
theorem io_negative (hrw : u.rw = .read) (hge : -2 ^ 31 ≤ u.offset) (hresid : u.resid < 2 ^ 32)
    (hbefore : u.offset < i32 (s.heap p).i.size.toNat) (hneg : u.offset < 0)
    (hmod : u.offset.tmod 512 = 0) (hsome : u.resid ≠ 0) :
  wp (io p) (s, u) (fun _ _ => False) (fun _ _ => True)
  := by
  obtain ⟨x, r, hextra, hr⟩ := ioExtraresid_before hrw hge hresid hbefore
  have hr0 : r ≠ 0 := fun hz => hsome (hr.mp hz)
  have hdiv := Int.mul_tdiv_add_tmod u.offset 512
  have hfar : 143 ≤ toU32 (u.offset.tdiv 512) := by
    unfold toU32
    omega
  simp only [io, wp_bind]
  apply wp_of_ok hextra
  simp only [wp_bind, wp_attempt]
  apply wp_mono (ioTransfer_far (u := u.aim u.offset r) hrw hfar hmod hr0)
  · intro _ su hfalse
    exact hfalse.elim
  · intro e su hread
    apply ioLength_read hread
    simp only [wp_modify, wp_fail]

/-- A request for no bytes at the start of a block is not refused. -/
theorem io_nothing (hrw : u.rw = .read) (hge : -2 ^ 31 ≤ u.offset)
    (hbefore : u.offset < i32 (s.heap p).i.size.toNat) (hmod : u.offset.tmod 512 = 0)
    (hnone : u.resid = 0) :
  wp (io p) (s, u) (fun _ _ => True)
  := by
  have hzero : toU32 0 = 0 := rfl
  obtain ⟨x, r, hextra, hr⟩ := ioExtraresid_before hrw hge (by omega) hbefore
  obtain rfl := hr.mpr hnone
  simp only [io, wp_bind]
  apply wp_of_ok hextra
  simp only [wp_bind, wp_attempt, ioTransfer, ioLeading, wp_get,
    Uio.aim_offset, hmod, hzero, ne_eq, not_true_eq_false, if_false, wp_pure,
    Uio.aim_resid, if_true]
  apply ioLength_read hrw
  simp only [wp_modify]

end Confined

/-- A read of any number of bytes at any offset stays in the buffer, and is refused if the offset is
negative, if and only if the offset is not negative, or it is the start of a block before the end
of the file and there are bytes to read. -/
theorem read_confined_iff {s : Fs} {p : Ptr} {u : Uio} (hrw : u.rw = .read)
    (hge : -2 ^ 31 ≤ u.offset) (hresid : u.resid < 2 ^ 32) :
  (Confined p (s, u) ∧ (u.offset < 0 → ∃ e su, read p (s, u) = .err e su))
    ↔ 0 ≤ u.offset ∨ u.offset.tmod 512 = 0 ∧ u.offset < i32 (s.heap p).i.size.toNat
      ∧ u.resid ≠ 0
  := by
  rw [read_eq_io hrw]
  constructor
  · rintro ⟨hconf, hrefused⟩
    by_contra hcond
    have hneg : u.offset < 0 := by
      by_contra hpos
      exact hcond (.inl (Int.not_lt.mp hpos))
    obtain ⟨e, su, herr⟩ := hrefused hneg
    have hbefore : u.offset < i32 (s.heap p).i.size.toNat := by
      by_contra hpast
      rw [io_past_end hrw (Int.not_lt.mp hpast)] at herr
      cases herr
    by_cases hmod : u.offset.tmod 512 = 0
    · -- nothing is asked for, and nothing is refused
      have hnone : u.resid = 0 := by
        by_contra hsome
        exact hcond (.inr ⟨hmod, hbefore, hsome⟩)
      exact wp_err (io_nothing hrw hge hbefore hmod hnone) herr
    · have hfirst := wp_err (ioBy_probe hrw hge hresid hbefore hneg hmod .einval)
        ((hconf _ (inBuffer_probe _)).trans herr)
      have hsecond := wp_err (ioBy_probe hrw hge hresid hbefore hneg hmod .eio)
        ((hconf _ (inBuffer_probe _)).trans herr)
      rw [hfirst] at hsecond
      cases hsecond
  · rintro (hpos | ⟨hmod, hbefore, hsome⟩)
    · exact ⟨confined_of_lead hrw hge hresid (.inr hpos), fun hneg => by omega⟩
    · refine ⟨confined_of_lead hrw hge hresid (.inl hmod), fun hneg => ?_⟩
      obtain ⟨e, su, herr, -⟩ :=
        exists_err (io_negative hrw hge hresid hbefore hneg hmod hsome)
      exact ⟨e, su, herr⟩

/-- A read of one byte at the offset `-512`. -/
theorem read_confined_iff_blockBefore :
  Confined 1 (started [], filled 0 1 (-512) .read)
    ∧ ∃ e su, read 1 (started [], filled 0 1 (-512) .read) = .err e su
  := by
  have hbefore : (-512 : ℤ) < i32 ((started []).heap 1).i.size.toNat := by decide +kernel
  generalize started [] = s at hbefore ⊢
  obtain ⟨hconf, hrefused⟩ := (read_confined_iff (u := filled 0 1 (-512) .read) rfl (by decide)
    (by decide)).mpr (.inr ⟨by decide, hbefore, by decide⟩)
  exact ⟨hconf, hrefused (by decide)⟩

/-- A read of one byte at the offset `-1` of the file `a` is not refused: the call
`sfs_partialio(sv, uio, 4294967295, 1)` passes the assertion, since the sum of the two is `0` as an
unsigned word. -/
theorem read_leaves_buffer :
  ¬ Confined 1 (started [.write 1 (filled 7 1 0 .write)], filled 0 1 (-1) .read)
    ∧ ∃ su, read 1 (started [.write 1 (filled 7 1 0 .write)], filled 0 1 (-1) .read) = .ok () su
  := by
  have hok : ∃ su, read 1 (started [.write 1 (filled 7 1 0 .write)], filled 0 1 (-1) .read)
      = .ok () su := by
    decide +kernel
  have hbefore : (-1 : ℤ)
      < i32 ((started [.write 1 (filled 7 1 0 .write)]).heap 1).i.size.toNat := by
    decide +kernel
  generalize started [.write 1 (filled 7 1 0 .write)] = s at hok hbefore ⊢
  obtain ⟨su, hrun⟩ := hok
  refine ⟨?_, su, hrun⟩
  intro hconf
  rw [read_eq_io rfl] at hrun
  exact wp_ok (ioBy_probe (u := filled 0 1 (-1) .read) rfl (by decide) (by decide) hbefore
    (by decide) (by decide) .einval) ((hconf _ (inBuffer_probe _)).trans hrun)

end Sfs
