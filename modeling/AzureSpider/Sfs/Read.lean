import AzureSpider.Sfs.Bmap

/-!
# Reading files

A read leaves the volume as it was, and gives to the region the bytes of the file from its
offset on, up to the size of the file.  A file has no bytes in blocks past the 143 that it can
have, and a read of such a block is refused.
-/

open Machine Routine

namespace Sfs

variable {p : Ptr} {s : Fs} {u u' : Uio} {o n : ℕ}

/-! ### Offsets -/

/-- The block of a file that an offset is in. -/
theorem fileblock_eq (hu : u.Ahead) (ho : u.offset = o) :
  toU32 (u.offset.tdiv 512) = o / 512
  := by
  have hlt := hu.offset_lt
  rw [ho, Int.tdiv_eq_ediv_of_nonneg (by omega), toU32]
  omega

/-- The place of an offset in its block. -/
theorem blkoff_eq (ho : u.offset = o) :
  u.offset.tmod 512 = (o % 512 : ℕ) ∧ toU32 (u.offset.tmod 512) = o % 512
  := by
  have hmod : u.offset.tmod 512 = (o % 512 : ℕ) := by
    rw [ho, Int.tmod_eq_emod_of_nonneg (by omega)]
    omega
  rw [hmod, toU32]
  omega

/-! ### Blocks -/

/-- The bytes of a file in one of its blocks. -/
theorem Fs.get_block (s : Fs) (p : Ptr) {k j : ℕ} (hk : k < 143) (hj : j < 512) :
  (if s.ptr p k = 0 then zeroBlock else s.disk (s.ptr p k)).get j = s.byteAt p (512 * k + j)
  := by
  have hdiv : (512 * k + j) / 512 = k := by omega
  have hmod : (512 * k + j) % 512 = j := by omega
  rw [Fs.byteAt, Inode.byteAt, hdiv, hmod]
  by_cases hz : s.ptr p k = 0
  · have hz' : (s.heap p).i.ptr s.disk k = 0 := hz
    rw [if_pos hz, zeroBlock_get, if_neg (by omega)]
  · rw [if_neg hz, if_pos ⟨hk, hz⟩]
    rfl

/-- What a read of `n` bytes at `o` does; the error is the one of a block that no file
has. -/
structure ReadError (p : Ptr) (s : Fs) (u : Uio) (o n : ℕ) (e : Errno) (su : Fs × Uio) :
    Prop where
  volume : su.1 = s
  given : ∃ t ≤ n, Uio.Given u su.2 t (fun j => s.byteAt p (o + j))
  einval : u.Reliable → e = .einval ∧ 73216 < o + n

/-- The bytes of two parts that follow each other. -/
theorem given_append {u'' : Uio} {t t' : ℕ} (h : Uio.Given u u' t (fun j => s.byteAt p (o + j)))
    (h' : Uio.Given u' u'' t' (fun j => s.byteAt p (o + t + j))) :
  Uio.Given u u'' (t + t') (fun j => s.byteAt p (o + j))
  := by
  apply h.trans
  apply h'.congr
  intro j _
  rw [Nat.add_assoc]

/-- A read that fails after a part was read. -/
theorem ReadError.append {t m : ℕ} {e : Errno} {su : Fs × Uio}
    (h : Uio.Given u u' t (fun j => s.byteAt p (o + j))) (h' : ReadError p s u' (o + t) m e su)
    (hn : t + m ≤ n) :
  ReadError p s u o n e su
  := by
  obtain ⟨t', ht', hgiven⟩ := h'.given
  refine ⟨h'.volume, ⟨t + t', by omega, given_append h hgiven⟩, ?_⟩
  intro hr
  obtain ⟨he, hlt⟩ := h'.einval (h.reliable hr)
  exact ⟨he, by omega⟩

theorem partialio_read (h : s.Sound) (hok : s.FileOk p) (hu : u.Within) (hrw : u.rw = .read)
    (ho : u.offset = o) {len : ℕ} (hlen : len ≤ u.resid) (hblk : o % 512 + len ≤ 512)
    (hpos : o % 512 ≠ 0 ∨ 0 < len) :
  wp (partialio p (o % 512) len) (s, u)
    (fun _ su => su.1 = s ∧ Uio.Given u su.2 len (fun j => s.byteAt p (o + j))
      ∧ o + len ≤ 73216)
    (ReadError p s u o len)
  := by
  have hfile := fileblock_eq hu.toReady.ahead ho
  have hw : ¬ u.rw = .write := by
    rw [hrw]
    decide
  simp only [partialio, wp_bind, wp_get, wp_assert, wp_onFst, hfile, hw, decide_false, if_false]
  refine ⟨by rw [u32_of_lt (by omega)]; omega, ?_⟩
  by_cases hk : o / 512 < 143
  · apply wp_of_ok (bmap_look h hok hk)
    -- the buffer holds the bytes of the block, whether or not it is mapped
    have hmove : ∀ blk : Block, (∀ j < 512, blk.get j = s.byteAt p (512 * (o / 512) + j)) →
        wp (Uio.uiomove blk (o % 512) len) u
          (fun _ u' => True ∧ Uio.Given u u' len (fun j => s.byteAt p (o + j)) ∧ o + len ≤ 73216)
          (fun e u' => ReadError p s u o len e (s, u')) := by
      intro blk hblk'
      apply wp_mono (Uio.uiomove_spec blk (o % 512) hu.backed hlen)
      · intro buf u' hmoved
        refine ⟨trivial, ?_, by omega⟩
        apply (hmoved.1 hrw).congr
        intro j hj
        rw [hblk' _ (by omega)]
        congr 1
        omega
      · rintro e u' ⟨-, hr, htaken⟩
        exact ⟨rfl, ⟨0, Nat.zero_le _, htaken.given _⟩, fun hr' => absurd hr' hr⟩
    simp only [wp_ite, wp_bind, wp_assert, wp_pure, wp_onFst, wp_onSnd]
    constructor
    · intro hz
      refine ⟨hrw, hmove zeroBlock ?_⟩
      intro j hj
      rw [← Fs.get_block _ _ hk hj, if_pos hz]
    · intro hne
      apply wp_sure (rblock_spec h.serves (hok.ptr_lt _))
      rintro blk s' ⟨rfl, rfl⟩
      simp only [true_and] at hmove ⊢
      apply hmove
      intro j hj
      rw [← Fs.get_block _ _ hk hj, if_neg hne]
  · apply bmap_einval (by omega)
    refine ⟨rfl, ⟨0, Nat.zero_le _, hu.given_zero _⟩, fun _ => ⟨rfl, ?_⟩⟩
    omega

/-- The region of a block that is transferred directly. -/
theorem diskRegion_ready (h : s.Sound) (hu : u.Backed) {b : ℕ} (hb : b < s.nblocks)
    (hresid : 512 ≤ u.resid) :
  (diskRegion u b).Ready ∧ (diskRegion u b).offset = 512 * (b : ℤ)
    ∧ (diskRegion u b).resid = 512
  := by
  have hsmall := h.serves.small
  have hle := hu.resid_le
  have hoff : i32 ((b : ℤ) * 512) = 512 * (b : ℤ) := by
    rw [Int.mul_comm, i32_of_mem (by omega) (by omega)]
  rw [diskRegion, hoff, Uio.aim_offset, Uio.aim_resid]
  refine ⟨⟨hu.space, ?_, ?_, ?_, ?_⟩, rfl, rfl⟩
  all_goals simp only [Uio.aim]; omega

/-- The residue and the offset that a region gets back after a transfer. -/
theorem fileRegion_eq (hu : u.Backed) {b t : ℕ} (hresid : 512 ≤ u.resid)
    (h : Uio.After (diskRegion u b) u' t) :
  t ≤ u.resid ∧ toU32 (u'.resid - 512 + i32 u.resid) + t = u.resid
    ∧ i32 (u'.offset - i32 (b * 512) + u.offset) = i32 (u.offset + t)
  := by
  have hlt := hu.resid_lt
  have hle := h.le
  have hres := h.resid
  have hoff := h.offset
  rw [diskRegion, Uio.aim_resid] at hle hres
  rw [diskRegion, Uio.aim_offset] at hoff
  refine ⟨by omega, ?_, ?_⟩
  · unfold toU32 i32
    omega
  · have hsum : i32 (i32 (b * 512) + t) - i32 (b * 512) + u.offset
        = i32 (i32 (b * 512) + t) + (u.offset - i32 (b * 512)) := by omega
    have hback : i32 (b * 512) + t + (u.offset - i32 (b * 512)) = u.offset + t := by omega
    rw [hoff, hsum, i32_add, hback]

/-- A whole block that is mapped is read. -/
theorem blockioDisk_read (h : s.Sound) (hu : u.Within) (hrw : u.rw = .read) {b : ℕ}
    (hb : b < s.nblocks) (hresid : 512 ≤ u.resid) :
  wp (blockioDisk b) (s, u)
    (fun _ su => su.1 = s ∧ Uio.Given u su.2 512 (s.disk b).get)
    (fun _ su => su.1 = s ∧ Uio.Taken u su.2 0 ∧ ¬ u.Reliable)
  := by
  obtain ⟨hready, hoff, hone⟩ := diskRegion_ready h hu.backed hb hresid
  simp only [blockioDisk, wp_bind, wp_get, wp_assert, wp_modify, wp_attempt]
  refine ⟨hresid, ?_⟩
  have hrw' : (diskRegion u b).rw = .read := by
    rw [diskRegion, Uio.aim_rw]
    apply hrw
  apply wp_mono (rwblock_read h.serves hb hready hrw' hoff hone)
  · rintro - ⟨s', u'⟩ ⟨rfl, hgiven⟩
    obtain ⟨hle, hres, hback⟩ := fileRegion_eq hu.backed hresid hgiven.toAfter
    simp only [wp_pure]
    exact ⟨trivial, hgiven.aim hle hres hback⟩
  · rintro e ⟨s', u'⟩ ⟨-, hr, rfl, htaken⟩
    obtain ⟨hle, hres, hback⟩ := fileRegion_eq hu.backed hresid htaken.toAfter
    rw [diskRegion, Uio.aim_reliable] at hr
    simp only [wp_fail]
    exact ⟨trivial, htaken.aim hle hres hback, hr⟩

theorem blockio_read (h : s.Sound) (hok : s.FileOk p) (hu : u.Within) (hrw : u.rw = .read)
    (ho : u.offset = o) (hresid : 512 ≤ u.resid) (haligned : o % 512 = 0) :
  wp (blockio p) (s, u)
    (fun _ su => su.1 = s ∧ Uio.Given u su.2 512 (fun j => s.byteAt p (o + j))
      ∧ o + 512 ≤ 73216)
    (ReadError p s u o 512)
  := by
  have hfile := fileblock_eq hu.toReady.ahead ho
  have hw : ¬ u.rw = .write := by
    rw [hrw]
    decide
  simp only [blockio, wp_bind, wp_get, wp_onFst, hfile, hw, decide_false]
  by_cases hk : o / 512 < 143
  · have hbyte : ∀ j < 512, (if s.ptr p (o / 512) = 0 then zeroBlock
        else s.disk (s.ptr p (o / 512))).get j = s.byteAt p (o + j) := by
      intro j hj
      rw [Fs.get_block _ _ hk hj]
      congr 1
      omega
    apply wp_of_ok (bmap_look h hok hk)
    simp only [wp_ite, wp_bind, wp_assert, wp_onSnd]
    constructor
    · intro hz
      refine ⟨hrw, ?_⟩
      rw [if_pos hz] at hbyte
      apply wp_mono (Uio.uiomovezeros_spec hu hresid hrw)
      · intro _ u' hgiven
        refine ⟨trivial, ?_, by omega⟩
        apply hgiven.congr
        intro j hj
        rw [← hbyte j hj, zeroBlock_get]
      · rintro e u' ⟨hr, t, ht, hgiven⟩
        refine ⟨rfl, ⟨t, ht, ?_⟩, fun hr' => absurd hr' hr⟩
        apply hgiven.congr
        intro j hj
        rw [← hbyte j (by omega), zeroBlock_get]
    · intro hne
      rw [if_neg hne] at hbyte
      apply wp_mono (blockioDisk_read h hu hrw (hok.ptr_lt _) hresid)
      · rintro - su ⟨hs, hgiven⟩
        exact ⟨hs, hgiven.congr hbyte, by omega⟩
      · rintro e su ⟨hs, htaken, hr⟩
        exact ⟨hs, ⟨0, Nat.zero_le _, htaken.given _⟩, fun hr' => absurd hr' hr⟩
  · apply bmap_einval (by omega)
    refine ⟨rfl, ⟨0, Nat.zero_le _, hu.given_zero _⟩, fun _ => ⟨rfl, ?_⟩⟩
    omega

/-! ### Requests -/

/-- The parts of a request for `n` bytes at `o`: `Done t` holds after `t` bytes of it, and `Bad`
after a part that fails. -/
structure Parts (p : Ptr) (o n : ℕ) (Done : ℕ → Fs × Uio → Prop)
    (Bad : Errno → Fs × Uio → Prop) : Prop where
  region : ∀ {t su}, Done t su → t ≤ n → su.2.resid = n - t ∧ su.2.offset = ((o + t : ℕ) : ℤ)
  /-- A part of a block, at the start of the request or at its end. -/
  part : ∀ {t su} (len), Done t su → t + len ≤ n → (o + t) % 512 + len ≤ 512 → 0 < len ∨ n = 0 →
    t = 0 ∧ o % 512 ≠ 0 ∨ (o + t) % 512 = 0 ∧ 0 < len →
    wp (partialio p ((o + t) % 512) len) su (fun _ su' => Done (t + len) su') Bad
  block : ∀ {t su}, Done t su → t + 512 ≤ n → (o + t) % 512 = 0 →
    wp (blockio p) su (fun _ su' => Done (t + 512) su') Bad

section Parts

variable {Done : ℕ → Fs × Uio → Prop} {Bad : Errno → Fs × Uio → Prop} {su : Fs × Uio} {t m : ℕ}

/-- The whole blocks of a request. -/
theorem Parts.blocks (h : Parts p o n Done Bad) (hdone : Done t su) (hm : t + 512 * m ≤ n)
    (haligned : (o + t) % 512 = 0) :
  wp (loop m 0 (fun _ _ => blockio p) ()) su (fun _ su' => Done (t + 512 * m) su') Bad
  := by
  apply wp_loop_run (fun j _ (su : Fs × Uio) => Done (t + 512 * j) su) hdone
  intro j _ su' hj hdone'
  apply wp_imp (h.block hdone' (by omega) (by omega))
  intro _ su'' hdone''
  rwa [Nat.mul_succ, ← Nat.add_assoc]

/-- The part of a request from a block boundary on. -/
theorem Parts.aligned (h : Parts p o n Done Bad) (hdone : Done t su) (ht : t ≤ n)
    (haligned : (o + t) % 512 = 0) :
  wp (ioAligned p) su (fun _ su' => Done n su') Bad
  := by
  obtain ⟨hresid, hoff⟩ := h.region hdone ht
  obtain ⟨hmod, -⟩ := blkoff_eq hoff
  simp only [ioAligned, wp_bind, wp_get, wp_assert, hresid]
  refine ⟨by rw [hmod, haligned]; rfl, ?_⟩
  apply wp_imp (h.blocks hdone (by omega) haligned)
  intro _ su' hdone'
  obtain ⟨hresid', -⟩ := h.region hdone' (by omega)
  have haligned' : (o + (t + 512 * ((n - t) / 512))) % 512 = 0 := by omega
  simp only [wp_ite, wp_pure, hresid']
  refine ⟨by omega, ?_, ?_⟩
  · intro hpos
    have hpart := h.part (n - (t + 512 * ((n - t) / 512))) hdone' (by omega) (by omega)
      (.inl hpos) (.inr ⟨haligned', hpos⟩)
    rw [haligned', Nat.add_sub_cancel' (by omega)] at hpart
    exact hpart
  · intro hzero
    have hall : t + 512 * ((n - t) / 512) = n := by omega
    rwa [hall] at hdone'

theorem Parts.transfer (h : Parts p o n Done Bad) (hdone : Done 0 su) :
  wp (ioTransfer p) su (fun _ su' => Done n su') Bad
  := by
  obtain ⟨hresid, hoff⟩ := h.region hdone (Nat.zero_le n)
  obtain ⟨-, hblk⟩ := blkoff_eq hoff
  rw [Nat.add_zero] at hblk
  simp only [ioTransfer, ioLeading, wp_bind, wp_get, wp_ite, wp_pure, hblk, hresid, Nat.sub_zero]
  constructor
  · intro hne
    -- the leading partial block, and then either the request is done or it is aligned
    have hlen : toU32 (512 - ((o % 512 : ℕ) : ℤ)) = 512 - o % 512 := by
      unfold toU32
      omega
    rw [hlen]
    have hpart := h.part (min (512 - o % 512) n) hdone (by omega) (by omega) (by omega)
      (.inl ⟨rfl, hne⟩)
    rw [Nat.add_zero, Nat.zero_add] at hpart
    apply wp_imp hpart
    intro _ su' hdone'
    obtain ⟨hresid', -⟩ := h.region hdone' (Nat.min_le_right _ _)
    constructor
    · intro hzero
      have hall : min (512 - o % 512) n = n := by omega
      rwa [hall] at hdone'
    · intro hmore
      exact h.aligned hdone' (Nat.min_le_right _ _) (by omega)
  · intro haligned
    constructor
    · rintro rfl
      exact hdone
    · intro _
      exact h.aligned hdone (Nat.zero_le n) (by omega)

end Parts

theorem ioTransfer_read (h : s.Sound) (hok : s.FileOk p) (hu : u.Within) (hrw : u.rw = .read)
    (ho : u.offset = o) (hn : u.resid = n) :
  wp (ioTransfer p) (s, u)
    (fun _ su => su.1 = s ∧ Uio.Given u su.2 n (fun j => s.byteAt p (o + j))
      ∧ (n ≠ 0 → o + n ≤ 73216))
    (ReadError p s u o n)
  := by
  have hregion : ∀ {t : ℕ} {u' : Uio}, Uio.Given u u' t (fun j => s.byteAt p (o + j)) →
      u'.resid = n - t ∧ u'.offset = ((o + t : ℕ) : ℤ) := by
    intro t u' hgiven
    have hresid := hgiven.resid
    have hoff := hgiven.offset_eq hu
    omega
  have hparts : Parts p o n (fun t su => su.1 = s
      ∧ Uio.Given u su.2 t (fun j => s.byteAt p (o + j)) ∧ (t ≠ 0 → o + t ≤ 73216))
      (ReadError p s u o n) := by
    constructor
    · rintro t su ⟨-, hgiven, -⟩ _
      exact hregion hgiven
    · rintro t ⟨s', u'⟩ len ⟨rfl, hgiven, hle⟩ hfit hblk - hat
      obtain ⟨hresid, hoff⟩ := hregion hgiven
      simp only at hresid hoff
      apply wp_mono (partialio_read h hok (hgiven.within hu) (hgiven.rw.trans hrw) hoff
        (by omega : len ≤ u'.resid) hblk (by omega))
      · rintro - su ⟨hs, hgiven', hle'⟩
        exact ⟨hs, given_append hgiven hgiven', by omega⟩
      · intro e su he
        exact he.append hgiven hfit
    · rintro t ⟨s', u'⟩ ⟨rfl, hgiven, hle⟩ hfit haligned
      obtain ⟨hresid, hoff⟩ := hregion hgiven
      simp only at hresid hoff
      apply wp_mono (blockio_read h hok (hgiven.within hu) (hgiven.rw.trans hrw) hoff
        (by omega : 512 ≤ u'.resid) haligned)
      · rintro - su ⟨hs, hgiven', hle'⟩
        exact ⟨hs, given_append hgiven hgiven', by omega⟩
      · intro e su he
        exact he.append hgiven hfit
  exact hparts.transfer ⟨rfl, hu.given_zero _, fun hne => absurd rfl hne⟩

/-- What a read at the offset `o` gives: the bytes up to the size of the file. -/
def Fs.readable (s : Fs) (p : Ptr) (o n : ℕ) : ℕ := min n (s.size p - o)

/-- The check for the end of the file cuts a read to the bytes that can be read. -/
theorem ioExtraresid_read (hsize : s.size p < 2 ^ 31) (hu : u.Within) (hrw : u.rw = .read)
    (ho : u.offset = o) (hn : u.resid = n) (hnone : s.size p ≤ o → Q none (s, u))
    (hsome : ∀ x, o < s.size p → x + s.readable p o n = n →
      Q (some x) (s, u.aim u.offset (s.readable p o n))) :
  wp (ioExtraresid p) (s, u) Q E
  := by
  have hend := hu.end_lt
  have hsize' : i32 ((s.heap p).i.size.toNat : ℤ) = s.size p := by
    apply i32_of_mem
    · omega
    · exact_mod_cast hsize
  have hendpos : i32 (u.offset + u.resid) = ((o + n : ℕ) : ℤ) := by
    rw [ho, hn, i32_of_mem (by omega) (by omega)]
    omega
  simp only [ioExtraresid, wp_bind, wp_get, wp_ite, wp_pure, wp_assert, wp_modify, hsize', hendpos]
  refine ⟨fun _ => ⟨?_, fun hlt => ⟨?_, ?_⟩⟩, fun hnot => absurd hrw hnot⟩
  · intro hle
    apply hnone
    omega
  · intro hcut
    have hextra : toU32 (((o + n : ℕ) : ℤ) - (s.size p : ℤ)) = o + n - s.size p := by
      unfold toU32
      omega
    have hleft : s.readable p o n = u.resid - (o + n - s.size p) := by
      unfold Fs.readable
      omega
    rw [hextra]
    refine ⟨by omega, ?_⟩
    rw [← hleft]
    apply hsome
    · omega
    · omega
  · intro hall
    have hfull : s.readable p o n = u.resid := by
      unfold Fs.readable
      omega
    have hsame := hsome 0 (by omega) (by omega)
    rw [hfull] at hsame
    exact hsame

theorem ioLength_read {su : Fs × Uio} (hrw : su.2.rw = .read) (hQ : Q () su) :
  wp (ioLength p) su Q E
  := by
  have hnot : ¬ (su.2.rw = .write ∧ i32 (su.1.heap p).i.size.toNat < su.2.offset) := by
    rw [hrw]
    rintro ⟨hfalse, -⟩
    cases hfalse
  simp only [ioLength, wp_bind, wp_get, if_neg hnot, wp_pure]
  apply hQ

/-- `sfs_io` for a read: it gives the bytes up to the size of the file, or there is a block
among them that no file has. -/
theorem io_read (h : s.Sound) (hok : s.FileOk p) (hsize : s.size p < 2 ^ 31) (hu : u.Within)
    (hrw : u.rw = .read) (ho : u.offset = o) (hn : u.resid = n) :
  wp (io p) (s, u)
    (fun _ su => su.1 = s
      ∧ Uio.Given u su.2 (s.readable p o n) (fun j => s.byteAt p (o + j))
      ∧ (s.readable p o n ≠ 0 → o + s.readable p o n ≤ 73216))
    (fun e su => su.1 = s
      ∧ (u.Reliable → e = .einval ∧ o < s.size p ∧ 73216 < o + s.readable p o n))
  := by
  have hend := hu.end_lt
  simp only [io, wp_bind]
  apply ioExtraresid_read hsize hu hrw ho hn
  · intro hle
    have hzero : s.readable p o n = 0 := by
      unfold Fs.readable
      omega
    simp only [wp_pure, hzero]
    exact ⟨trivial, hu.given_zero _, fun hne => absurd rfl hne⟩
  · intro x hlt hx
    set r := s.readable p o n with hr
    have hcut : (u.aim u.offset r).Within := by
      have hle := hu.resid_le
      refine ⟨⟨hu.space, ?_, hu.offset_nonneg, hu.offset_lt, ?_⟩, ?_⟩
      · change r ≤ u.iovLen
        omega
      · change u.offset + r ≤ 2 ^ 31
        omega
      · rw [Uio.aim_offset, Uio.aim_resid]
        omega
    have hread := ioTransfer_read h hok hcut (by rw [Uio.aim_rw]; apply hrw)
      (o := o) (by rw [Uio.aim_offset]; apply ho) (Uio.aim_resid _ _ _)
    have hback : ∀ {u' : Uio} {t : ℕ}, t ≤ r →
        Uio.Given (u.aim u.offset r) u' t (fun j => s.byteAt p (o + j)) →
        Uio.Given u (u'.aim u'.offset (u32 (u'.resid + x))) t (fun j => s.byteAt p (o + j)) := by
      intro u' t ht hgiven
      have hresid := hgiven.resid
      have hoff := hgiven.offset
      rw [Uio.aim_resid] at hresid
      rw [Uio.aim_offset] at hoff
      apply hgiven.aim
      · omega
      · rw [u32_of_lt (by omega)]
        omega
      · exact hoff
    simp only [wp_bind, wp_attempt]
    apply wp_mono hread
    · rintro - ⟨s', u'⟩ ⟨rfl, hgiven, hle⟩
      apply ioLength_read (hgiven.rw.trans hrw)
      simp only [wp_modify, wp_pure]
      exact ⟨trivial, hback (Nat.le_refl _) hgiven, hle⟩
    · rintro e ⟨s', u'⟩ ⟨rfl, ⟨t, ht, hgiven⟩, heinval⟩
      apply ioLength_read (hgiven.rw.trans hrw)
      simp only [wp_modify, wp_fail]
      refine ⟨trivial, ?_⟩
      intro hrel
      obtain ⟨rfl, hfar⟩ := heinval hrel
      exact ⟨rfl, hlt, hfar⟩

end Sfs
