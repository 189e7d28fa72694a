import AzureSpider.Sfs.Read

/-!
# Writing files

A write takes bytes from a region and puts them in a file, in the blocks that the file has or
is given.  `Wrote p s s' o t f` states that the first `t` bytes of `f` were put at the position
`o` of the file of `p`, and nothing else happened to a file.  A write that fails has put the
bytes before the failure.
-/

open Machine Routine

namespace Sfs

/-- The first `t` bytes of `f` are put at the position `o` of a file; its size is left. -/
structure Wrote (p : Ptr) (s s' : Fs) (o t : ℕ) (f : ℕ → UInt8) : Prop
    extends FileStep p s s' where
  size : s'.size p = s.size p
  bytes : ∀ pos,
    s'.byteAt p pos = if o ≤ pos ∧ pos < o + t then f (pos - o) else s.byteAt p pos
  mapped : ∀ k < 143, s.ptr p k ≠ 0 → s'.ptr p k = s.ptr p k
  /-- No file has more bytes. -/
  le : t ≠ 0 → o + t ≤ 73216

variable {p : Ptr} {s s' s'' : Fs} {u u' : Uio} {o n t t' k b : ℕ} {f : ℕ → UInt8}

theorem Grown.wrote (h : Grown p s s') (o : ℕ) (f : ℕ → UInt8) :
  Wrote p s s' o 0 f
  := by
  refine ⟨h.toFileStep, h.size, ?_, h.mapped, fun hne => absurd rfl hne⟩
  intro pos
  rw [if_neg (by omega), h.bytes]

theorem Wrote.trans (h : Wrote p s s' o t f) (h' : Wrote p s' s'' (o + t) t' (fun j => f (t + j))) :
  Wrote p s s'' o (t + t') f
  := by
  refine ⟨h.toFileStep.trans h'.toFileStep, h'.size.trans h.size, ?_, ?_, ?_⟩
  · intro pos
    rw [h'.bytes, h.bytes]
    by_cases hnew : o + t ≤ pos ∧ pos < o + t + t'
    · have heq : t + (pos - (o + t)) = pos - o := by omega
      rw [if_pos hnew, if_pos (by omega), heq]
    · rw [if_neg hnew]
      by_cases hold : o ≤ pos ∧ pos < o + t
      · rw [if_pos hold, if_pos (by omega)]
      · rw [if_neg hold, if_neg (by omega)]
  · intro k hk hne
    have heq := h.mapped k hk hne
    rw [← heq] at hne
    rw [h'.mapped k hk hne, heq]
  · intro hne
    have hle := h.le
    have hle' := h'.le
    omega

/-- A write into blocks that the file was given for it. -/
theorem Grown.trans_wrote (h : Grown p s s') (h' : Wrote p s' s'' o t f) :
  Wrote p s s'' o t f
  := by
  have h0 : Wrote p s' s'' (o + 0) t (fun j => f (0 + j)) := by simpa using h'
  have hsum := (h.wrote o f).trans h0
  rwa [Nat.zero_add] at hsum

theorem Wrote.congr {g : ℕ → UInt8} (h : Wrote p s s' o t f) (hfg : ∀ j < t, f j = g j) :
  Wrote p s s' o t g
  := by
  refine { h with bytes := ?_ }
  intro pos
  rw [h.bytes]
  by_cases hin : o ≤ pos ∧ pos < o + t
  · rw [if_pos hin, if_pos hin, hfg _ (by omega)]
  · rw [if_neg hin, if_neg hin]

/-- New contents of one of the blocks of a file. -/
theorem Wrote.block (h : s.Sound) (hok : s.FileOk p) (hk : k < 143) (hne : s.ptr p k ≠ 0)
    {j len : ℕ} (hj : j + len ≤ 512) {blk : Block}
    (hblk : ∀ l < 512, blk.get l
      = if j ≤ l ∧ l < j + len then f (l - j) else (s.disk (s.ptr p k)).get l) :
  Wrote p s (s.write (s.ptr p k) blk) (512 * k + j) len f
  := by
  have hptr : ∀ l, (s.write (s.ptr p k) blk).ptr p l = s.ptr p l := by
    intro l
    apply Inode.ptr_congr rfl rfl
    intro hid
    apply if_neg
    intro heq
    have hin := hok.ptr_inj (k := 143) hid heq
    omega
  have hcell : (s.write (s.ptr p k) blk).cell p = s.cell p := by
    funext l
    rw [Fs.cell_eq, Fs.cell_eq, hptr]
    rfl
  have hforeign : ∀ c, (s.write (s.ptr p k) blk).Foreign p c ↔ s.Foreign p c := by
    intro c
    rw [Fs.Foreign, hcell]
    rfl
  refine ⟨⟨SameVolume.write p s _ _, h.write _ _, ⟨?_, ?_, hok.ino_ne⟩, hforeign, ?_, ?_⟩, rfl,
    ?_, fun l _ _ => hptr l, fun _ => by omega⟩
  · rw [hcell]
    exact hok.account
  · rw [hcell]
    exact hok.lt
  · intro c hc
    exact if_neg (hc.ne_ptr hne)
  · exact if_neg (Ne.symm (hok.ptr_ne_ino k))
  · intro pos
    have hblock : ((s.write (s.ptr p k) blk).heap p).i.ptr (s.write (s.ptr p k) blk).disk
        (pos / 512) = s.ptr p (pos / 512) := hptr _
    by_cases heq : pos / 512 = k
    · have hne' : s.ptr p (pos / 512) ≠ 0 := by rwa [heq]
      rw [Fs.byteAt, Inode.byteAt_of_ptr_ne_zero (by omega) (hblock ▸ hne'), hblock, heq,
        Fs.disk_write, if_pos rfl, hblk _ (by omega), Fs.byteAt,
        Inode.byteAt_of_ptr_ne_zero (by omega) hne', heq]
      by_cases hin : j ≤ pos % 512 ∧ pos % 512 < j + len
      · have hsub : pos % 512 - j = pos - (512 * k + j) := by omega
        rw [if_pos hin, if_pos (by omega), hsub]
      · rw [if_neg hin, if_neg (by omega)]
        rfl
    · rw [if_neg (by omega)]
      exact Inode.byteAt_congr hblock fun _ hz => if_neg fun hsame => heq (hok.ptr_inj hz hsame)

/-! ### Blocks -/

/-- The bytes that a region holds, from its base on. -/
def dataOf (u : Uio) (j : ℕ) : UInt8 := u.mem (u.base + j)

/-- A write of `n` bytes at `o` that fails: some of the bytes are put, but none if they all go to
one block; and a block that no file has was asked for, or one that the file has not and the
volume is full, or the region is at fault. -/
structure WriteError (p : Ptr) (s : Fs) (u : Uio) (o n : ℕ) (e : Errno) (su : Fs × Uio) :
    Prop where
  wrote : ∃ t ≤ n, (o % 512 + n ≤ 512 → t = 0) ∧ Wrote p s su.1 o t (dataOf u)
    ∧ Uio.Taken u su.2 t
  cause : (e = .einval ∧ 73216 < o + n)
    ∨ (e = .enospc ∧ ∃ pos, o ≤ pos ∧ (pos < o + n ∨ pos = o) ∧ pos / 512 < 143
        ∧ s.ptr p (pos / 512) = 0)
    ∨ (e = .efault ∧ ¬ u.Reliable)

/-- The first part of a request can be transferred: the file can have its first block, and the
first copy from the region succeeds. -/
def Starts (s : Fs) (p : Ptr) (u : Uio) (o : ℕ) : Prop :=
  o / 512 < 143 ∧ s.Room p (o / 512) ∧ u.Copies

/-- Whether anything of a request was taken from the region when it fails. -/
def Fails (s : Fs) (p : Ptr) (u : Uio) (o : ℕ) (su : Fs × Uio) : Prop :=
  su.2.resid = u.resid ↔ ¬ Starts s p u o

/-- Two parts that are put one after the other. -/
theorem wrote_append (h : Wrote p s s' o t (dataOf u)) (hu : Uio.Taken u u' t)
    (h' : Wrote p s' s'' (o + t) t' (dataOf u')) :
  Wrote p s s'' o (t + t') (dataOf u)
  := by
  apply h.trans
  apply h'.congr
  intro j _
  rw [dataOf, dataOf, hu.mem, hu.base, Nat.add_assoc]

/-- A write that fails after a part was put. -/
theorem WriteError.append {m : ℕ} {e : Errno} {su : Fs × Uio}
    (h : Wrote p s s' o t (dataOf u)) (hu : Uio.Taken u u' t)
    (h' : WriteError p s' u' (o + t) m e su) (hn : t + m ≤ n) (hm : 0 < m ∨ t = 0)
    (hone : o % 512 + n ≤ 512 → t = 0) :
  WriteError p s u o n e su
  := by
  obtain ⟨t', ht', hone', hwrote, htaken⟩ := h'.wrote
  refine ⟨⟨t + t', by omega, ?_, wrote_append h hu hwrote, hu.trans htaken⟩, ?_⟩
  · intro hblk
    have ht := hone hblk
    omega
  rcases h'.cause with ⟨rfl, hfar⟩ | ⟨rfl, pos, hle, hlt, hk, hz⟩ | ⟨rfl, hr⟩
  · left
    exact ⟨rfl, by omega⟩
  · right
    left
    refine ⟨rfl, pos, by omega, by omega, hk, ?_⟩
    by_contra hne
    rw [h.mapped _ hk hne] at hz
    exact hne hz
  · right
    right
    exact ⟨rfl, fun hr' => hr (hu.reliable hr')⟩

/-- A write that fails before a byte is put. -/
theorem WriteError.of_grown {e : Errno} (hg : Grown p s s') (hu : Uio.Taken u u' 0)
    (hcause : (e = .einval ∧ 73216 < o + n)
      ∨ (e = .enospc ∧ o / 512 < 143 ∧ s.ptr p (o / 512) = 0)
      ∨ (e = .efault ∧ ¬ u.Reliable)) :
  WriteError p s u o n e (s', u')
  := by
  refine ⟨⟨0, Nat.zero_le n, fun _ => rfl, hg.wrote o _, hu⟩, ?_⟩
  rcases hcause with h | ⟨he, hk, hz⟩ | h
  · left
    exact h
  · right
    left
    exact ⟨he, o, Nat.le_refl o, .inr rfl, hk, hz⟩
  · right
    right
    exact h

/-- The block at an offset is asked for, which a file may not have. -/
theorem bmap_write (h : s.Sound) (hok : s.FileOk p) (hu : Uio.Taken u u 0)
    (hpos : o % 512 ≠ 0 ∨ 0 < n) {m : ℕ → IoRun Unit} {Q : Unit → Fs × Uio → Prop}
    (hm : ∀ b s₁, o / 512 < 143 → Bmapped p (o / 512) true s b s₁ → s.Room p (o / 512) →
      wp (m b) (s₁, u) Q (fun e su => WriteError p s u o n e su ∧ ¬ Starts s p u o)) :
  wp (bmap p (o / 512) true) s
    (fun b s₁ => wp (m b) (s₁, u) Q (fun e su => WriteError p s u o n e su ∧ ¬ Starts s p u o))
    (fun e s₁ => WriteError p s u o n e (s₁, u) ∧ ¬ Starts s p u o)
  := by
  by_cases hk : o / 512 < 143
  · apply wp_mono (bmap_mapped h hok hk true)
    · rintro b s₁ ⟨hb, hroom⟩
      exact hm b s₁ hk hb (hroom rfl)
    · rintro e s₁ ⟨rfl, -, hz, hgrown, hroom⟩
      exact ⟨WriteError.of_grown hgrown hu (.inr (.inl ⟨rfl, hk, hz⟩)),
        fun hstarts => hroom hstarts.2.1⟩
  · apply bmap_einval (by omega)
    exact ⟨WriteError.of_grown (Grown.refl h hok) hu (.inl ⟨rfl, by omega⟩),
      fun hstarts => hk hstarts.1⟩

/-- The block that a file has, or is given, for a write. -/
theorem Bmapped.given (h : Bmapped p k true s b s') :
  b ≠ 0 ∧ b < s'.nblocks ∧ s'.ptr p k ≠ 0
  := by
  have hb0 := h.alloc rfl
  rw [← h.block]
  refine ⟨hb0, ?_, hb0⟩
  rw [h.block]
  apply h.ok.ptr_lt

/-- The region after bytes of it were put at its offset. -/
theorem Wrote.region (h : Wrote p s s' o t f) (htaken : Uio.Taken u u' t) (hu : u.Ahead)
    (ho : u.offset = o) :
  u'.Ahead ∧ u'.offset = ((o + t : ℕ) : ℤ)
  := by
  have hlt := hu.offset_lt
  have hend : u.offset + t < 2 ^ 31 := by
    by_cases ht : t = 0
    · omega
    · have hle := h.le ht
      omega
  refine ⟨htaken.ahead hu hend, ?_⟩
  rw [htaken.offset_of_lt hu hend]
  omega

theorem partialio_write (h : s.Sound) (hok : s.FileOk p) (hu : u.Ahead)
    (hrw : u.rw = .write) (ho : u.offset = o) {len : ℕ} (hlen : len ≤ u.resid)
    (hblk : o % 512 + len ≤ 512) (hpos : o % 512 ≠ 0 ∨ 0 < len) :
  wp (partialio p (o % 512) len) (s, u)
    (fun _ su => Wrote p s su.1 o len (dataOf u) ∧ Uio.Taken u su.2 len
      ∧ (0 < len → Starts s p u o))
    (fun e su => WriteError p s u o len e su ∧ ¬ Starts s p u o)
  := by
  have hfile := fileblock_eq hu ho
  simp only [partialio, wp_bind, wp_get, wp_assert, wp_onFst, hfile, hrw, decide_true, if_true]
  refine ⟨by rw [u32_of_lt (by omega)]; omega, ?_⟩
  apply bmap_write h hok hu.taken_zero hpos
  intro b s₁ hk hb hroom
  obtain ⟨hb0, hlt, hptr0⟩ := hb.given
  have hblock := hb.block
  simp only [wp_ite, wp_bind, wp_onFst, wp_onSnd]
  refine ⟨fun hz => absurd hz hb0, fun _ => ?_⟩
  apply wp_sure (rblock_spec hb.sound.serves hlt)
  rintro blk s₂ ⟨rfl, rfl⟩
  apply wp_mono (Uio.uiomove_write (s₂.disk b) (o % 512) hu.toBacked hlen hrw)
  · rintro buf u' ⟨htaken, rfl, hcopies⟩
    apply wp_sure (wblock_spec hb.sound.serves hlt _)
    rintro - s₃ rfl
    refine ⟨?_, htaken, fun hpos => ⟨hk, hroom, hcopies hpos⟩⟩
    apply hb.toGrown.trans_wrote
    have hfetched : ∀ l < 512, (Uio.fetched u.mem u.base len (s₂.disk b) (o % 512)).get l
          = if o % 512 ≤ l ∧ l < o % 512 + len then dataOf u (l - o % 512)
            else (s₂.disk (s₂.ptr p (o / 512))).get l := by
      intro l hl
      rw [Uio.fetched, Buf.get_ofFn _ hl, ← hblock]
      rfl
    have hwrote := Wrote.block hb.sound hb.ok hk hptr0 hblk hfetched
    have hsum : 512 * (o / 512) + o % 512 = o := by omega
    rw [hsum, ← hblock] at hwrote
    exact hwrote
  · rintro e u' ⟨rfl, hnot, htaken⟩
    exact ⟨WriteError.of_grown hb.toGrown htaken (.inr (.inr ⟨rfl, fun hr => hnot hr.copies⟩)),
      fun hstarts => hnot hstarts.2.2⟩

/-- A whole block that is mapped is written. -/
theorem blockioDisk_write (h : s.Sound) (hu : u.Ahead) (hrw : u.rw = .write)
    (hb : b < s.nblocks) (hresid : 512 ≤ u.resid) :
  wp (blockioDisk b) (s, u)
    (fun _ su => su.1 = s.write b (Buf.ofFn (dataOf u)) ∧ Uio.Taken u su.2 512 ∧ u.Copies)
    (fun e su => e = .efault ∧ su.1 = s ∧ Uio.Taken u su.2 0 ∧ ¬ u.Copies)
  := by
  obtain ⟨hready, hoff, hone⟩ := diskRegion_ready h hu.toBacked hb hresid
  have hrw' : (diskRegion u b).rw = .write := by
    rw [diskRegion, Uio.aim_rw]
    apply hrw
  have hcopies : (diskRegion u b).Copies ↔ u.Copies := by
    rw [diskRegion, Uio.aim_copies]
  simp only [blockioDisk, wp_bind, wp_get, wp_assert, wp_modify, wp_attempt]
  refine ⟨hresid, ?_⟩
  apply wp_mono (rwblock_write h.serves hb hready hrw' hoff hone)
  · rintro - ⟨s', u'⟩ ⟨rfl, htaken, hcopied⟩
    obtain ⟨hle, hres, hback⟩ := fileRegion_eq hu.toBacked hresid htaken.toAfter
    simp only [wp_pure]
    refine ⟨?_, htaken.aim hle hres hback, hcopies.mp hcopied⟩
    rw [diskRegion, Uio.aim_mem, Uio.aim_base]
    rfl
  · rintro e ⟨s', u'⟩ ⟨rfl, hnot, rfl, htaken⟩
    obtain ⟨hle, hres, hback⟩ := fileRegion_eq hu.toBacked hresid htaken.toAfter
    simp only [wp_fail]
    exact ⟨trivial, trivial, htaken.aim hle hres hback, mt hcopies.mpr hnot⟩

theorem blockio_write (h : s.Sound) (hok : s.FileOk p) (hu : u.Ahead) (hrw : u.rw = .write)
    (ho : u.offset = o) (hresid : 512 ≤ u.resid) (haligned : o % 512 = 0) :
  wp (blockio p) (s, u)
    (fun _ su => Wrote p s su.1 o 512 (dataOf u) ∧ Uio.Taken u su.2 512
      ∧ (0 < 512 → Starts s p u o))
    (fun e su => WriteError p s u o 512 e su ∧ ¬ Starts s p u o)
  := by
  have hfile := fileblock_eq hu ho
  simp only [blockio, wp_bind, wp_get, wp_onFst, hfile, hrw, decide_true]
  apply bmap_write h hok hu.taken_zero (.inr (by decide))
  intro b s₁ hk hb hroom
  obtain ⟨hb0, hlt, hptr0⟩ := hb.given
  have hblock := hb.block
  rw [if_neg hb0]
  apply wp_mono (blockioDisk_write hb.sound hu hrw hlt hresid)
  · rintro - ⟨s₂, u'⟩ ⟨rfl, htaken, hcopies⟩
    refine ⟨?_, htaken, fun _ => ⟨hk, hroom, hcopies⟩⟩
    apply hb.toGrown.trans_wrote
    have hwhole : ∀ l < 512, (Buf.ofFn (dataOf u) : Block).get l
        = if 0 ≤ l ∧ l < 0 + 512 then dataOf u (l - 0)
          else (s₁.disk (s₁.ptr p (o / 512))).get l := by
      intro l hl
      rw [Buf.get_ofFn _ hl, if_pos (by omega), Nat.sub_zero]
    have hwrote := Wrote.block hb.sound hb.ok hk hptr0 (Nat.le_refl _) hwhole
    have hsum : 512 * (o / 512) + 0 = o := by omega
    rw [hsum, ← hblock] at hwrote
    exact hwrote
  · rintro e ⟨s₂, u'⟩ ⟨rfl, rfl, htaken, hnot⟩
    exact ⟨WriteError.of_grown hb.toGrown htaken (.inr (.inr ⟨rfl, fun hr => hnot hr.copies⟩)),
      fun hstarts => hnot hstarts.2.2⟩

/-! ### Requests -/

/-- The first `t` bytes of a request are written; the first part of it decides whether it starts. -/
def Begun (p : Ptr) (s : Fs) (u : Uio) (o n t : ℕ) (su : Fs × Uio) : Prop :=
  Wrote p s su.1 o t (dataOf u) ∧ Uio.Taken u su.2 t ∧ (t = 0 → 0 < n → su = (s, u))
    ∧ (t ≠ 0 → Starts s p u o)

/-- A part of a request is written behind the parts before it. -/
theorem Begun.part {su : Fs × Uio} {m : ℕ} {run : IoRun Unit} (hbegun : Begun p s u o n t su)
    (h : wp run su
      (fun _ su' => Wrote p su.1 su'.1 (o + t) m (dataOf su.2) ∧ Uio.Taken su.2 su'.2 m
        ∧ (0 < m → Starts su.1 p su.2 (o + t)))
      (fun e su' => WriteError p su.1 su.2 (o + t) m e su' ∧ ¬ Starts su.1 p su.2 (o + t)))
    (hfit : t + m ≤ n) (hm : 0 < m ∨ n = 0) (hblk : (o + t) % 512 + m ≤ 512)
    (hone : o % 512 + n ≤ 512 → t = 0) :
  wp run su (fun _ su' => Begun p s u o n (t + m) su')
    (fun e su' => WriteError p s u o n e su' ∧ (0 < n → Fails s p u o su'))
  := by
  obtain ⟨hwrote, htaken, hfirst, hsucc⟩ := hbegun
  apply wp_mono h
  · rintro - su' ⟨hwrote', htaken', hstarts⟩
    refine ⟨wrote_append hwrote htaken hwrote', htaken.trans htaken', by omega, fun hne => ?_⟩
    by_cases ht : t = 0
    · subst ht
      obtain rfl := hfirst rfl (by omega)
      exact hstarts (by omega)
    · exact hsucc ht
  · rintro e su' ⟨herr, hnot⟩
    refine ⟨herr.append hwrote htaken hfit (by omega) hone, fun hpos => ?_⟩
    obtain ⟨t', -, hzero, -, htaken'⟩ := herr.wrote
    have hresid := htaken.resid
    have hresid' := htaken'.resid
    have ht' := hzero hblk
    by_cases ht : t = 0
    · subst ht
      obtain rfl := hfirst rfl hpos
      exact iff_of_true (by omega) hnot
    · exact iff_of_false (by omega) (not_not.mpr (hsucc ht))

theorem ioTransfer_write (h : s.Sound) (hok : s.FileOk p) (hu : u.Ahead)
    (hrw : u.rw = .write) (ho : u.offset = o) (hn : u.resid = n) :
  wp (ioTransfer p) (s, u) (fun _ su => Begun p s u o n n su)
    (fun e su => WriteError p s u o n e su ∧ (0 < n → Fails s p u o su))
  := by
  have hparts : Parts p o n (Begun p s u o n)
      (fun e su => WriteError p s u o n e su ∧ (0 < n → Fails s p u o su)) := by
    constructor
    · rintro t su ⟨hwrote, htaken, -⟩ _
      have hresid := htaken.resid
      exact ⟨by omega, (hwrote.region htaken hu ho).2⟩
    · intro t su len hbegun hfit hblk hlen hat
      have hwrote := hbegun.1
      have htaken := hbegun.2.1
      have hresid := htaken.resid
      obtain ⟨hu', ho'⟩ := hwrote.region htaken hu ho
      apply hbegun.part _ hfit hlen hblk (by omega)
      exact partialio_write hwrote.sound hwrote.ok hu' (htaken.rw.trans hrw) ho' (by omega) hblk
        (by omega)
    · intro t su hbegun hfit haligned
      have hwrote := hbegun.1
      have htaken := hbegun.2.1
      have hresid := htaken.resid
      obtain ⟨hu', ho'⟩ := hwrote.region htaken hu ho
      apply hbegun.part _ hfit (by omega) (by omega) (by omega)
      exact blockio_write hwrote.sound hwrote.ok hu' (htaken.rw.trans hrw) ho' (by omega) haligned
  exact hparts.transfer
    ⟨(Grown.refl h hok).wrote o _, hu.taken_zero, fun _ _ => rfl, fun hne => absurd rfl hne⟩

/-! ### The length -/

theorem FileStep.setSize (h : s.Sound) (hok : s.FileOk p) (x : UInt32) :
  FileStep p s (s.updateInode p fun i => i.setSize x)
    ∧ (∀ k, (s.updateInode p fun i => i.setSize x).ptr p k = s.ptr p k)
    ∧ (∀ pos, (s.updateInode p fun i => i.setSize x).byteAt p pos = s.byteAt p pos)
    ∧ (s.updateInode p fun i => i.setSize x).size p = x.toNat
  := by
  have hheap : ((s.updateInode p fun i => i.setSize x).heap p).i = (s.heap p).i.setSize x := by
    rw [Fs.updateInode, Fs.heap_update_self]
  have hptr : ∀ k, (s.updateInode p fun i => i.setSize x).ptr p k = s.ptr p k := by
    intro k
    rw [Fs.ptr, hheap]
    apply Inode.ptr_congr rfl rfl
    intro _
    rfl
  have hsame : SameVolume p s (s.updateInode p fun i => i.setSize x) :=
    SameVolume.updateInode p s (fun _ => rfl) (fun _ => rfl)
  have hcell : (s.updateInode p fun i => i.setSize x).cell p = s.cell p := by
    funext l
    rw [Fs.cell_eq, Fs.cell_eq, hptr, hsame.kept.ino]
  refine ⟨⟨hsame, h.update p _, ⟨?_, ?_, ?_⟩, ?_, fun _ _ => rfl, rfl⟩, hptr, ?_, ?_⟩
  · rw [hcell]
    exact hok.account
  · rw [hcell]
    exact hok.lt
  · rw [hsame.kept.ino]
    exact hok.ino_ne
  · intro c
    rw [Fs.Foreign, hcell]
    rfl
  · intro pos
    rw [Fs.byteAt, hheap]
    apply Inode.byteAt_congr
    · have hk := hptr (pos / 512)
      rw [Fs.ptr, hheap] at hk
      exact hk
    · intro _ _
      rfl
  · rw [Fs.size, hheap]
    rfl

/-- The first `t` bytes of `f` are put at the position `o` of a file, which grows to hold
them. -/
structure Written (p : Ptr) (s s' : Fs) (o t : ℕ) (f : ℕ → UInt8) : Prop
    extends FileStep p s s' where
  size : s'.size p = max (s.size p) (o + t)
  bytes : ∀ pos,
    s'.byteAt p pos = if o ≤ pos ∧ pos < o + t then f (pos - o) else s.byteAt p pos
  mapped : ∀ k < 143, s.ptr p k ≠ 0 → s'.ptr p k = s.ptr p k
  /-- No file has more bytes. -/
  le : t ≠ 0 → o + t ≤ 73216

/-- The length of a file is adjusted after a write. -/
theorem ioLength_write (hsize : s.size p < 2 ^ 31) (hrw : u'.rw = .write)
    (hoff : u'.offset = ((o + t : ℕ) : ℤ)) (hend : o + t < 2 ^ 31) (hwrote : Wrote p s s' o t f)
    (hQ : ∀ s'', Written p s s'' o t f → Q () (s'', u')) :
  wp (ioLength p) (s', u') Q E
  := by
  have hsize' : i32 ((s'.heap p).i.size.toNat : ℤ) = s.size p := by
    have hsame : (s'.heap p).i.size.toNat = s.size p := hwrote.size
    rw [hsame]
    apply i32_of_mem
    · omega
    · exact_mod_cast hsize
  have hnat : toU32 u'.offset = o + t := by
    rw [hoff]
    unfold toU32
    omega
  simp only [ioLength, wp_bind, wp_get, wp_ite, wp_modify, wp_pure, hsize', hnat]
  constructor
  · rintro ⟨-, hlt⟩
    obtain ⟨hstep, hptr, hbytes, hset⟩ :=
      FileStep.setSize hwrote.sound hwrote.ok (UInt32.ofNat (o + t))
    apply hQ
    refine ⟨hwrote.toFileStep.trans hstep, ?_, ?_, ?_, hwrote.le⟩
    · rw [hset, UInt32.toNat_ofNat']
      omega
    · intro pos
      rw [hbytes, hwrote.bytes]
    · intro k hk hne
      rw [hptr, hwrote.mapped k hk hne]
  · intro hnot
    apply hQ
    refine { hwrote with size := ?_ }
    have hle : ¬ (s.size p : ℤ) < u'.offset := fun hlt => hnot ⟨hrw, hlt⟩
    rw [hwrote.size]
    omega

/-- `sfs_io` for a write: all bytes are put, or the ones before the failure, which are none if
the bytes all go to one block, or if the request does not start. -/
theorem io_write (h : s.Sound) (hok : s.FileOk p) (hsize : s.size p < 2 ^ 31) (hu : u.Ahead)
    (hrw : u.rw = .write) (ho : u.offset = o) (hn : u.resid = n) :
  wp (io p) (s, u)
    (fun _ su => Written p s su.1 o n (dataOf u) ∧ Uio.Taken u su.2 n ∧ (0 < n → Starts s p u o))
    (fun e su => (∃ t ≤ n, (o % 512 + n ≤ 512 → t = 0) ∧ Written p s su.1 o t (dataOf u)
      ∧ Uio.Taken u su.2 t
      ∧ ((e = .einval ∧ 73216 < o + n)
        ∨ (e = .enospc ∧ ∃ pos, o ≤ pos ∧ (pos < o + n ∨ pos = o) ∧ pos / 512 < 143
            ∧ s.ptr p (pos / 512) = 0)
        ∨ (e = .efault ∧ ¬ u.Reliable)))
      ∧ (0 < n → Fails s p u o su))
  := by
  have hlt := hu.resid_lt
  have hr : ¬ u.rw = .read := by
    rw [hrw]
    decide
  -- the residue is put back as it is
  have hresid : ∀ {u' : Uio} {t : ℕ}, t ≤ n → Uio.Taken u u' t →
      u'.aim u'.offset (u32 (u'.resid + 0)) = u' := by
    intro u' t ht htaken
    have hres := htaken.resid
    rw [Nat.add_zero, u32_of_lt (by omega)]
    rfl
  simp only [io, ioExtraresid, wp_bind, wp_get, if_neg hr, wp_pure, wp_attempt]
  apply wp_mono (ioTransfer_write h hok hu hrw ho hn)
  · rintro - ⟨s', u'⟩ ⟨hwrote, htaken, -, hstarts⟩
    obtain ⟨hu', ho'⟩ := hwrote.region htaken hu ho
    have hend := hu'.offset_lt
    apply ioLength_write hsize (htaken.rw.trans hrw) ho' (by omega) hwrote
    intro s'' hwritten
    simp only [wp_modify, hresid (Nat.le_refl n) htaken]
    exact ⟨hwritten, htaken, fun hpos => hstarts (Nat.ne_of_gt hpos)⟩
  · rintro e ⟨s', u'⟩ ⟨⟨⟨t, ht, hone, hwrote, htaken⟩, hcause⟩, hfails⟩
    obtain ⟨hu', ho'⟩ := hwrote.region htaken hu ho
    have hend := hu'.offset_lt
    apply ioLength_write hsize (htaken.rw.trans hrw) ho' (by omega) hwrote
    intro s'' hwritten
    simp only [wp_modify, wp_fail, hresid ht htaken]
    exact ⟨⟨t, ht, hone, hwritten, htaken, hcause⟩, hfails⟩

end Sfs
