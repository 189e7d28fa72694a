import AzureSpider.Dev.Lhd

/-!
# The sectors that `lhd_io` addresses

`lhd_io` as in `Lhd`, with the register `LHD_REG_SECT` of the card: every number that is written to
it is kept.  The kernel may panic in a transfer; here that is one more way for `lhd_io` to stop, so
that what the card has been told is known in that case too.

The check for the end of the disk is made on a sum of 32-bit numbers.  For an offset that is not
negative the sum is exact.  A negative offset is a sector near `2 ^ 32`, and a request that is long
enough passes the check (`passes_iff`).
-/

open Machine Routine

/-- How `lhd_io` stops before its end. -/
inductive LhdStop where
  | error (e : Errno)
  | panicked (p : FsPanic)
  deriving DecidableEq, Repr

/-- A disk and what has been written to its register `LHD_REG_SECT`, the last number first. -/
structure Card where
  lhd : Lhd
  sects : List ℕ

namespace Card

/-- A routine on a card and a region. -/
abbrev Run (α : Type) : Type := Routine LhdStop Empty (Card × Uio) α

/-- A routine on the disk. -/
def onDisk {α : Type} (m : Lhd.Run α) : Run α := fun cu =>
  match m cu.1.lhd with
  | .ok a d => .ok a ({ cu.1 with lhd := d }, cu.2)
  | .err e d => .err (.error e) ({ cu.1 with lhd := d }, cu.2)
  | .panic p => .err (.panicked p) cu

/-- A routine on the region. -/
def onUio {α : Type} (m : Uio.Run α) : Run α := fun cu =>
  match m cu.2 with
  | .ok a u => .ok a (cu.1, u)
  | .err e u => .err (.error e) (cu.1, u)
  | .panic p => .err (.panicked p) cu

/-- `lhd_wreg(lh, LHD_REG_SECT, sector)`. -/
def wregSect (sector : ℕ) : Run Unit :=
  modify fun cu => ({ cu.1 with sects := sector :: cu.1.sects }, cu.2)

/-- One round of the loop of `lhd_io`. -/
def transferSector (rw : UioRw) (sector : ℕ) : Run Unit :=
  if rw = .write then do
    let buf ← onUio (Uio.uiomove (Buf.ofFn fun _ => 0) 0 512)
    wregSect sector
    onDisk (Lhd.writeSector sector buf)
  else do
    wregSect sector
    let buf ← onDisk (Lhd.readSector sector)
    let _ ← onUio (Uio.uiomove buf 0 512)
    pure ()

/-- `lhd_io`. -/
def io : Run Unit := do
  let cu ← get
  let sector := toU32 (cu.2.offset.tdiv 512)
  let sectoff := toU32 (cu.2.offset.tmod 512)
  let len := cu.2.resid / 512
  let lenoff := cu.2.resid % 512
  if sectoff ≠ 0 ∨ lenoff ≠ 0 then fail (.error .einval)
  else if u32 (sector + len) > cu.1.lhd.dBlocks then fail (.error .einval)
  else loop len 0 (fun i _ => transferSector cu.2.rw (u32 (sector + i))) ()

/-! ### The same `lhd_io` -/

section Shed

variable {α β : Type}

/-- An outcome without the register. -/
def shed : Outcome LhdStop Empty (Card × Uio) α → Outcome Errno FsPanic (Lhd × Uio) α
  | .ok a cu => .ok a (cu.1.lhd, cu.2)
  | .err (.error e) cu => .err e (cu.1.lhd, cu.2)
  | .err (.panicked p) _ => .panic p
  | .panic p => p.elim

/-- Without the register, the first routine is the second. -/
def Sheds (m : Run α) (m' : Routine Errno FsPanic (Lhd × Uio) α) : Prop :=
  ∀ cu, shed (m cu) = m' (cu.1.lhd, cu.2)

theorem sheds_pure (a : α) :
  Sheds (pure a) (pure a)
  := fun _ => rfl

theorem sheds_onDisk (m : Lhd.Run α) :
  Sheds (onDisk m) (onFst m)
  := by
  intro cu
  simp only [onDisk, onFst, zoom]
  cases m cu.1.lhd with
  | ok | err | panic => rfl

theorem sheds_onUio (m : Uio.Run α) :
  Sheds (onUio m) (onSnd m)
  := by
  intro cu
  simp only [onUio, onSnd, zoom]
  cases m cu.2 with
  | ok | err | panic => rfl

theorem Sheds.bind (hm : Sheds m m') (hf : ∀ a, Sheds (f a) (f' a)) :
  Sheds (m >>= f) (m' >>= f')
  := by
  intro cu
  have hfirst := hm cu
  cases hrun : m cu with
  | ok a cu' =>
    rw [hrun] at hfirst
    rw [bind_ok hrun, bind_ok hfirst.symm]
    exact hf a cu'
  | err stop cu' =>
    rw [hrun] at hfirst
    rw [bind_err hrun]
    cases stop with
    | error e =>
      rw [bind_err hfirst.symm]
      rfl
    | panicked p =>
      rw [bind_panic hfirst.symm]
      rfl
  | panic p => exact p.elim

/-- The write to the register is all that is lost. -/
theorem Sheds.wregSect (h : Sheds m m') (sector : ℕ) :
  Sheds (do
    wregSect sector
    m) m'
  := by
  intro cu
  exact h _

theorem Sheds.loop {body : ℕ → β → Run β} {body' : ℕ → β → Routine Errno FsPanic (Lhd × Uio) β}
    (h : ∀ i b, Sheds (body i b) (body' i b)) (n i : ℕ) (b : β) :
  Sheds (loop n i body b) (loop n i body' b)
  := by
  induction n generalizing i b with
  | zero => exact sheds_pure b
  | succ n ih =>
    rw [loop_succ, loop_succ]
    apply Sheds.bind (h i b)
    intro b'
    apply ih

theorem transferSector_sheds (rw : UioRw) (sector : ℕ) :
  Sheds (transferSector rw sector)
    (if rw = .write then do
      let buf ← onSnd (Uio.uiomove (Buf.ofFn fun _ => 0) 0 512)
      onFst (Lhd.writeSector sector buf)
    else do
      let buf ← onFst (Lhd.readSector sector)
      let _ ← onSnd (Uio.uiomove buf 0 512)
      pure ())
  := by
  simp only [transferSector]
  split
  · apply Sheds.bind (sheds_onUio _)
    intro buf
    exact (sheds_onDisk _).wregSect _
  · apply Sheds.wregSect
    apply Sheds.bind (sheds_onDisk _)
    intro buf
    apply Sheds.bind (sheds_onUio _)
    intro _
    apply sheds_pure

/-- Without the register, this is the `lhd_io` of `Lhd`. -/
theorem io_sheds :
  Sheds io Lhd.io
  := by
  intro cu
  simp only [io, Lhd.io, get_bind]
  by_cases halign : toU32 (cu.2.offset.tmod 512) ≠ 0 ∨ cu.2.resid % 512 ≠ 0
  · rw [if_pos halign, if_pos halign]
    rfl
  rw [if_neg halign, if_neg halign]
  by_cases hend : u32 (toU32 (cu.2.offset.tdiv 512) + cu.2.resid / 512) > cu.1.lhd.dBlocks
  · rw [if_pos hend, if_pos hend]
    rfl
  rw [if_neg hend, if_neg hend]
  apply Sheds.loop
  intro i _
  apply transferSector_sheds

end Shed

/-! ### The check -/

section Check

variable {c : Card} {u : Uio}

/-- The request passes the checks of `lhd_io`. -/
def Passes (c : Card) (u : Uio) : Prop :=
  512 ∣ u.offset ∧ 512 ∣ u.resid ∧ (u.offset + u.resid) % 2 ^ 41 ≤ 512 * c.lhd.dBlocks

theorem sectoff_eq_zero_iff (x : ℤ) :
  toU32 (x.tmod 512) = 0 ↔ 512 ∣ x
  := by
  rw [Int.dvd_iff_tmod_eq_zero]
  have hhigh : x.tmod 512 < 512 := Int.tmod_lt_of_pos x (by decide)
  have hlow : (-x).tmod 512 < 512 := Int.tmod_lt_of_pos (-x) (by decide)
  rw [Int.neg_tmod] at hlow
  unfold toU32
  omega

/-- The sum that is compared with the number of sectors. -/
theorem end_eq {q : ℤ} {l : ℕ} (hoffset : u.offset = 512 * q) (hresid : u.resid = 512 * l) :
  (512 * u32 (toU32 (u.offset.tdiv 512) + u.resid / 512) : ℤ) = (u.offset + u.resid) % 2 ^ 41
  := by
  have hq : u.offset.tdiv 512 = q := by
    rw [hoffset]
    exact Int.mul_tdiv_cancel_left q (by decide)
  have hl : u.resid / 512 = l := by
    rw [hresid]
    exact Nat.mul_div_cancel_left l (by decide)
  rw [hq, hl, hoffset, hresid]
  unfold toU32 u32
  omega

/-- A request that does not pass is refused. -/
theorem io_refused (h : ¬ Passes c u) :
  io (c, u) = .err (.error .einval) (c, u)
  := by
  simp only [io, get_bind]
  by_cases halign : toU32 (u.offset.tmod 512) ≠ 0 ∨ u.resid % 512 ≠ 0
  · rw [if_pos halign]
    rfl
  rw [if_neg halign]
  rw [not_or, not_not, not_not, sectoff_eq_zero_iff] at halign
  obtain ⟨⟨q, hq⟩, hresid⟩ := halign
  obtain ⟨l, hl⟩ := Nat.dvd_of_mod_eq_zero hresid
  have hend : u32 (toU32 (u.offset.tdiv 512) + u.resid / 512) > c.lhd.dBlocks := by
    by_contra hle
    apply h
    refine ⟨⟨q, hq⟩, ⟨l, hl⟩, ?_⟩
    rw [← end_eq hq hl]
    omega
  rw [if_pos hend]
  rfl

/-- The rounds of a request that passes. -/
theorem io_passed (h : Passes c u) :
  io (c, u)
    = loop (u.resid / 512) 0
      (fun i _ => transferSector u.rw (u32 (toU32 (u.offset.tdiv 512) + i))) () (c, u)
  := by
  obtain ⟨⟨q, hq⟩, ⟨l, hl⟩, hle⟩ := h
  have halign : ¬ (toU32 (u.offset.tmod 512) ≠ 0 ∨ u.resid % 512 ≠ 0) := by
    rw [not_or, not_not, not_not, sectoff_eq_zero_iff]
    exact ⟨⟨q, hq⟩, Nat.mod_eq_zero_of_dvd ⟨l, hl⟩⟩
  have hend : ¬ u32 (toU32 (u.offset.tdiv 512) + u.resid / 512) > c.lhd.dBlocks := by
    rw [← end_eq hq hl] at hle
    omega
  simp only [io, get_bind]
  rw [if_neg halign, if_neg hend]

end Check

/-! ### The rounds -/

section Rounds

variable {α : Type} {cu : Card × Uio}

/-- A routine on the region does not change the card. -/
theorem wp_onUio (h : wlp (fun _ => True) m cu.2 (fun a u => Q a (cu.1, u)) E')
    (herr : ∀ e u, E' e u → E (.error e) (cu.1, u)) (hpanic : ∀ p, E (.panicked p) cu) :
  wp (onUio m) cu Q E
  := by
  cases hrun : m cu.2 with
  | ok a u =>
    have heq : onUio m cu = .ok a (cu.1, u) := by simp only [onUio, hrun]
    have hok := wlp_ok h hrun
    exact wp_of_ok heq hok
  | err e u =>
    have heq : onUio m cu = .err (.error e) (cu.1, u) := by simp only [onUio, hrun]
    exact wp_of_err heq (herr e u (wlp_err h hrun))
  | panic p =>
    have heq : onUio m cu = .err (.panicked p) cu := by simp only [onUio, hrun]
    exact wp_of_err heq (hpanic p)

/-- An operation of the disk writes no number to the register. -/
theorem wp_onDisk (hok : ∀ a d, Q a ({ cu.1 with lhd := d }, cu.2))
    (herr : ∀ e d, E (.error e) ({ cu.1 with lhd := d }, cu.2)) (hpanic : ∀ p, E (.panicked p) cu) :
  wp (onDisk m) cu Q E
  := by
  cases hrun : m cu.1.lhd with
  | ok a d =>
    have heq : onDisk m cu = .ok a ({ cu.1 with lhd := d }, cu.2) := by
      simp only [onDisk, hrun]
    exact wp_of_ok heq (hok a d)
  | err e d =>
    have heq : onDisk m cu = .err (.error e) ({ cu.1 with lhd := d }, cu.2) := by
      simp only [onDisk, hrun]
    exact wp_of_err heq (herr e d)
  | panic p =>
    have heq : onDisk m cu = .err (.panicked p) cu := by simp only [onDisk, hrun]
    exact wp_of_err heq (hpanic p)

/-- What a round does to the register: it is written once, unless the data cannot be taken from
the region. -/
theorem transferSector_spec (rw : UioRw) (sector : ℕ) (cu : Card × Uio) :
  wp (transferSector rw sector) cu
    (fun _ cu' => cu'.1.sects = sector :: cu.1.sects)
    (fun stop cu' => cu'.1.sects = sector :: cu.1.sects
      ∨ cu'.1.sects = cu.1.sects ∧ stop ≠ .error .einval)
  := by
  simp only [transferSector]
  split
  · rw [wp_bind]
    apply wp_onUio (wlp_mono (Uio.uiomove_efault _ 0 512 cu.2) _ (fun _ _ h => h))
    · rintro e u rfl
      right
      exact ⟨rfl, by simp⟩
    · intro p
      right
      exact ⟨rfl, by simp⟩
    · intro buf u _
      simp only [wregSect, wp_bind, wp_modify]
      apply wp_onDisk
      · intro _ d
        rfl
      · intro e d
        exact .inl rfl
      · intro p
        exact .inl rfl
  · simp only [wregSect, wp_bind, wp_modify, wp_pure]
    apply wp_onDisk
    · intro buf d
      apply wp_onUio (wlp_mono (Uio.uiomove_efault buf 0 512 _) _ (fun _ _ h => h))
      · intro e u _
        exact .inl rfl
      · intro p
        exact .inl rfl
      · intro _ u _
        rfl
    · intro e d
      exact .inl rfl
    · intro p
      exact .inl rfl

end Rounds

/-! ### Requests -/

section Requests

variable {c : Card} {u : Uio}

/-- Every number that has been written to the register since is the number of a sector. -/
def Addressed (c c' : Card) : Prop := ∀ n ∈ c'.sects, n ∈ c.sects ∨ n < c.lhd.dBlocks

/-- A request that is not for whole sectors, is for a negative offset or extends past the end. -/
def Improper (c : Card) (u : Uio) : Prop :=
  ¬ 512 ∣ u.offset ∨ ¬ 512 ∣ u.resid ∨ u.offset < 0 ∨ 512 * (c.lhd.dBlocks : ℤ) < u.offset + u.resid

/-- `lhd_io` addresses sectors of the disk only, and refuses improper requests before it does
anything. -/
def Contained (c : Card) (u : Uio) : Prop :=
  wp io (c, u) (fun _ cu => Addressed c cu.1) (fun _ cu => Addressed c cu.1)
    ∧ (Improper c u → io (c, u) = .err (.error .einval) (c, u))

/-- A request that is refused addresses nothing. -/
theorem contained_of_refused (h : ¬ Passes c u) :
  Contained c u
  := by
  have hrun := io_refused h
  constructor
  · apply wp_of_err hrun
    intro n hn
    exact .inl hn
  · intro _
    exact hrun

/-- A request that passes for an offset that is not negative addresses sectors of the disk. -/
theorem contained_of_nonneg (h : Passes c u) (hpos : 0 ≤ u.offset) (hlt : u.offset < 2 ^ 31)
    (hresid : u.resid < 2 ^ 32) :
  Contained c u
  := by
  have hrun := io_passed h
  obtain ⟨⟨q, hq⟩, ⟨l, hl⟩, hle⟩ := h
  constructor
  · apply wp_of_eq hrun
    -- the rounds write the numbers from the first sector on
    apply wp_loop_run (fun _ _ (cu : Card × Uio) => Addressed c cu.1)
    · intro n hn
      exact .inl hn
    · intro i _ cu hi hcu
      have hsector : u32 (toU32 (u.offset.tdiv 512) + i) < c.lhd.dBlocks := by
        have htdiv : u.offset.tdiv 512 = q := by
          rw [hq]
          exact Int.mul_tdiv_cancel_left q (by decide)
        rw [htdiv]
        unfold toU32 u32
        omega
      have hnext : ∀ {cu' : Card × Uio},
          cu'.1.sects = u32 (toU32 (u.offset.tdiv 512) + i) :: cu.1.sects →
          Addressed c cu'.1 := by
        intro cu' hsects n hn
        rw [hsects] at hn
        rcases List.mem_cons.mp hn with rfl | hn
        · exact .inr hsector
        · exact hcu n hn
      apply wp_mono (transferSector_spec u.rw _ cu)
      · intro _ cu' hsects
        exact hnext hsects
      · rintro stop cu' (hsects | ⟨hsects, -⟩)
        · exact hnext hsects
        · intro n hn
          rw [hsects] at hn
          exact hcu n hn
  · rintro (hnot | hnot | hneg | hpast)
    · exact absurd ⟨q, hq⟩ hnot
    · exact absurd ⟨l, hl⟩ hnot
    · omega
    · omega

/-- A request that passes is not refused: it ends with a number in the register, without an error
or with another one. -/
theorem io_of_passes (h : Passes c u) :
  io (c, u) ≠ .err (.error .einval) (c, u)
  := by
  intro hrefused
  rw [io_passed h] at hrefused
  have hrounds : wp (loop (u.resid / 512) 0
        (fun i _ => transferSector u.rw (u32 (toU32 (u.offset.tdiv 512) + i))) ()) (c, u)
      (fun _ cu => c.sects.length ≤ cu.1.sects.length)
      (fun stop cu => c.sects.length < cu.1.sects.length ∨ stop ≠ .error .einval) := by
    apply wp_loop_run (fun _ _ (cu : Card × Uio) => c.sects.length ≤ cu.1.sects.length)
    · exact Nat.le_refl _
    · intro i _ cu _ hle
      apply wp_mono (transferSector_spec u.rw _ cu)
      · intro _ cu' hsects
        rw [hsects, List.length_cons]
        exact Nat.le_succ_of_le hle
      · rintro stop cu' (hsects | ⟨-, hstop⟩)
        · left
          rw [hsects, List.length_cons]
          exact Nat.lt_succ_of_le hle
        · exact .inr hstop
  rcases wp_err hrounds hrefused with hlt | hne
  · exact Nat.lt_irrefl _ hlt
  · exact hne rfl

/-- `lhd_io` keeps to the disk except for negative offsets whose end, as a 32-bit number of sectors,
is on the disk. -/
theorem contained_iff (hlt : u.offset < 2 ^ 31) (hresid : u.resid < 2 ^ 32) :
  Contained c u
    ↔ 0 ≤ u.offset ∨ ¬ 512 ∣ u.offset ∨ ¬ 512 ∣ u.resid
      ∨ 512 * (c.lhd.dBlocks : ℤ) < (u.offset + u.resid) % 2 ^ 41
  := by
  by_cases hpasses : Passes c u
  · constructor
    · rintro ⟨-, hrefuses⟩
      left
      by_contra hneg
      have himproper : Improper c u := .inr (.inr (.inl (Int.lt_of_not_ge hneg)))
      exact io_of_passes hpasses (hrefuses himproper)
    · rintro (hpos | hnot | hnot | hpast)
      · exact contained_of_nonneg hpasses hpos hlt hresid
      · exact absurd hpasses.1 hnot
      · exact absurd hpasses.2.1 hnot
      · exact absurd hpasses.2.2 (Int.not_le_of_gt hpast)
  · constructor
    · intro _
      by_cases hoffset : 512 ∣ u.offset
      · by_cases hlen : 512 ∣ u.resid
        · exact .inr (.inr (.inr (Int.lt_of_not_ge fun hle => hpasses ⟨hoffset, hlen, hle⟩)))
        · exact .inr (.inr (.inl hlen))
      · exact .inr (.inl hoffset)
    · intro _
      exact contained_of_refused hpasses

/-- A disk of 16 sectors without failures. -/
def small : Card := ⟨⟨fun _ => Buf.ofFn fun _ => 0, 16, []⟩, []⟩

/-- The last sector of a disk. -/
theorem contained_iff_last :
  let u := Uio.mkKuio (Buf.ofFn fun _ => 0 : Buf 512 UInt8) 512 7680 .read
  Contained small u
    ↔ 0 ≤ u.offset ∨ ¬ 512 ∣ u.offset ∨ ¬ 512 ∣ u.resid
      ∨ 512 * (small.lhd.dBlocks : ℤ) < (u.offset + u.resid) % 2 ^ 41
  := by
  intro u
  apply contained_iff
  · decide
  · decide

/-- A request for one sector that starts one sector before the disk is accepted, and the card is
told the number `2 ^ 32 - 1`. -/
theorem negative_offset_accepted :
  let u := Uio.mkKuio (Buf.ofFn fun _ => 0 : Buf 512 UInt8) 512 (-512) .read
  (∃ cu, io (small, u) = .ok () cu ∧ cu.1.sects = [2 ^ 32 - 1]) ∧ ¬ Contained small u
  := by
  intro u
  obtain ⟨cu, hrun, hsects⟩ : ∃ cu, io (small, u) = .ok () cu ∧ cu.1.sects = [2 ^ 32 - 1] := by
    decide +kernel
  constructor
  · exact ⟨cu, hrun, hsects⟩
  · rintro ⟨hsafe, -⟩
    have haddressed := wp_ok hsafe hrun (2 ^ 32 - 1)
    rw [hsects] at haddressed
    rcases haddressed List.mem_cons_self with hold | hlt
    · cases hold
    · revert hlt
      decide

end Requests

end Card
