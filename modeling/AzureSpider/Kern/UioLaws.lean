import AzureSpider.Kern.Uio

/-!
# Transfers add up

Regions whose copies succeed.  A transfer of `n` bytes moves as many as there are left, in order,
and two transfers that follow each other are one.  `uiomove` does not look at `uio_resid` to
decide how much to move: it moves more than there is left when it is asked to and the `iovec` is
longer.
-/

open Machine Routine

namespace Uio

variable {k n a b : ℕ} {u : Uio} {buf : Buf k UInt8} {ptr : ℕ}

theorem filled_none :
  u.filled buf ptr 0 = buf
  := by
  rw [filled, fetched_none, ite_self]

theorem moved_none (hu : u.Backed) :
  u.moved buf ptr 0 = u
  := by
  have hmem : copied u.mem u.base 0 buf ptr = u.mem := by
    funext a
    apply if_neg
    omega
  have hresid : toU32 (u.resid - (0 : ℕ)) = u.resid := by
    have hlt := hu.resid_lt
    unfold toU32
    omega
  rw [moved, hmem, ite_self, hresid, ← hu.after_zero.offset]
  rfl

/-- What two transfers give to the region. -/
theorem copied_copied (mem : ℕ → UInt8) (base : ℕ) :
  copied (copied mem base a buf ptr) (base + a) b buf (ptr + a)
    = copied mem base (a + b) buf ptr
  := by
  funext x
  simp only [copied]
  by_cases hnew : base + a ≤ x ∧ x < base + a + b
  · have heq : ptr + a + (x - (base + a)) = ptr + (x - base) := by omega
    rw [if_pos hnew, if_pos (by omega), heq]
  · rw [if_neg hnew]
    apply if_congr _ rfl rfl
    omega

/-- What two transfers take from the region. -/
theorem fetched_fetched (mem : ℕ → UInt8) (base : ℕ) :
  fetched mem (base + a) b (fetched mem base a buf ptr) (ptr + a)
    = fetched mem base (a + b) buf ptr
  := by
  apply Buf.ext'
  intro x hx
  simp only [fetched, Buf.get_ofFn _ hx]
  by_cases hnew : ptr + a ≤ x ∧ x < ptr + a + b
  · have heq : base + a + (x - (ptr + a)) = base + (x - ptr) := by omega
    rw [if_pos hnew, if_pos (by omega), heq]
  · rw [if_neg hnew]
    apply if_congr _ rfl rfl
    omega

theorem filled_filled :
  (u.moved buf ptr a).filled (u.filled buf ptr a) (ptr + a) b = u.filled buf ptr (a + b)
  := by
  cases hrw : u.rw with
  | read => simp only [filled, moved, hrw, if_true]
  | write =>
    simp only [filled, moved, hrw, reduceCtorEq, if_false]
    apply fetched_fetched

theorem moved_moved :
  (u.moved buf ptr a).moved (u.filled buf ptr a) (ptr + a) b = u.moved buf ptr (a + b)
  := by
  have hresid : toU32 (toU32 (u.resid - a) - b) = toU32 (u.resid - (a + b : ℕ)) := by
    unfold toU32
    omega
  have hoffset : i32 (i32 (u.offset + a) + b) = i32 (u.offset + (a + b : ℕ)) := by
    rw [i32_add, Int.add_assoc]
    rfl
  cases hrw : u.rw with
  | read =>
    simp only [moved, filled, hrw, if_true, copied_copied, hresid, hoffset, Nat.add_assoc,
      Nat.sub_sub]
  | write =>
    simp only [moved, filled, hrw, reduceCtorEq, if_false, hresid, hoffset, Nat.add_assoc,
      Nat.sub_sub]

/-- A region and a buffer after two transfers of what is left, at most. -/
theorem moved_twice (buf : Buf k UInt8) (ptr : ℕ) (hu : u.Backed) (a b : ℕ) :
  let u' := u.moved buf ptr (min a u.resid)
  let buf' := u.filled buf ptr (min a u.resid)
  u'.filled buf' (ptr + a) (min b u'.resid) = u.filled buf ptr (min (a + b) u.resid)
    ∧ u'.moved buf' (ptr + a) (min b u'.resid) = u.moved buf ptr (min (a + b) u.resid)
  := by
  intro u' buf'
  have hafter : After u u' (min a u.resid) := moved_after buf ptr hu (Nat.min_le_right _ _)
  have hresid := hafter.resid
  by_cases ha : a ≤ u.resid
  · have hmin : min a u.resid = a := Nat.min_eq_left ha
    have hsum : min (a + b) u.resid = a + min b u'.resid := by omega
    rw [hsum]
    simp only [u', buf', hmin]
    exact ⟨filled_filled, moved_moved⟩
  · have hmin : min b u'.resid = 0 := by omega
    have hall : min (a + b) u.resid = min a u.resid := by omega
    rw [hmin, hall, filled_none, moved_none (hafter.backed hu)]
    exact ⟨rfl, rfl⟩

/-- `n` bytes can be asked for: there are as many left, or the `iovec` has no more than are left,
or there are none. -/
def Fits (u : Uio) (n : ℕ) : Prop := n ≤ u.resid ∨ u.iovLen = u.resid ∨ u.resid = 0

/-- `uiomove` moves the bytes that are left. -/
theorem Fits.uiomove (hfit : u.Fits n) (hu : u.Backed) (hr : u.Reliable) :
  Uio.uiomove buf ptr n u
    = .ok (u.filled buf ptr (min n u.resid)) (u.moved buf ptr (min n u.resid))
  := by
  unfold Fits at hfit
  by_cases hnone : n = 0 ∨ u.resid = 0
  · have hmin : min n u.resid = 0 := by omega
    rw [hmin, filled_none, moved_none hu, Uio.uiomove, get_bind, assert_bind hu.space,
      uiomoveFrom_done _ _ _ hnone]
  · rw [uiomove_eq buf ptr hu (by omega) (by omega) (by omega), if_pos hr.copies, hr.answered]

/-- A part of a transfer can be asked for, and then the rest of it. -/
theorem Fits.split (hfit : u.Fits n) (hu : u.Backed) (ha : a ≤ n) (buf : Buf k UInt8) (ptr : ℕ) :
  u.Fits a ∧ (u.moved buf ptr (min a u.resid)).Fits (n - a)
  := by
  have hafter := moved_after buf ptr hu (Nat.min_le_right a u.resid)
  have hresid := hafter.resid
  have hiov := hafter.iovLen
  unfold Fits at *
  omega

/-- The loop of `uiomovezeros` gives what `uiomove` gives of a buffer of zeros. -/
theorem uiomovezerosFrom_eq {N : ℕ} {Z : Buf N UInt8} (hZ : ∀ j < N, Z.get j = 0) :
    ∀ (r : ℕ) {n : ℕ} (ptr : ℕ) {u : Uio}, n ≤ r → ptr + n ≤ N → u.Fits n → u.Backed → u.Reliable →
      u.rw = .read → uiomovezerosFrom r n u = .ok () (u.moved Z ptr (min n u.resid))
  | 0, n, _, u, hr, _, _, hu, _, _ => by
      obtain rfl : n = 0 := by omega
      rw [Nat.zero_min, moved_none hu]
      rfl
  | r + 1, n, ptr, u, hr, hN, hfit, hu, hrel, hrw => by
      by_cases hpos : 0 < n
      · obtain ⟨hfirst, hrest⟩ := hfit.split hu (Nat.min_le_right 16 n) Z ptr
        have hafter := moved_after Z ptr hu (Nat.min_le_right (min 16 n) u.resid)
        have hsame : u.moved zeros 0 (min (min 16 n) u.resid)
            = u.moved Z ptr (min (min 16 n) u.resid) := by
          have hmem : copied u.mem u.base (min (min 16 n) u.resid) zeros 0
              = copied u.mem u.base (min (min 16 n) u.resid) Z ptr := by
            funext x
            simp only [copied]
            split
            · rw [zeros, Buf.get_ofFn _ (by omega), hZ _ (by omega)]
            · rfl
          rw [moved, hmem, ← moved]
        have hsum : min 16 n + (n - min 16 n) = n := by omega
        have htwice := (moved_twice Z ptr hu (min 16 n) (n - min 16 n)).2
        rw [hsum, filled, if_pos hrw] at htwice
        rw [uiomovezerosFrom, if_pos hpos, bind_ok (hfirst.uiomove hu hrel), hsame,
          uiomovezerosFrom_eq hZ r (ptr + min 16 n) (by omega) (by omega) hrest
            (hafter.backed hu) (hafter.reliable hrel) (hafter.rw.trans hrw), htwice]
      · obtain rfl : n = 0 := by omega
        rw [uiomovezerosFrom, if_neg hpos, Nat.zero_min, moved_none hu]
        rfl

/-! ### The laws -/

/-- What is expected of a transfer of `n` bytes. -/
structure Lawful (u : Uio) (n : ℕ) : Prop where
  /-- As many bytes as there are left are moved, in order, and the region is moved on. -/
  moves : ∀ {k : ℕ} (buf : Buf k UInt8) (ptr : ℕ), ∃ buf' u', uiomove buf ptr n u = .ok buf' u'
    ∧ (u.rw = .read → Given u u' (min n u.resid) (fun j => buf.get (ptr + j)) ∧ buf' = buf)
    ∧ (u.rw = .write → Taken u u' (min n u.resid)
      ∧ buf' = fetched u.mem u.base (min n u.resid) buf ptr)
  /-- Transfers that follow each other are one. -/
  adds : ∀ {k : ℕ} (buf : Buf k UInt8) (ptr a b : ℕ), a + b = n →
    (uiomove buf ptr a >>= fun buf' => uiomove buf' (ptr + a) b) u = uiomove buf ptr n u
  /-- `uiomovezeros` is the transfer of `n` zeros. -/
  zeros : u.rw = .read → ∃ buf' u', uiomovezeros n u = .ok () u'
    ∧ uiomove (Buf.ofFn fun _ => 0 : Buf n UInt8) 0 n u = .ok buf' u'

theorem Fits.lawful (hfit : u.Fits n) (hu : u.Backed) (hr : u.Reliable) :
  u.Lawful n
  where
  moves := by
    intro k buf ptr
    have hle := Nat.min_le_right n u.resid
    refine ⟨_, _, hfit.uiomove hu hr, fun hrw => ⟨moved_given buf ptr hu hle hrw, if_pos hrw⟩,
      fun hrw => moved_taken buf ptr hu hle hrw⟩
  adds := by
    rintro k buf ptr a b rfl
    obtain ⟨hfirst, hrest⟩ := hfit.split hu (Nat.le_add_right a b) buf ptr
    have hafter := moved_after buf ptr hu (Nat.min_le_right a u.resid)
    rw [Nat.add_sub_cancel_left] at hrest
    obtain ⟨hbuf, hmoved⟩ := moved_twice buf ptr hu a b
    rw [bind_ok (hfirst.uiomove hu hr), hrest.uiomove (hafter.backed hu) (hafter.reliable hr),
      hbuf, hmoved, hfit.uiomove hu hr]
  zeros := by
    intro hrw
    refine ⟨_, _, ?_, hfit.uiomove hu hr⟩
    rw [uiomovezeros, get_bind, assert_bind hrw]
    apply uiomovezerosFrom_eq (fun j hj => Buf.get_ofFn _ hj) n 0 (Nat.le_refl n) (by omega) hfit hu
      hr hrw

/-- Without memory behind the bytes that are left, `uiomove` panics. -/
theorem uiomoveFrom_stuck (r : ℕ) (hn : 0 < n) (hresid : 0 < u.resid) (hiov : u.iovLen = 0) :
  uiomoveFrom (r + 1) buf ptr n u = .panic .uiomoveSize
  := by
  rw [uiomoveFrom, get_bind, if_pos ⟨hn, hresid⟩]
  apply bind_panic
  rw [hiov, Nat.zero_min, assert, if_neg (not_not.mpr rfl)]
  rfl

/-- More is moved than there is left, or `uiomove` panics. -/
theorem uiomove_beyond (hu : u.Backed) (hr : u.Reliable) (hnot : ¬ u.Fits n) {buf' : Buf k UInt8}
    {u' : Uio} (h : uiomove buf ptr n u = .ok buf' u') :
  u.base + u.resid < u'.base
  := by
  have hle := hu.resid_le
  unfold Fits at hnot
  obtain ⟨r, rfl⟩ := Nat.exists_eq_add_one_of_ne_zero (show n ≠ 0 by omega)
  rw [uiomove, get_bind, assert_bind hu.space,
    uiomoveFrom_round r buf ptr (by omega) (by omega) (by omega), if_pos hr.copies,
    hr.answered] at h
  by_cases hdone : r + 1 - min u.iovLen (r + 1) = 0
      ∨ (u.moved buf ptr (min u.iovLen (r + 1))).resid = 0
  · rw [uiomoveFrom_done _ _ _ hdone] at h
    simp only [Outcome.ok.injEq] at h
    rw [← h.2]
    simp only [moved]
    omega
  · obtain ⟨r, rfl⟩ := Nat.exists_eq_add_one_of_ne_zero (show r ≠ 0 by omega)
    rw [uiomoveFrom_stuck r (by omega) (by omega) (by simp only [moved]; omega)] at h
    simp at h

/-- The laws hold when the bytes can be asked for, and only then. -/
theorem uiomove_lawful_iff (u : Uio) (n : ℕ) (hu : u.Backed) (hr : u.Reliable) :
  u.Lawful n ↔ n ≤ u.resid ∨ u.iovLen = u.resid ∨ u.resid = 0
  := by
  constructor
  · intro h
    by_contra hnot
    obtain ⟨buf', u', hrun, hread, hwrite⟩ := h.moves (zeros : Buf 16 UInt8) 0
    have hbeyond := uiomove_beyond hu hr hnot hrun
    have hafter : After u u' (min n u.resid) := by
      cases hrw : u.rw with
      | read => exact (hread hrw).1.toAfter
      | write => exact (hwrite hrw).1.toAfter
    have hbase := hafter.base
    omega
  · intro hfit
    exact Fits.lawful hfit hu hr

/-- A region of the kernel whose `iovec` has eight bytes, four of which are left. -/
def longIovec : Uio := { mkKuio (Buf.ofFn fun _ => 7 : Buf 8 UInt8) 8 0 .read with resid := 4 }

theorem uiomove_lawful_iff_four :
  longIovec.Lawful 4
  := (uiomove_lawful_iff longIovec 4 ⟨rfl, by decide, by decide, by decide, by decide⟩
    (.inl rfl)).mpr (.inl (by decide))

/-- Eight bytes are moved where four are left. -/
theorem not_lawful_eight :
  ¬ longIovec.Lawful 8
  := by
  intro h
  obtain ⟨buf', u', hrun, hread, -⟩ := h.moves zeros 0
  have hbase := (hread rfl).1.base
  have height : (uiomove zeros 0 8 longIovec).test (fun _ u' => u'.base = 8) (fun _ _ => false)
      = true := by decide
  rw [hrun] at height
  simp [Outcome.test, hbase, longIovec, mkKuio] at height

end Uio
