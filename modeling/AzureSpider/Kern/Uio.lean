import AzureSpider.Errno
import AzureSpider.Kern.Panic
import AzureSpider.Lib.Buf
import AzureSpider.Lib.Machine
import AzureSpider.Lib.Routine

/-!
# Regions for I/O

The regions of `uio.c`: a piece of memory, how much of it is still to be transferred and the
offset in the object it is transferred to or from.

The answers of `copyin` and `copyout` are handed to a region beforehand; a region without
answers is one for which they succeed.
-/

open Machine Routine

/-- `enum uio_rw`. -/
inductive UioRw where
  | read | write
  deriving DecidableEq, Repr

/-- `enum uio_seg`. -/
inductive UioSeg where
  | userspace | sysspace | userispace
  deriving DecidableEq, Repr

/-- `struct uio`, with the memory that its `iovec` points into. -/
structure Uio where
  /-- The memory. -/
  mem : ℕ → UInt8
  /-- `iov_kbase` or `iov_ubase`. -/
  base : ℕ
  /-- `iov_len`. -/
  iovLen : ℕ
  /-- `uio_offset`. -/
  offset : ℤ
  /-- `uio_resid`. -/
  resid : ℕ
  /-- `uio_segflg`. -/
  segflg : UioSeg
  /-- `uio_rw`. -/
  rw : UioRw
  /-- Whether `uio_space` is null, for memory of the kernel, or the space of the running
  thread, for memory of a user. -/
  space : Bool
  /-- Whether the coming calls of `copyin` and `copyout` fail. -/
  faults : List Bool

namespace Uio

/-- A routine on a region. -/
abbrev Run (α : Type) : Type := Routine Errno FsPanic Uio α

/-- The memory after `size` bytes of a buffer are copied to `base`. -/
def copied {k : ℕ} (mem : ℕ → UInt8) (base size : ℕ) (buf : Buf k UInt8) (ptr : ℕ) :
    ℕ → UInt8 :=
  fun a => if base ≤ a ∧ a < base + size then buf.get (ptr + (a - base)) else mem a

/-- The buffer after `size` bytes of the memory at `base` are copied to `ptr` in it. -/
def fetched {k : ℕ} (mem : ℕ → UInt8) (base size : ℕ) (buf : Buf k UInt8) (ptr : ℕ) :
    Buf k UInt8 :=
  Buf.ofFn fun j => if ptr ≤ j ∧ j < ptr + size then mem (base + (j - ptr)) else buf.get j

/-- The result of `memmove`, which is none, or of `copyin` or `copyout`. -/
def transfer : Run Unit := do
  let u ← get
  match u.segflg with
  | .sysspace => pure ()
  | _ =>
    modify fun u => { u with faults := u.faults.tail }
    if u.faults.head? = some true then fail .efault else pure ()

/-- The loop of `uiomove`, which takes at most `n` rounds.  Returned is the buffer, which is
changed if the region is written from. -/
def uiomoveFrom {k : ℕ} : (rounds : ℕ) → Buf k UInt8 → (ptr n : ℕ) → Run (Buf k UInt8)
  | 0, buf, _, _ => pure buf
  | r + 1, buf, ptr, n => do
      let u ← get
      if 0 < n ∧ 0 < u.resid then do
        let size := min u.iovLen n
        assert (size ≠ 0) .uiomoveSize
        transfer
        modify fun u =>
          { u with
            mem := if u.rw = .read then copied u.mem u.base size buf ptr else u.mem
            base := u.base + size
            iovLen := u.iovLen - size
            resid := toU32 (u.resid - size)
            offset := i32 (u.offset + size) }
        uiomoveFrom r (if u.rw = .read then buf else fetched u.mem u.base size buf ptr)
          (ptr + size) (n - size)
      else
        pure buf

/-- `uiomove`: transfer `n` bytes between a buffer, from `ptr` on, and a region. -/
def uiomove {k : ℕ} (buf : Buf k UInt8) (ptr n : ℕ) : Run (Buf k UInt8) := do
  let u ← get
  assert (u.space = true) .uiomoveSpace
  uiomoveFrom n buf ptr n

/-- `static char zeros[16]`. -/
def zeros : Buf 16 UInt8 := Buf.ofFn fun _ => 0

/-- The loop of `uiomovezeros`, which takes at most `n` rounds. -/
def uiomovezerosFrom : (rounds n : ℕ) → Run Unit
  | 0, _ => pure ()
  | r + 1, n =>
    if 0 < n then do
      let amt := min 16 n
      let _ ← uiomove zeros 0 amt
      uiomovezerosFrom r (n - amt)
    else
      pure ()

/-- `uiomovezeros`. -/
def uiomovezeros (n : ℕ) : Run Unit := do
  let u ← get
  assert (u.rw = .read) .uiomovezerosRw
  uiomovezerosFrom n n

/-- `mk_kuio`, for a buffer that the memory of the region consists of. -/
def mkKuio {k : ℕ} (kbuf : Buf k UInt8) (len : ℕ) (pos : ℤ) (rw : UioRw) : Uio where
  mem := kbuf.get
  base := 0
  iovLen := len
  offset := pos
  resid := len
  segflg := .sysspace
  rw := rw
  space := true
  faults := []

/-- A region with another offset and another residue. -/
def aim (u : Uio) (offset : ℤ) (resid : ℕ) : Uio := { u with offset := offset, resid := resid }

/-! ### What a transfer does to a region -/

/-- The copies to and from the region succeed. -/
def Reliable (u : Uio) : Prop := u.segflg = .sysspace ∨ u.faults = []

/-- The next copy to or from the region succeeds. -/
def Copies (u : Uio) : Prop := u.segflg = .sysspace ∨ u.faults.head? ≠ some true

instance (u : Uio) : Decidable u.Copies :=
  inferInstanceAs (Decidable (_ ∨ _))

/-- `u'` is `u` after a transfer of `t` bytes, but for the memory. -/
structure After (u u' : Uio) (t : ℕ) : Prop where
  le : t ≤ u.resid
  base : u'.base = u.base + t
  iovLen : u'.iovLen + t = u.iovLen
  resid : u'.resid + t = u.resid
  offset : u'.offset = i32 (u.offset + t)
  segflg : u'.segflg = u.segflg
  rw : u'.rw = u.rw
  space : u'.space = u.space
  reliable : u.Reliable → u'.Reliable

/-- `u'` is `u` after `t` bytes are read from it, into an object. -/
structure Taken (u u' : Uio) (t : ℕ) : Prop extends After u u' t where
  mem : u'.mem = u.mem

/-- `u'` is `u` after the first `t` bytes of `f` are written to it. -/
structure Given (u u' : Uio) (t : ℕ) (f : ℕ → UInt8) : Prop extends After u u' t where
  mem : ∀ a, u'.mem a = if u.base ≤ a ∧ a < u.base + t then f (a - u.base) else u.mem a

/-- A region that an object can be read into or written from: there is memory for all of
it, and its offsets are not negative. -/
structure Ready (u : Uio) : Prop where
  space : u.space = true
  resid_le : u.resid ≤ u.iovLen
  offset_nonneg : 0 ≤ u.offset
  offset_lt : u.offset < 2 ^ 31
  end_le : u.offset + u.resid ≤ 2 ^ 31

/-- A region with memory for all of it, at any offset that an `off_t` holds. -/
structure Backed (u : Uio) : Prop where
  space : u.space = true
  resid_le : u.resid ≤ u.iovLen
  resid_lt : u.resid < 2 ^ 32
  offset_ge : -2 ^ 31 ≤ u.offset
  offset_lt : u.offset < 2 ^ 31

/-- A region with memory for all of it, at an offset that is not negative. -/
structure Ahead (u : Uio) : Prop extends Backed u where
  offset_nonneg : 0 ≤ u.offset

/-- A region for a part of a file: the offset that it ends at is an offset, too. -/
structure Within (u : Uio) : Prop extends Ready u where
  end_lt : u.offset + u.resid < 2 ^ 31

instance (u : Uio) : Decidable u.Within :=
  decidable_of_iff
    (u.space = true ∧ u.resid ≤ u.iovLen ∧ 0 ≤ u.offset ∧ u.offset + u.resid < 2 ^ 31)
    ⟨fun ⟨hspace, hle, hpos, hend⟩ => ⟨⟨hspace, hle, hpos, by omega, by omega⟩, hend⟩,
      fun h => ⟨h.space, h.resid_le, h.offset_nonneg, h.end_lt⟩⟩

variable {u u' u'' : Uio} {t t' : ℕ} {f : ℕ → UInt8}

theorem Ready.backed (hu : u.Ready) :
  u.Backed
  := by
  have hpos := hu.offset_nonneg
  have hend := hu.end_le
  exact ⟨hu.space, hu.resid_le, by omega, by omega, hu.offset_lt⟩

theorem Ready.ahead (hu : u.Ready) :
  u.Ahead
  := ⟨hu.backed, hu.offset_nonneg⟩

theorem Backed.after_zero (hu : u.Backed) :
  After u u 0
  := by
  have hge := hu.offset_ge
  have hlt := hu.offset_lt
  refine ⟨Nat.zero_le _, rfl, rfl, rfl, ?_, rfl, rfl, rfl, fun h => h⟩
  rw [i32_of_mem (by omega) (by omega)]
  omega

theorem After.backed (h : After u u' t) (hu : u.Backed) :
  u'.Backed
  := by
  have hresid := h.resid
  have hiov := h.iovLen
  have hle := hu.resid_le
  have hlt := hu.resid_lt
  refine ⟨h.space.trans hu.space, by omega, by omega, ?_, ?_⟩
  all_goals
    rw [h.offset]
    unfold i32
    omega

theorem After.trans (h : After u u' t) (h' : After u' u'' t') :
  After u u'' (t + t')
  where
  le := by
    have := h.resid
    have := h'.le
    omega
  base := by rw [h'.base, h.base, Nat.add_assoc]
  iovLen := by
    have := h.iovLen
    have := h'.iovLen
    omega
  resid := by
    have := h.resid
    have := h'.resid
    omega
  offset := by
    rw [h'.offset, h.offset, i32_add, Int.add_assoc]
    rfl
  segflg := h'.segflg.trans h.segflg
  rw := h'.rw.trans h.rw
  space := h'.space.trans h.space
  reliable := fun hr => h'.reliable (h.reliable hr)

theorem After.offset_of_lt (h : After u u' t) (hu : u.Ahead) (hend : u.offset + t < 2 ^ 31) :
  u'.offset = u.offset + t
  := by
  have hpos := hu.offset_nonneg
  rw [h.offset, i32_of_mem (by omega) hend]

theorem After.ahead (h : After u u' t) (hu : u.Ahead) (hend : u.offset + t < 2 ^ 31) :
  u'.Ahead
  := by
  have hpos := hu.offset_nonneg
  refine ⟨h.backed hu.toBacked, ?_⟩
  rw [h.offset_of_lt hu hend]
  omega

theorem After.offset_eq (h : After u u' t) (hu : u.Within) :
  u'.offset = u.offset + t
  := by
  have hle := h.le
  have hend := hu.end_lt
  apply h.offset_of_lt hu.toReady.ahead
  omega

theorem After.within (h : After u u' t) (hu : u.Within) :
  u'.Within
  := by
  have hresid := h.resid
  have hiov := h.iovLen
  have hoff := h.offset_eq hu
  have hle := hu.resid_le
  have hpos := hu.offset_nonneg
  have hend := hu.end_lt
  refine ⟨⟨?_, ?_, ?_, ?_, ?_⟩, ?_⟩
  · rw [h.space]
    apply hu.space
  all_goals omega

theorem Backed.taken_zero (hu : u.Backed) :
  Taken u u 0
  := ⟨hu.after_zero, rfl⟩

theorem Taken.trans (h : Taken u u' t) (h' : Taken u' u'' t') :
  Taken u u'' (t + t')
  := ⟨h.toAfter.trans h'.toAfter, h'.mem.trans h.mem⟩

theorem Ready.given_zero (hu : u.Ready) (f : ℕ → UInt8) :
  Given u u 0 f
  := by
  refine ⟨hu.backed.after_zero, ?_⟩
  intro a
  rw [if_neg (by omega)]

theorem Given.trans (h : Given u u' t f) (h' : Given u' u'' t' (fun j => f (t + j))) :
  Given u u'' (t + t') f
  := by
  refine ⟨h.toAfter.trans h'.toAfter, ?_⟩
  intro a
  have hbase := h.base
  rw [h'.mem a, h.mem a, hbase]
  by_cases hnew : u.base + t ≤ a ∧ a < u.base + t + t'
  · have heq : t + (a - (u.base + t)) = a - u.base := by omega
    rw [if_pos hnew, if_pos (by omega), heq]
  · rw [if_neg hnew]
    by_cases hold : u.base ≤ a ∧ a < u.base + t
    · rw [if_pos hold, if_pos (by omega)]
    · rw [if_neg hold, if_neg (by omega)]

/-- A transfer of nothing. -/
theorem Taken.given (h : Taken u u' 0) (f : ℕ → UInt8) :
  Given u u' 0 f
  := by
  refine ⟨h.toAfter, ?_⟩
  intro a
  rw [h.mem, if_neg (by omega)]

theorem Given.congr {g : ℕ → UInt8} (h : Given u u' t f) (hfg : ∀ j < t, f j = g j) :
  Given u u' t g
  := by
  refine ⟨h.toAfter, ?_⟩
  intro a
  rw [h.mem a]
  split
  · rename_i ha
    apply hfg
    omega
  · rfl

/-! A region that was aimed at another object is aimed back after the transfer. -/

section Aim

variable {x x' : ℤ} {y y' : ℕ}

@[simp]
theorem aim_rw (u : Uio) (x : ℤ) (y : ℕ) : (u.aim x y).rw = u.rw
  := rfl

@[simp]
theorem aim_offset (u : Uio) (x : ℤ) (y : ℕ) : (u.aim x y).offset = x
  := rfl

@[simp]
theorem aim_resid (u : Uio) (x : ℤ) (y : ℕ) : (u.aim x y).resid = y
  := rfl

@[simp]
theorem aim_mem (u : Uio) (x : ℤ) (y : ℕ) : (u.aim x y).mem = u.mem
  := rfl

@[simp]
theorem aim_base (u : Uio) (x : ℤ) (y : ℕ) : (u.aim x y).base = u.base
  := rfl

@[simp]
theorem aim_reliable (u : Uio) (x : ℤ) (y : ℕ) : (u.aim x y).Reliable ↔ u.Reliable
  := Iff.rfl

@[simp]
theorem aim_copies (u : Uio) (x : ℤ) (y : ℕ) : (u.aim x y).Copies ↔ u.Copies
  := Iff.rfl

theorem After.aim (h : After (u.aim x y) u' t) (hle : t ≤ u.resid) (hresid : y' + t = u.resid)
    (hoff : x' = i32 (u.offset + t)) :
  After u (u'.aim x' y') t
  := { h with le := hle, resid := hresid, offset := hoff }

theorem Taken.aim (h : Taken (u.aim x y) u' t) (hle : t ≤ u.resid) (hresid : y' + t = u.resid)
    (hoff : x' = i32 (u.offset + t)) :
  Taken u (u'.aim x' y') t
  := ⟨h.toAfter.aim hle hresid hoff, h.mem⟩

theorem Given.aim (h : Given (u.aim x y) u' t f) (hle : t ≤ u.resid)
    (hresid : y' + t = u.resid) (hoff : x' = i32 (u.offset + t)) :
  Given u (u'.aim x' y') t f
  := ⟨h.toAfter.aim hle hresid hoff, h.mem⟩

end Aim

/-! ### The transfers -/

/-- The region after the answer to a copy is used up. -/
def answered (u : Uio) : Uio :=
  if u.segflg = .sysspace then u else { u with faults := u.faults.tail }

/-- A copy succeeds or fails as its answer says. -/
theorem transfer_eq (u : Uio) :
  transfer u = if u.Copies then .ok () u.answered else .err .efault u.answered
  := by
  obtain ⟨mem, base, iovLen, offset, resid, segflg, rw, space, faults⟩ := u
  cases segflg with
  | sysspace => rfl
  | userspace | userispace =>
    simp only [transfer, get_bind, modify_bind, Copies, answered, reduceCtorEq, false_or, if_false]
    split
    next hfault =>
      rw [if_neg (fun hok => hok hfault)]
      rfl
    next => rfl

theorem Reliable.copies (h : u.Reliable) :
  u.Copies
  := by
  rcases h with h | h
  · exact .inl h
  · right
    simp [h]

theorem Reliable.answered (h : u.Reliable) :
  u.answered = u
  := by
  rcases h with h | h
  · exact if_pos h
  · rw [Uio.answered, h, List.tail_nil, ← h, ite_self]

/-- The one error of a transfer, for any region. -/
theorem uiomove_efault {k : ℕ} (buf : Buf k UInt8) (ptr n : ℕ) (u : Uio) :
  wlp (fun _ => True) (uiomove buf ptr n) u (fun _ _ => True) (fun e _ => e = .efault)
  := by
  have hrounds : ∀ (rounds : ℕ) (buf : Buf k UInt8) (ptr n : ℕ) (u : Uio),
      wlp (fun _ => True) (uiomoveFrom rounds buf ptr n) u (fun _ _ => True)
        (fun e _ => e = .efault) := by
    intro rounds
    induction rounds with
    | zero =>
      intro buf ptr n u
      rw [uiomoveFrom, wlp_pure]
      trivial
    | succ r ih =>
      intro buf ptr n u
      simp only [uiomoveFrom, wlp_bind, wlp_get, wlp_ite,
        wlp_assert, wlp_modify, wlp_pure, implies_true, and_true]
      intro _ _
      have htransfer := transfer_eq u
      split at htransfer
      next =>
        apply wlp_of_wp (P := fun _ => True) (wp_of_ok htransfer ?_)
        apply ih
      next => exact wlp_of_err htransfer rfl
  simp only [uiomove, wlp_bind, wlp_get, wlp_assert, implies_true, and_true]
  intro _
  apply hrounds

theorem fetched_none {k : ℕ} (mem : ℕ → UInt8) (base : ℕ) (buf : Buf k UInt8) (ptr : ℕ) :
  fetched mem base 0 buf ptr = buf
  := by
  have heq : fetched mem base 0 buf ptr = Buf.ofFn buf.get := by
    funext j
    simp only [fetched, Buf.ofFn]
    rw [if_neg (by omega)]
  rw [heq, Buf.ofFn_get]

/-- The buffer after `t` bytes are moved between it and the region. -/
def filled {k : ℕ} (u : Uio) (buf : Buf k UInt8) (ptr t : ℕ) : Buf k UInt8 :=
  if u.rw = .read then buf else fetched u.mem u.base t buf ptr

/-- The region after `t` bytes are moved between it and a buffer. -/
def moved {k : ℕ} (u : Uio) (buf : Buf k UInt8) (ptr t : ℕ) : Uio :=
  { u with
    mem := if u.rw = .read then copied u.mem u.base t buf ptr else u.mem
    base := u.base + t
    iovLen := u.iovLen - t
    resid := toU32 (u.resid - t)
    offset := i32 (u.offset + t) }

theorem uiomoveFrom_round {k n : ℕ} (r : ℕ) (buf : Buf k UInt8) (ptr : ℕ) (hn : 0 < n)
    (hresid : 0 < u.resid) (hiov : 0 < u.iovLen) :
  uiomoveFrom (r + 1) buf ptr n u
    = if u.Copies then
        uiomoveFrom r (u.filled buf ptr (min u.iovLen n)) (ptr + min u.iovLen n)
          (n - min u.iovLen n) (u.answered.moved buf ptr (min u.iovLen n))
      else .err .efault u.answered
  := by
  have hsize : min u.iovLen n ≠ 0 := by omega
  have htransfer := transfer_eq u
  rw [uiomoveFrom, get_bind, if_pos ⟨hn, hresid⟩]
  rw [assert_bind hsize]
  split at htransfer
  next hok =>
    rw [if_pos hok, bind_ok htransfer, modify_bind, ← filled]
    rfl
  next hnot => rw [if_neg hnot, bind_err htransfer]

/-- The loop of `uiomove` ends when everything is moved. -/
theorem uiomoveFrom_done {k n : ℕ} (r : ℕ) (buf : Buf k UInt8) (ptr : ℕ) (h : n = 0 ∨ u.resid = 0) :
  uiomoveFrom r buf ptr n u = .ok buf u
  := by
  cases r with
  | zero => rfl
  | succ r =>
    rw [uiomoveFrom, get_bind, if_neg (by omega)]
    rfl

theorem Backed.answered (hu : u.Backed) :
  Taken u u.answered 0
  := by
  have hzero := hu.after_zero
  unfold Uio.answered
  split
  next => exact hu.taken_zero
  next hne =>
    refine ⟨{ hzero with reliable := ?_ }, rfl⟩
    rintro (hsys | hnil)
    · exact absurd hsys hne
    · right
      simp [hnil]

/-- `uiomove` moves what is left in the region, at most, in one round; if the `iovec` is longer
than that, no more may be asked for. -/
theorem uiomove_eq {k n : ℕ} (buf : Buf k UInt8) (ptr : ℕ) (hu : u.Backed) (hpos : 0 < n)
    (hresid : 0 < u.resid) (hfit : n ≤ u.resid ∨ u.iovLen = u.resid) :
  uiomove buf ptr n u
    = if u.Copies then
        .ok (u.filled buf ptr (min n u.resid)) (u.answered.moved buf ptr (min n u.resid))
      else .err .efault u.answered
  := by
  have hiov := hu.resid_le
  have hsize : min u.iovLen n = min n u.resid := by omega
  obtain ⟨r, rfl⟩ := Nat.exists_eq_add_one_of_ne_zero (Nat.ne_of_gt hpos)
  rw [uiomove, get_bind, assert_bind hu.space, uiomoveFrom_round r buf ptr hpos hresid (by omega),
    hsize, uiomoveFrom_done]
  have hresid' := hu.answered.resid
  simp only [moved, toU32]
  omega

section

variable {k t : ℕ} (buf : Buf k UInt8) (ptr : ℕ) (hu : u.Backed) (ht : t ≤ u.resid)
include buf ptr hu ht

theorem moved_after :
  After u (u.moved buf ptr t) t
  := by
  have hiov := hu.resid_le
  have hlt := hu.resid_lt
  have hresid : toU32 ((u.resid : ℤ) - (t : ℤ)) + t = u.resid := by
    unfold toU32
    omega
  exact ⟨ht, rfl, Nat.sub_add_cancel (by omega), hresid, rfl, rfl, rfl, rfl, fun hr => hr⟩

theorem moved_given (hrw : u.rw = .read) :
  Given u (u.moved buf ptr t) t (fun j => buf.get (ptr + j))
  := by
  refine ⟨moved_after buf ptr hu ht, ?_⟩
  intro a
  simp only [moved, hrw, if_true, copied]

theorem moved_taken (hrw : u.rw = .write) :
  Taken u (u.moved buf ptr t) t ∧ u.filled buf ptr t = fetched u.mem u.base t buf ptr
  := by
  have hne : ¬ u.rw = .read := by
    rw [hrw]
    decide
  exact ⟨⟨moved_after buf ptr hu ht, if_neg hne⟩, if_neg hne⟩

end

section

variable {k n : ℕ} (buf : Buf k UInt8) (ptr : ℕ)
include buf ptr

/-- What `uiomove` moves, in either direction. -/
theorem uiomove_spec (hu : u.Backed) (hn : n ≤ u.resid) :
  wp (uiomove buf ptr n) u
    (fun buf' u' =>
      (u.rw = .read → Given u u' n (fun j => buf.get (ptr + j)))
        ∧ (u.rw = .write → Taken u u' n ∧ buf' = fetched u.mem u.base n buf ptr))
    (fun e u' => e = .efault ∧ ¬ u.Reliable ∧ Taken u u' 0)
  := by
  rcases Nat.eq_zero_or_pos n with rfl | hpos
  · rw [uiomove]
    simp only [wp_bind, wp_get, wp_assert, uiomoveFrom, wp_pure]
    refine ⟨hu.space, fun _ => hu.taken_zero.given _, fun _ => ⟨hu.taken_zero, ?_⟩⟩
    rw [fetched_none]
  · have hmove := uiomove_eq buf ptr hu hpos (by omega) (.inl hn)
    rw [Nat.min_eq_left hn] at hmove
    split at hmove
    next =>
      have hans := hu.answered
      have hbacked := hans.backed hu
      have hle : n ≤ u.answered.resid := by rwa [← hans.resid] at hn
      apply wp_of_ok hmove
      constructor
      · intro hrw
        have hnext := moved_given buf (ptr + 0) hbacked hle (hans.rw.trans hrw)
        simp only [Nat.add_assoc] at hnext
        have hgiven := (hans.given fun j => buf.get (ptr + j)).trans hnext
        rwa [Nat.zero_add] at hgiven
      · intro hrw
        have htaken := hans.trans (moved_taken buf ptr hbacked hle (hans.rw.trans hrw)).1
        rw [Nat.zero_add] at htaken
        exact ⟨htaken, (moved_taken buf ptr hu hn hrw).2⟩
    next hnot =>
      apply wp_of_err hmove
      exact ⟨rfl, fun hr => hnot hr.copies, hu.answered⟩

/-- Whether `uiomove` succeeds. -/
theorem uiomove_copies (hu : u.Backed) (hn : n ≤ u.resid) :
  wp (uiomove buf ptr n) u (fun _ _ => 0 < n → u.Copies) (fun _ _ => ¬ u.Copies)
  := by
  rcases Nat.eq_zero_or_pos n with rfl | hpos
  · simp only [uiomove, uiomoveFrom, wp_bind, wp_get, wp_assert, wp_pure]
    exact ⟨hu.space, fun hfalse => absurd hfalse (Nat.lt_irrefl 0)⟩
  · have hmove := uiomove_eq buf ptr hu hpos (by omega) (.inl hn)
    split at hmove
    next hok => exact wp_of_ok hmove fun _ => hok
    next hnot => exact wp_of_err hmove hnot

/-- What `uiomove` gives to a region that an object is read into. -/
theorem uiomove_read (hu : u.Ready) (hn : n ≤ u.resid) (hrw : u.rw = .read) :
  wp (uiomove buf ptr n) u
    (fun _ u' => Given u u' n (fun j => buf.get (ptr + j)))
    (fun _ u' => ¬ u.Reliable ∧ Taken u u' 0)
  := by
  apply wp_mono (uiomove_spec buf ptr hu.backed hn)
  · intro buf' u' h
    apply h.1 hrw
  · rintro e u' ⟨-, hr, htaken⟩
    exact ⟨hr, htaken⟩

/-- What `uiomove` takes from a region that an object is written from. -/
theorem uiomove_write (hu : u.Backed) (hn : n ≤ u.resid) (hrw : u.rw = .write) :
  wp (uiomove buf ptr n) u
    (fun buf' u' => Taken u u' n ∧ buf' = fetched u.mem u.base n buf ptr ∧ (0 < n → u.Copies))
    (fun e u' => e = .efault ∧ ¬ u.Copies ∧ Taken u u' 0)
  := by
  apply wp_mono (wp_and (uiomove_spec buf ptr hu hn) (uiomove_copies buf ptr hu hn))
  · rintro buf' u' ⟨h, hcopies⟩
    obtain ⟨htaken, hbuf⟩ := h.2 hrw
    exact ⟨htaken, hbuf, hcopies⟩
  · rintro e u' ⟨⟨he, -, htaken⟩, hnot⟩
    exact ⟨he, hnot, htaken⟩

end

theorem uiomovezeros_spec {n : ℕ} (hu : u.Within) (hn : n ≤ u.resid) (hrw : u.rw = .read) :
  wp (uiomovezeros n) u (fun _ u' => Given u u' n (fun _ => 0))
    (fun _ u' => ¬ u.Reliable ∧ ∃ t ≤ n, Given u u' t (fun _ => 0))
  := by
  have hloop : ∀ (r n : ℕ) {u : Uio}, n ≤ r → u.Within → n ≤ u.resid → u.rw = .read →
      wp (uiomovezerosFrom r n) u (fun _ u' => Given u u' n (fun _ => 0))
        (fun _ u' => ¬ u.Reliable ∧ ∃ t ≤ n, Given u u' t (fun _ => 0)) := by
    intro r
    induction r with
    | zero =>
      intro n u hr hu _ _
      obtain rfl : n = 0 := by omega
      simp only [uiomovezerosFrom, wp_pure]
      apply hu.given_zero
    | succ r ih =>
      intro n u hr hu hn hrw
      simp only [uiomovezerosFrom, wp_ite, wp_bind, wp_pure]
      constructor
      · intro hpos
        apply wp_mono (uiomove_read zeros 0 hu.toReady (n := min 16 n) (by omega) hrw)
        · intro _ u' h
          have hresid := h.resid
          have hzero : Given u u' (min 16 n) (fun _ => 0) := by
            apply h.congr
            intro j hj
            rw [zeros, Buf.get_ofFn _ (by omega)]
          apply wp_mono (ih (n - min 16 n) (by omega) (h.within hu) (by omega) (h.rw.trans hrw))
          · intro _ u'' h'
            have heq : n = min 16 n + (n - min 16 n) := by omega
            rw [heq]
            apply hzero.trans h'
          · rintro e u'' ⟨hnot, t, ht, h'⟩
            refine ⟨fun hr' => hnot (h.reliable hr'), min 16 n + t, by omega, ?_⟩
            apply hzero.trans h'
        · rintro e u' ⟨hnot, htaken⟩
          exact ⟨hnot, 0, Nat.zero_le n, htaken.given _⟩
      · intro hpos
        obtain rfl : n = 0 := by omega
        apply hu.given_zero
  simp only [uiomovezeros, wp_bind, wp_get, wp_assert]
  refine ⟨hrw, ?_⟩
  apply hloop n n (Nat.le_refl n) hu hn hrw

theorem mkKuio_ready {k : ℕ} (kbuf : Buf k UInt8) {len : ℕ} {pos : ℤ} (rw : UioRw)
    (hpos : 0 ≤ pos) (hlt : pos < 2 ^ 31) (hend : pos + len ≤ 2 ^ 31) :
  (mkKuio kbuf len pos rw).Ready
  := ⟨rfl, Nat.le_refl len, hpos, hlt, hend⟩

theorem mkKuio_reliable {k : ℕ} (kbuf : Buf k UInt8) (len : ℕ) (pos : ℤ) (rw : UioRw) :
  (mkKuio kbuf len pos rw).Reliable
  := .inl rfl

end Uio
