import AzureSpider.Vfs.Balance
import Mathlib.Data.Int.Notation

/-!
# The device of a path

`getdevice` byte by byte.  The path lies in memory with its terminator behind it, and nothing may
be read behind that.  `Translated` says what a path is relative to and what the rest of it is.
-/

open Routine

namespace Vfs

variable {W : Type} {fs : VnodeOps W} {path dev rest : CString}

/-- The index at which a loop over the bytes of a string stops; `none` if the loop leaves the
string. -/
def seek (path : CString) (stop : UInt8 → Bool) : (rounds i : ℕ) → Option ℕ
  | 0, _ => none
  | n + 1, i =>
    match (path ++ [0])[i]? with
    | none => none
    | some c => if stop c then some i else seek path stop n (i + 1)

/-- The bytes that the first loop of `getdevice` stops at. -/
def isMark (c : UInt8) : Bool := c = 0 || c = 58 || c = 47

/-- What a path is relative to. -/
inductive Start where
  | curdir
  | bootfs
  | curroot
  | device (devname : CString)

/-- The vnode to start from. -/
def Start.vnode (fs : VnodeOps W) : Start → Run W VnodeId
  | .curdir => getcurdir
  | .bootfs => getbootfs
  | .curroot => getcurroot fs
  | .device devname => getroot fs devname

/-- `getdevice` after its first loop, which has stopped at the index `i`: the start, and the index
of the rest. -/
def scanFrom (path : CString) (i : ℕ) (mark : UInt8) : Option (Start × ℕ) :=
  let colon : ℤ := if mark = 58 then i else -1
  let slash : ℤ := if mark = 47 then i else -1
  if colon < 0 ∧ slash ≠ 0 then
    some (.curdir, 0)
  else if 0 < colon then
    (seek path (· != 47) (path.length + 1) (i + 1)).map fun j => (.device (path.take i), j)
  else
    match seek path (· != 47) (path.length + 1) 1 with
    | none => none
    | some j =>
      if (path ++ [0])[0]? = some 47 then some (.bootfs, j)
      else if (path ++ [0])[0]? = some 58 then some (.curroot, j)
      else none

/-- What `getdevice` finds out by looking at the bytes; `none` if it leaves the string, or an
assertion fails. -/
def scan (path : CString) : Option (Start × ℕ) := do
  let i ← seek path isMark (path.length + 1) 0
  let mark ← (path ++ [0])[i]?
  scanFrom path i mark

/-- The bytes of the path lead to this start and this rest, and `getdevice` goes on with them. -/
structure Translated (fs : VnodeOps W) (path : CString) (start : Start) (rest : CString) :
    Prop where
  scanned : ∃ k ≤ path.length, scan path = some (start, k) ∧ path.drop k = rest
  runs : getdevice fs path = (do
    let vn ← start.vnode fs
    pure (rest, vn))

/-! ### The loops -/

/-- One round of a loop. -/
theorem seek_succ (stop : UInt8 → Bool) (n : ℕ) {a d : List UInt8} {x : UInt8}
    (hpath : path ++ [0] = a ++ x :: d) :
  seek path stop (n + 1) a.length
    = if stop x then some a.length else seek path stop n (a ++ [x]).length
  := by
  simp [seek, hpath]

/-- A loop stops at the first byte that stops it. -/
theorem seek_eq {stop : UInt8 → Bool} {b d : List UInt8} {c : UInt8} (hb : ∀ x ∈ b, stop x = false)
    (hc : stop c = true) {n : ℕ} (hn : b.length < n) {a : List UInt8}
    (hpath : path ++ [0] = a ++ (b ++ c :: d)) :
  seek path stop n a.length = some (a.length + b.length)
  := by
  obtain ⟨n, rfl⟩ := Nat.exists_eq_add_one_of_ne_zero (Nat.ne_zero_of_lt hn)
  induction b generalizing a n with
  | nil => rw [seek_succ stop n hpath, if_pos hc, List.length_nil, Nat.add_zero]
  | cons x b ih =>
    rw [List.length_cons] at hn
    obtain ⟨n, rfl⟩ := Nat.exists_eq_add_one_of_ne_zero (show n ≠ 0 by omega)
    rw [seek_succ stop (n + 1) hpath, hb x List.mem_cons_self, if_neg (by decide),
      ih (fun y hy => hb y (List.mem_cons_of_mem x hy)) (by simp [hpath]) n (by omega)]
    simp only [List.length_append, List.length_cons, List.length_nil, Option.some.injEq]
    omega

/-- The loops over slashes lead to the rest of the path. -/
theorem seek_slashes (a rest : CString) {n : ℕ} (hn : rest.length < n) :
  ∃ j ≤ (a ++ rest).length,
    seek (a ++ rest) (· != 47) n a.length = some j ∧ (a ++ rest).drop j = skipSlashes rest
  := by
  obtain ⟨n, rfl⟩ := Nat.exists_eq_add_one_of_ne_zero (Nat.ne_zero_of_lt hn)
  induction rest generalizing a n with
  | nil =>
    refine ⟨a.length, by simp, ?_, by simp [skipSlashes]⟩
    rw [seek_succ _ n (x := 0) (d := []) (by simp), if_pos (by decide)]
  | cons c rest ih =>
    have hpath : a ++ c :: rest ++ [0] = a ++ c :: (rest ++ [0]) := by simp
    rw [seek_succ _ n hpath]
    rw [List.length_cons] at hn
    by_cases hc : c = 47
    · subst hc
      obtain ⟨n, rfl⟩ := Nat.exists_eq_add_one_of_ne_zero (show n ≠ 0 by omega)
      obtain ⟨j, hj, hseek, hdrop⟩ := ih (a ++ [47]) n (by omega)
      rw [List.append_assoc, List.singleton_append] at hj hseek hdrop
      exact ⟨j, hj, hseek, hdrop⟩
    · refine ⟨a.length, by simp, ?_, ?_⟩
      · simp [hc]
      · simp [skipSlashes, hc]

theorem findMark_append (hdev : ∀ x ∈ dev, isMark x = false) (i : ℕ) :
  findMark i (dev ++ rest) = findMark (i + dev.length) rest
  := by
  induction dev generalizing i with
  | nil => rfl
  | cons x dev ih =>
    have hx := hdev x List.mem_cons_self
    simp only [isMark, Bool.or_eq_false_iff, decide_eq_false_iff_not] at hx
    rw [List.cons_append, findMark, if_neg hx.1.2, if_neg hx.2,
      ih (fun y hy => hdev y (List.mem_cons_of_mem x hy)), List.length_cons, Nat.add_assoc,
      Nat.add_comm 1]

/-! ### The forms of a path -/

/-- The first loop stops at the first mark, or at the terminator. -/
theorem scan_eq {d : List UInt8} {c : UInt8} (hdev : ∀ x ∈ dev, isMark x = false)
    (hc : isMark c = true) (hpath : path ++ [0] = dev ++ c :: d) :
  scan path = scanFrom path dev.length c
  := by
  have hlen := congrArg List.length hpath
  simp only [List.length_append, List.length_cons, List.length_nil] at hlen
  have hseek : seek path isMark (path.length + 1) ([] : CString).length = some (0 + dev.length) :=
    seek_eq hdev hc (by omega) hpath
  rw [Nat.zero_add, List.length_nil] at hseek
  simp [scan, hseek, hpath]

theorem translated_device (hne : dev ≠ []) (hdev : ∀ x ∈ dev, isMark x = false) (rest : CString) :
  Translated fs (dev ++ 58 :: rest) (.device dev) (skipSlashes rest)
  := by
  obtain ⟨m, hm⟩ := Nat.exists_eq_add_one_of_ne_zero (mt List.length_eq_zero_iff.mp hne)
  constructor
  · obtain ⟨j, hj, hslashes, hdrop⟩ := seek_slashes (dev ++ [58]) rest
      (n := (dev ++ 58 :: rest).length + 1) (by simp; omega)
    have hlen : (dev ++ [58]).length = dev.length + 1 := List.length_append
    rw [List.append_assoc, List.singleton_append] at hj hslashes hdrop
    refine ⟨j, hj, ?_, hdrop⟩
    rw [scan_eq hdev (c := 58) (d := rest ++ [0]) rfl (by simp), scanFrom, if_neg (by simp),
      if_pos (by simp; omega), ← hlen, hslashes, List.take_left]
    rfl
  · simp [getdevice, findMark_append hdev, findMark, hm, Start.vnode, ← List.drop_drop]

/-- Paths with a mark at their front. -/
theorem translated_front {c : UInt8} {start : Start}
    (h : c = 47 ∧ start = .bootfs ∨ c = 58 ∧ start = .curroot) (rest : CString) :
  Translated fs (c :: rest) start (skipSlashes rest)
  := by
  obtain ⟨j, hj, hseek, hdrop⟩ := seek_slashes [c] rest (n := rest.length + 2) (by omega)
  have hmark : isMark c = true := by
    rcases h with ⟨rfl, -⟩ | ⟨rfl, -⟩ <;> rfl
  have hscan : scan (c :: rest) = scanFrom (c :: rest) ([] : CString).length c :=
    scan_eq (by simp) hmark rfl
  rw [List.length_singleton, List.singleton_append] at hseek
  rcases h with ⟨rfl, rfl⟩ | ⟨rfl, rfl⟩
  all_goals
    refine ⟨⟨j, hj, ?_, hdrop⟩, rfl⟩
    rw [hscan]
    simp [scanFrom, hseek]

/-- Paths without a device. -/
theorem translated_curdir (hnul : 0 ∉ path)
    (hcolon : ∀ dev rest, path = dev ++ 58 :: rest → 47 ∈ dev) (hslash : path.head? ≠ some 47) :
  Translated fs path .curdir path
  := by
  have hsplit := List.takeWhile_append_dropWhile (p := fun c => !isMark c) (l := path)
  have hdev : ∀ x ∈ path.takeWhile (fun c => !isMark c), isMark x = false := by
    intro x hx
    simpa using List.all_eq_true.mp List.all_takeWhile x hx
  have hhead := List.head?_dropWhile_not (fun c => !isMark c) path
  generalize path.takeWhile (fun c => !isMark c) = dev at hsplit hdev
  cases hrest : path.dropWhile (fun c => !isMark c) with
  | nil =>
    -- there is no mark
    rw [hrest, List.append_nil] at hsplit
    subst hsplit
    have hfind : findMark 0 (dev ++ []) = findMark (0 + dev.length) [] := findMark_append hdev 0
    rw [List.append_nil] at hfind
    refine ⟨⟨0, Nat.zero_le _, ?_, rfl⟩, ?_⟩
    · rw [scan_eq hdev (c := 0) (d := []) rfl rfl, scanFrom, if_pos (by simp)]
    · rw [getdevice, hfind]
      rfl
  | cons c d =>
    -- the first mark is a slash behind other bytes
    rw [hrest] at hsplit hhead
    subst hsplit
    have hnot : c ≠ 0 := by
      rintro rfl
      simp at hnul
    have hne : c ≠ 58 := by
      rintro rfl
      have hbefore := hdev 47 (hcolon dev d rfl)
      contradiction
    obtain rfl : c = 47 := by simpa [isMark, hnot, hne] using hhead
    obtain ⟨m, hm⟩ : ∃ m, dev.length = m + 1 := by
      cases dev with
      | nil => exact absurd rfl hslash
      | cons x dev => exact ⟨dev.length, rfl⟩
    refine ⟨⟨0, Nat.zero_le _, ?_, rfl⟩, ?_⟩
    · rw [scan_eq hdev (c := 47) (d := d ++ [0]) rfl (by simp), scanFrom,
        if_pos (by simp [hm]; omega)]
    · simp [getdevice, findMark_append hdev, findMark, hm, Start.vnode]

theorem skipSlashes_replicate (n : ℕ) (rest : CString) :
  skipSlashes (List.replicate n 47 ++ rest) = skipSlashes rest
  := by
  induction n with
  | zero => rfl
  | succ n ih =>
    rw [List.replicate_succ, List.cons_append, skipSlashes, List.dropWhile_cons_of_pos rfl]
    apply ih

theorem head?_skipSlashes (rest : CString) :
  (skipSlashes rest).head? ≠ some 47
  := by
  intro h
  have hhead := List.head?_dropWhile_not (· == 47) rest
  rw [skipSlashes] at h
  simp [h] at hhead

/-- What `getdevice` makes of a path of each of the four forms; slashes behind the device make no
difference. -/
theorem getdevice_translates (fs : VnodeOps W) :
  (∀ dev rest : CString, dev ≠ [] → (∀ x ∈ dev, x ≠ 0 ∧ x ≠ 58 ∧ x ≠ 47) → ∀ n,
    Translated fs (dev ++ 58 :: (List.replicate n 47 ++ rest)) (.device dev) (skipSlashes rest))
  ∧ (∀ (rest : CString) n,
    Translated fs (47 :: (List.replicate n 47 ++ rest)) .bootfs (skipSlashes rest)
      ∧ Translated fs (58 :: (List.replicate n 47 ++ rest)) .curroot (skipSlashes rest))
  ∧ (∀ path : CString, 0 ∉ path → (∀ dev rest, path = dev ++ 58 :: rest → 47 ∈ dev) →
    path.head? ≠ some 47 → Translated fs path .curdir path)
  ∧ ∀ rest : CString, (skipSlashes rest).head? ≠ some 47
  := by
  refine ⟨?_, ?_, ?_, head?_skipSlashes⟩
  · intro dev rest hne hdev n
    rw [← skipSlashes_replicate n rest]
    apply translated_device hne
    intro x hx
    simp [isMark, hdev x hx]
  · intro rest n
    rw [← skipSlashes_replicate n rest]
    exact ⟨translated_front (.inl ⟨rfl, rfl⟩) _, translated_front (.inr ⟨rfl, rfl⟩) _⟩
  · intro path hnul hcolon hslash
    apply translated_curdir hnul hcolon hslash

/-! ### The boot file system -/

/-- Both calls return the same result and leave the same boot vnode and current directory. -/
def SameOutcome : Outcome Errno VfsPanic (Vfs W) Unit → Outcome Errno VfsPanic (Vfs W) Unit → Prop
  | .ok _ s, .ok _ s' => s.bootfs = s'.bootfs ∧ s.cwd = s'.cwd
  | .err e s, .err e' s' => e = e' ∧ s.bootfs = s'.bootfs ∧ s.cwd = s'.cwd
  | _, _ => False

/-- What `vfs.h` says of the colon behind a name. -/
structure ColonOptional (fs : VnodeOps W) (s : Vfs W) (name : CString) : Prop where
  same : name.length ≤ 253 → 58 ∉ name → 47 ∉ name →
    SameOutcome (setbootfs fs name s) (setbootfs fs (name ++ [58]) s)
  /-- A colon before the end, in a name that the buffer holds. -/
  inner : name.length ≤ 254 → 58 ∈ name.dropLast → setbootfs fs name s = .err .einval s

/-- A routine that does not answer `EINVAL`. -/
def Mild {α : Type} (m : Run W α) : Prop :=
  ∀ s, wlp (fun _ => True) m s (fun _ _ => True) (fun e _ => e ≠ .einval)

/-- File systems that do not answer `EINVAL` when `vfs_chdir` asks for a root directory. -/
structure MildRoots (fs : VnodeOps W) : Prop where
  getroot : ∀ f, Mild (fs.getroot f)
  gettype : ∀ vn, Mild (fs.gettype vn)

theorem mild_attempt {α : Type} (m : Run W α) {Q : Except Errno α → Vfs W → Prop}
    {E : Errno → Vfs W → Prop} (hQ : ∀ r s, Q r s) (s : Vfs W) :
  wlp (fun _ => True) (attempt m) s Q E
  := by
  unfold wlp attempt
  cases m s with
  | ok | err => apply hQ
  | panic p => trivial

theorem mild_decref (vn : VnodeId) :
  Mild (decref fs vn)
  := by
  intro s
  simp [decref, wlp_bind, wlp_get, wlp_assert, wlp_ite, wlp_modify, wlp_pure, mild_attempt]

theorem mild_incref (vn : VnodeId) :
  Mild (incref vn : Run W Unit)
  := by
  intro s
  simp [incref, touch, wlp_bind, wlp_get, wlp_assert, wlp_modify]

theorem mild_getcurdir :
  Mild (getcurdir : Run W VnodeId)
  := by
  intro s
  rw [getcurdir, wlp_bind, wlp_get]
  cases s.cwd with
  | none => simp [wlp_fail]
  | some vn => simp [wlp_bind, wlp_pure, mild_incref vn s]

theorem mild_decrefOld (old : Option VnodeId) :
  Mild (decrefOld fs old)
  := by
  cases old with
  | none => exact fun _ => trivial
  | some old => apply mild_decref

theorem mild_setcurdir (hfs : MildRoots fs) (vn : VnodeId) :
  Mild (setcurdir fs vn)
  := by
  intro s
  simp [setcurdir, vop, wlp_bind, wlp_get, wlp_assert, wlp_ite, wlp_fail, wlp_modify,
    mild_decrefOld _ _, mild_incref vn _, hfs.gettype vn _]

theorem mild_findRoot (devname : CString) (devs : List KnownDev) :
  Mild (Devices.findRoot devname devs : Run W DevRoot)
  := by
  intro s
  induction devs with
  | nil => simp [Devices.findRoot, wlp_fail]
  | cons kd rest ih =>
    have hnext : wlp (fun _ => True) (kd.orDevice devname (Devices.findRoot devname rest)) s
        (fun _ _ => True) (fun e _ => e ≠ .einval) := by
      simp [KnownDev.orDevice, wlp_ite, wlp_bind, wlp_assert, wlp_pure, ih]
    rw [Devices.findRoot]
    cases kd.fs with
    | none => simp [wlp_ite, wlp_fail, hnext]
    | some f => simp [wlp_ite, wlp_pure, hnext]

variable {name : CString}

/-- The root directory that a name with a colon stands for. -/
theorem mild_lookup (hfs : MildRoots fs) (hname : ∀ x ∈ name, isMark x = false) :
  Mild (lookup fs (name ++ [58]))
  := by
  intro s
  by_cases hne : name = []
  · subst hne
    rw [lookup, List.nil_append, (translated_front (.inr ⟨rfl, rfl⟩) []).runs]
    simp only [Start.vnode, getcurroot, touch, wlp_bind, wlp_get, wlp_assert]
    apply wlp_imp (mild_getcurdir s)
    intro vn s' _
    refine ⟨fun _ => ?_, fun _ => trivial⟩
    cases fs.vnFs vn s' with
    | none => trivial
    | some f =>
      simp [skipSlashes, wlp_bind, wlp_pure, mild_decref vn _, hfs.getroot f _]
  · rw [lookup, (translated_device hne hname []).runs]
    simp only [Start.vnode, getroot, wlp_bind, wlp_get]
    apply wlp_imp (mild_findRoot name s.knowndevs s)
    intro r s' _
    cases r with
    | fs f => simp [skipSlashes, hfs.getroot f s', wlp_pure]
    | device vn => simp [skipSlashes, mild_incref vn s', wlp_bind, wlp_pure]

theorem mild_chdir (hfs : MildRoots fs) (hname : ∀ x ∈ name, isMark x = false) :
  Mild (chdir fs (name ++ [58]))
  := by
  intro s
  simp only [chdir, thenDecref, wlp_bind, wlp_attempt]
  apply wlp_imp (mild_lookup hfs hname s)
  intro vn s' _
  apply wlp_mono (mild_setcurdir hfs vn s')
  · intro _ s'' _
    simp [giveBack, wlp_pure, mild_decref vn s'']
  · intro e s'' he
    apply wlp_imp (mild_decref vn s'')
    exact fun _ _ _ => he

theorem setbootfs_colon {s : Vfs W} (h : 58 ∈ name.take 254) :
  setbootfs fs name s = .err .einval s
  := by
  rw [setbootfs, if_pos h]
  rfl

/-- A name with a colon at its end is refused, so that the two spellings never agree. -/
theorem setbootfs_colon_iff (fs : VnodeOps W) (s : Vfs W) (name : CString) (hfs : MildRoots fs)
    (hnul : 0 ∉ name) :
  ColonOptional fs s name ↔ 253 < name.length ∨ 58 ∈ name ∨ 47 ∈ name
  := by
  constructor
  · intro h
    by_contra hnot
    simp only [not_or, Nat.not_lt] at hnot
    obtain ⟨hlen, hcolon, hslash⟩ := hnot
    have hname : ∀ x ∈ name, isMark x = false := by
      intro x hx
      simp [isMark, ne_of_mem_of_not_mem hx hnul, ne_of_mem_of_not_mem hx hcolon,
        ne_of_mem_of_not_mem hx hslash]
    have hrefused : setbootfs fs (name ++ [58]) s = .err .einval s := by
      apply setbootfs_colon
      rw [List.take_of_length_le (by rw [List.length_append, List.length_singleton]; omega)]
      apply List.mem_append_right name List.mem_cons_self
    have hsame := h.same hlen hcolon hslash
    rw [hrefused] at hsame
    have hmild : wlp (fun _ => True) (setbootfs fs name) s (fun _ _ => True)
        (fun e _ => e ≠ .einval) := by
      rw [setbootfs, List.take_of_length_le (by omega), if_neg hcolon]
      simp [changeBootfs, wlp_bind, wlp_get, wlp_modify, mild_chdir hfs hname s,
        mild_getcurdir _, mild_decrefOld _ _]
    cases hrun : setbootfs fs name s with
    | ok _ s' => simp [hrun, SameOutcome] at hsame
    | err e s' =>
      rw [hrun] at hsame
      exact wlp_err hmild hrun hsame.1
    | panic p => simp [hrun, SameOutcome] at hsame
  · intro hor
    constructor
    · intro hlen hcolon hslash
      rcases hor with hlong | hmem | hmem
      · omega
      · exact absurd hmem hcolon
      · exact absurd hmem hslash
    · intro hlen hinner
      apply setbootfs_colon
      rw [List.take_of_length_le hlen]
      exact List.dropLast_subset name hinner

theorem mildRoots_oneFile :
  MildRoots (oneFile false)
  := ⟨fun _ _ => trivial, fun _ _ => trivial⟩

/-- A name with a colon in the middle. -/
theorem setbootfs_colon_iff_inner :
  ColonOptional (oneFile false) atRoot [97, 58, 98]
  := (setbootfs_colon_iff (oneFile false) atRoot _ mildRoots_oneFile (by decide)).mpr
    (.inr (.inl (by decide)))

/-- There is no device `a`: without the colon the call fails with `ENODEV`. -/
theorem not_colonOptional_a :
  ¬ ColonOptional (oneFile false) atRoot [97]
  := by
  intro h
  have hsame := h.same (by decide) (by decide) (by decide)
  exact Errno.noConfusion hsame.1

end Vfs
