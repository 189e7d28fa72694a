import AzureSpider.Userprog.UserMemory

/-!
# Copies between user memory and the kernel

`copyin`, `copyout`, `copyinstr` and `copyoutstr` of `copyinout.c`.  `copycheck` finds out how much
of a range is user memory; the copy that follows is done under `setjmp`, and a fault in it goes to
`copyfail`, which jumps back.

The check computes the last address of the range.  An empty range has none, and is refused
(`copycheck_zero`); every other range is accepted if and only if it is user memory
(`accepted_iff`).
-/

open Machine Routine

open Userprog (copycheck)

/-- Whose memory an address is in. -/
inductive Space where
  | user | kernel
  deriving DecidableEq, Repr

/-- A pointer. -/
structure Pointer where
  space : Space
  addr : ℕ
  deriving DecidableEq, Repr

namespace Pointer

/-- The pointer to the `i`th byte. -/
def add (q : Pointer) (i : ℕ) : Pointer := ⟨q.space, u32 (q.addr + i)⟩

/-- In the 32-bit addresses no two bytes of an object are at the same place. -/
theorem add_injective (q : Pointer) {i j : ℕ} (hi : i < 2 ^ 32) (hj : j < 2 ^ 32)
    (h : q.add i = q.add j) :
  i = j
  := by
  have haddr : u32 (q.addr + i) = u32 (q.addr + j) := congrArg addr h
  unfold u32 at haddr
  omega

theorem add_ne_of_space {q r : Pointer} (h : q.space ≠ r.space) (i j : ℕ) :
  q.add i ≠ r.add j
  := by
  intro heq
  have hspace := congrArg space heq
  exact h hspace

end Pointer

/-- The end of the kernel for an access to user memory that fails outside of a copy. -/
inductive CopyPanic where
  | fatalFault
  deriving DecidableEq, Repr

/-- The machine as the copies use it. -/
structure Copying where
  mem : Pointer → UInt8
  /-- The user addresses for which `vm_fault` returns an error. -/
  faults : ℕ → Bool
  /-- Whether `pcb_badfaultfunc` is `copyfail`; otherwise it is NULL. -/
  badfaultfunc : Bool
  /-- The user addresses that have been read or written. -/
  touched : List ℕ

namespace Copying

/-- Routines on the machine. -/
abbrev Run (α : Type) := Routine Errno CopyPanic Copying α

/-- An access.  The error is the jump of `copyfail`. -/
def touch (q : Pointer) : Run Unit := do
  let s ← get
  match q.space with
  | .kernel => pure ()
  | .user =>
    if s.faults q.addr then
      if s.badfaultfunc then fail .efault else Routine.panic .fatalFault
    else
      modify fun s => { s with touched := q.addr :: s.touched }

/-- Read a byte. -/
def load (q : Pointer) : Run UInt8 := do
  touch q
  let s ← get
  pure (s.mem q)

/-- Write a byte. -/
def store (q : Pointer) (c : UInt8) : Run Unit := do
  touch q
  modify fun s => { s with mem := Function.update s.mem q c }

/-- `memcpy` of `n` bytes from the `i`th on. -/
def memcpy (dest src : Pointer) : (n i : ℕ) → Run Unit
  | 0, _ => pure ()
  | n + 1, i => do
      let c ← load (src.add i)
      store (dest.add i) c
      memcpy dest src n (i + 1)

/-- The loop of `copystr` for `n` more bytes: the length with the terminator, if there is one. -/
def copystrFrom (dest src : Pointer) : (n i : ℕ) → Run (Option ℕ)
  | 0, _ => pure none
  | n + 1, i => do
      let c ← load (src.add i)
      store (dest.add i) c
      let c ← load (src.add i)
      if c = 0 then pure (some (i + 1)) else copystrFrom dest src n (i + 1)

/-- `copystr`: the error it returns, or the length it stores in `gotlen`. -/
def copystr (dest src : Pointer) (maxlen stoplen : ℕ) : Run (Except Errno ℕ) := do
  match ← copystrFrom dest src (min maxlen stoplen) 0 with
  | some gotlen => pure (.ok gotlen)
  | none => pure (.error (if stoplen < maxlen then .efault else .enametoolong))

/-- What is done with `copyfail` in place. -/
def protect {α : Type} (m : Run (Except Errno α)) : Run α := do
  modify fun s => { s with badfaultfunc := true }
  match ← attempt m with
  | .error _ => do
      -- the second return of `setjmp`
      modify fun s => { s with badfaultfunc := false }
      fail .efault
  | .ok result => do
      modify fun s => { s with badfaultfunc := false }
      match result with
      | .ok a => pure a
      | .error e => fail e

/-- A copy of one block at the user address `userptr`. -/
def copyBlock (userptr : ℕ) (dest src : Pointer) (len : ℕ) : Run Unit :=
  match copycheck userptr len with
  | (_, some e) => fail e
  | (stoplen, none) =>
    if stoplen ≠ len then
      fail .efault
    else
      protect do
        memcpy dest src len 0
        pure (.ok ())

/-- `copyin`. -/
def copyin (usersrc dest len : ℕ) : Run Unit :=
  copyBlock usersrc ⟨.kernel, dest⟩ ⟨.user, usersrc⟩ len

/-- `copyout`. -/
def copyout (src userdest len : ℕ) : Run Unit :=
  copyBlock userdest ⟨.user, userdest⟩ ⟨.kernel, src⟩ len

/-- A copy of a string at the user address `userptr`. -/
def copyString (userptr : ℕ) (dest src : Pointer) (len : ℕ) : Run ℕ :=
  match copycheck userptr len with
  | (_, some e) => fail e
  | (stoplen, none) => protect (copystr dest src len stoplen)

/-- `copyinstr`; the value is the length it stores in `actual`. -/
def copyinstr (usersrc dest len : ℕ) : Run ℕ :=
  copyString usersrc ⟨.kernel, dest⟩ ⟨.user, usersrc⟩ len

/-- `copyoutstr`; the value is the length it stores in `actual`. -/
def copyoutstr (src userdest len : ℕ) : Run ℕ :=
  copyString userdest ⟨.user, userdest⟩ ⟨.kernel, src⟩ len

/-! ### The check -/

section Check

variable {p n : ℕ}

/-- An empty range is refused, or its length is not the length that can be copied. -/
theorem copycheck_zero (hp : p < 2 ^ 32) :
  copycheck p 0 = if p = 0 then (userTop, none) else (0, some .efault)
  := by
  by_cases hzero : p = 0
  · subst hzero
    rfl
  · have hlast : toU32 ((p : ℤ) + (0 : ℕ) - 1) < p := by
      unfold toU32
      omega
    simp only [copycheck]
    rw [if_pos hlast, if_neg hzero]

/-- A range that does not run past the last address. -/
theorem copycheck_of_le (hpos : 0 < n) (h : p + n ≤ 2 ^ 32) :
  copycheck p n
    = if userTop ≤ p then (n, some .efault)
      else if userTop < p + n then (userTop - p, none)
      else (n, none)
  := by
  have hlast : toU32 ((p : ℤ) + n - 1) = p + n - 1 := by
    unfold toU32
    omega
  simp only [copycheck, hlast]
  have hover : userTop ≤ p + n - 1 ↔ userTop < p + n := by omega
  rw [if_neg (by omega)]
  simp only [hover]

/-- A range that runs past the last address is refused. -/
theorem copycheck_of_wrap (hp : p < 2 ^ 32) (hn : n < 2 ^ 32) (h : 2 ^ 32 < p + n) :
  copycheck p n = (n, some .efault)
  := by
  have hlast : toU32 ((p : ℤ) + n - 1) < p := by
    unfold toU32
    omega
  simp only [copycheck]
  rw [if_pos hlast]

/-- A range that is not empty is accepted as a block if and only if it is user memory. -/
theorem accepted_iff (hp : p < 2 ^ 32) (hn : n < 2 ^ 32) (hpos : 0 < n) :
  copycheck p n = (n, none) ↔ p + n ≤ userTop
  := by
  have htop := Userprog.userTop_eq
  by_cases hwrap : 2 ^ 32 < p + n
  · rw [copycheck_of_wrap hp hn hwrap]
    exact iff_of_false nofun (by omega)
  · rw [copycheck_of_le hpos (Nat.le_of_not_lt hwrap)]
    split
    · exact iff_of_false nofun (by omega)
    · split
      · apply iff_of_false
        · intro h
          have hlen := congrArg Prod.fst h
          dsimp only at hlen
          omega
        · omega
      · exact iff_of_true rfl (by omega)

/-- Every address of the range is a user address. -/
def InUser (p n : ℕ) : Prop := ∀ a, p ≤ a → a < p + n → a < userTop

theorem inUser_iff (hpos : 0 < n) :
  InUser p n ↔ p + n ≤ userTop
  := by
  constructor
  · intro h
    have hlast := h (p + n - 1) (by omega) (by omega)
    omega
  · intro h a _ ha
    exact Nat.lt_of_lt_of_le ha h

theorem inUser_zero (p : ℕ) :
  InUser p 0
  := by
  intro a hle hlt
  exact absurd hlt (Nat.not_lt_of_le hle)

end Check

/-! ### Bytes -/

section Bytes

variable {s s' : Copying} {dest src q : Pointer} {c : UInt8} {k n : ℕ}

/-- The machine after an access. -/
def noted (s : Copying) (q : Pointer) : Copying :=
  match q.space with
  | .kernel => s
  | .user => { s with touched := q.addr :: s.touched }

/-- No access to user memory fails. -/
def Sound (s : Copying) : Prop := ∀ a, s.faults a = false

@[simp]
theorem noted_mem (s : Copying) (q : Pointer) :
  (s.noted q).mem = s.mem
  := by
  unfold noted
  cases q.space <;> rfl

@[simp]
theorem noted_faults (s : Copying) (q : Pointer) :
  (s.noted q).faults = s.faults
  := by
  unfold noted
  cases q.space <;> rfl

@[simp]
theorem noted_badfaultfunc (s : Copying) (q : Pointer) :
  (s.noted q).badfaultfunc = s.badfaultfunc
  := by
  unfold noted
  cases q.space <;> rfl

theorem mem_noted_touched {a : ℕ} (h : a ∈ (s.noted q).touched) :
  a ∈ s.touched ∨ q = ⟨.user, a⟩
  := by
  obtain ⟨space, addr⟩ := q
  cases space with
  | kernel => exact .inl h
  | user =>
    rcases List.mem_cons.mp h with rfl | hold
    · exact .inr rfl
    · exact .inl hold

theorem Sound.noted (h : s.Sound) (q : Pointer) :
  (s.noted q).Sound
  := by
  intro a
  rw [noted_faults]
  exact h a

theorem touch_eq (h : s.Sound) (q : Pointer) :
  touch q s = .ok () (s.noted q)
  := by
  obtain ⟨space, addr⟩ := q
  cases space with
  | kernel => rfl
  | user =>
    have hfault := h addr
    simp only [touch, get_bind, hfault]
    rfl

variable {E : Errno → Copying → Prop}

theorem wp_load (h : s.Sound) (hQ : Q (s.mem q) (s.noted q)) :
  wp (load q) s Q E
  := by
  simp only [load, wp_bind, wp_get, wp_pure]
  apply wp_of_ok (touch_eq h q)
  rw [noted_mem]
  exact hQ

/-- The machine after a byte is written. -/
def stored (s : Copying) (q : Pointer) (c : UInt8) : Copying :=
  { s.noted q with mem := Function.update s.mem q c }

theorem wp_store (h : s.Sound) (hQ : Q () (s.stored q c)) :
  wp (store q c) s Q E
  := by
  simp only [store, wp_bind, wp_modify]
  apply wp_of_ok (touch_eq h q)
  rw [noted_mem]
  exact hQ

/-- The first `k` bytes have been copied, and nothing else is different. -/
structure Copied (dest src : Pointer) (k : ℕ) (s s' : Copying) : Prop where
  same : ∀ j < k, s'.mem (dest.add j) = s.mem (src.add j)
  frame : ∀ q, (∀ j < k, q ≠ dest.add j) → s'.mem q = s.mem q
  faults : s'.faults = s.faults
  badfaultfunc : s'.badfaultfunc = s.badfaultfunc
  touched : ∀ a ∈ s'.touched,
    a ∈ s.touched ∨ ∃ j < k, dest.add j = ⟨.user, a⟩ ∨ src.add j = ⟨.user, a⟩

theorem Copied.refl (dest src : Pointer) (s : Copying) :
  Copied dest src 0 s s
  := by
  constructor
  · intro j hj
    exact absurd hj (Nat.not_lt_zero j)
  · intro q _
    rfl
  · rfl
  · rfl
  · intro a ha
    exact .inl ha

theorem Copied.sound (h : Copied dest src k s s') (hs : s.Sound) :
  s'.Sound
  := by
  intro a
  rw [h.faults]
  exact hs a

/-- The source is not changed by the copy. -/
theorem Copied.source (h : Copied dest src k s s') (hspace : dest.space ≠ src.space) (i : ℕ) :
  s'.mem (src.add i) = s.mem (src.add i)
  := by
  apply h.frame
  intro j _ heq
  exact Pointer.add_ne_of_space hspace j i heq.symm

/-- The last byte of the source may be read again. -/
theorem Copied.again (h : Copied dest src (k + 1) s s') :
  Copied dest src (k + 1) s (s'.noted (src.add k))
  := by
  constructor
  · rw [noted_mem]
    exact h.same
  · rw [noted_mem]
    exact h.frame
  · rw [noted_faults]
    exact h.faults
  · rw [noted_badfaultfunc]
    exact h.badfaultfunc
  · intro a ha
    rcases mem_noted_touched ha with hold | hnew
    · exact h.touched a hold
    · exact .inr ⟨k, Nat.lt_succ_self k, .inr hnew⟩

/-- One more byte. -/
theorem Copied.step (h : Copied dest src k s s') (hspace : dest.space ≠ src.space)
    (hk : k < 2 ^ 32) :
  Copied dest src (k + 1) s
    ((s'.noted (src.add k)).stored (dest.add k) (s'.mem (src.add k)))
  := by
  constructor
  · intro j hj
    simp only [stored, noted_mem]
    by_cases hjk : j = k
    · subst hjk
      rw [Function.update_self, h.source hspace]
    · have hne : dest.add j ≠ dest.add k := by
        intro heq
        exact hjk (dest.add_injective (by omega) hk heq)
      rw [Function.update_of_ne hne]
      exact h.same j (by omega)
  · intro q hq
    simp only [stored, noted_mem]
    rw [Function.update_of_ne (hq k (Nat.lt_succ_self k))]
    apply h.frame
    intro j hj
    exact hq j (Nat.lt_succ_of_lt hj)
  · simp only [stored, noted_faults]
    exact h.faults
  · simp only [stored, noted_badfaultfunc]
    exact h.badfaultfunc
  · intro a ha
    rcases mem_noted_touched ha with ha | hdest
    · rcases mem_noted_touched ha with hold | hsrc
      · rcases h.touched a hold with hold | ⟨j, hj, hat⟩
        · exact .inl hold
        · exact .inr ⟨j, Nat.lt_succ_of_lt hj, hat⟩
      · exact .inr ⟨k, Nat.lt_succ_self k, .inr hsrc⟩
    · exact .inr ⟨k, Nat.lt_succ_self k, .inl hdest⟩

/-- The body of both loops: a byte is read and written. -/
theorem wp_move {α : Type} {m : Run α} {Q : α → Copying → Prop} (h : Copied dest src k s s')
    (hs : s.Sound)
    (hm : wp m ((s'.noted (src.add k)).stored (dest.add k) (s'.mem (src.add k))) Q E) :
  wp
    (do
      let c ← load (src.add k)
      store (dest.add k) c
      m) s' Q E
  := by
  have hs' := h.sound hs
  simp only [wp_bind]
  apply wp_load hs'
  apply wp_store (hs'.noted _)
  exact hm

/-- `memcpy` copies all its bytes. -/
theorem memcpy_spec {i : ℕ} (hs : s.Sound) (hspace : dest.space ≠ src.space) (hin : i + n ≤ 2 ^ 32)
    (h : Copied dest src i s s') :
  wp (memcpy dest src n i) s' (fun _ s'' => Copied dest src (i + n) s s'') E
  := by
  induction n generalizing i s' with
  | zero =>
    rw [memcpy, wp_pure]
    exact h
  | succ n ih =>
    simp only [memcpy]
    apply wp_move h hs
    have hstep := ih (by omega) (h.step hspace (by omega))
    rwa [Nat.add_right_comm] at hstep

/-- The first terminator among the first `m` bytes of a string is its `k`th byte. -/
def FirstNul (f : ℕ → UInt8) (m k : ℕ) : Prop := k < m ∧ f k = 0 ∧ ∀ j < k, f j ≠ 0

/-- What the loop of `copystr` has found and done after at most `m` bytes. -/
def StringCopied (dest src : Pointer) (m : ℕ) (s s' : Copying) : Option ℕ → Prop
  | some gotlen => ∃ k, gotlen = k + 1 ∧ FirstNul (fun i => s.mem (src.add i)) m k
      ∧ Copied dest src (k + 1) s s'
  | none => (∀ k < m, s.mem (src.add k) ≠ 0) ∧ Copied dest src m s s'

/-- The loop of `copystr` stops at the first terminator. -/
theorem copystrFrom_spec {i : ℕ} (hs : s.Sound) (hspace : dest.space ≠ src.space)
    (hin : i + n ≤ 2 ^ 32) (h : Copied dest src i s s') (hbefore : ∀ j < i, s.mem (src.add j) ≠ 0) :
  wp (copystrFrom dest src n i) s'
    (fun gotlen s'' => StringCopied dest src (i + n) s s'' gotlen) E
  := by
  induction n generalizing i s' with
  | zero =>
    rw [copystrFrom, wp_pure]
    exact ⟨hbefore, h⟩
  | succ n ih =>
    simp only [copystrFrom]
    apply wp_move h hs
    have hstep := h.step hspace (by omega)
    rw [wp_bind]
    apply wp_load (hstep.sound hs)
    rw [hstep.source hspace, wp_ite]
    constructor
    · intro hzero
      rw [wp_pure]
      exact ⟨i, rfl, ⟨by omega, hzero, hbefore⟩, hstep.again⟩
    · intro hne
      have hnext := ih (i := i + 1) (by omega) hstep.again (by
        intro j hj
        rcases Nat.lt_succ_iff_lt_or_eq.mp hj with hlt | rfl
        · exact hbefore j hlt
        · exact hne)
      rwa [Nat.add_right_comm] at hnext

end Bytes

/-! ### Returns -/

section Returns

variable {s s' : Copying} {dest src q : Pointer} {p k m n len : ℕ}

/-- A copy has returned: the first `k` bytes are copied and nothing else is written, no address of
the kernel has been taken for a user address, and `pcb_badfaultfunc` is NULL. -/
structure Returned (dest src : Pointer) (k : ℕ) (s s' : Copying) : Prop where
  same : ∀ j < k, s'.mem (dest.add j) = s.mem (src.add j)
  frame : ∀ q, (∀ j < k, q ≠ dest.add j) → s'.mem q = s.mem q
  below : ∀ a ∈ s'.touched, a ∈ s.touched ∨ a < userTop
  badfaultfunc : s'.badfaultfunc = false

/-- If the pointer is to user memory, then so are `m` bytes from there on. -/
def Below (q : Pointer) (m : ℕ) : Prop := q.space = .user → q.addr + m ≤ userTop

theorem below_kernel (a m : ℕ) :
  Below ⟨.kernel, a⟩ m
  := by
  intro h
  cases h

theorem Below.lt {a j : ℕ} (h : Below q m) (hj : j < m) (hat : q.add j = ⟨.user, a⟩) :
  a < userTop
  := by
  have hspace : q.space = .user := congrArg Pointer.space hat
  have haddr : u32 (q.addr + j) = a := congrArg Pointer.addr hat
  have hm := h hspace
  have htop := Userprog.userTop_eq
  rw [u32_of_lt (by omega)] at haddr
  omega

/-- The return of a copy that has been done with `copyfail` in place. -/
theorem Copied.returned (h : Copied dest src k { s with badfaultfunc := true } s')
    (hdest : Below dest k) (hsrc : Below src k) :
  Returned dest src k s { s' with badfaultfunc := false }
  := by
  constructor
  · exact h.same
  · exact h.frame
  · intro a ha
    rcases h.touched a ha with hold | ⟨j, hj, hat | hat⟩
    · exact .inl hold
    · exact .inr (hdest.lt hj hat)
    · exact .inr (hsrc.lt hj hat)
  · rfl

theorem Below.mono (h : Below q m) (hk : k ≤ m) :
  Below q k
  := by
  intro hspace
  exact Nat.le_trans (Nat.add_le_add_left hk _) (h hspace)

/-- A copy that is done with `copyfail` in place, without a fault. -/
theorem wp_protect {α : Type} {run : Run (Except Errno α)} {Q : α → Copying → Prop}
    {E : Errno → Copying → Prop}
    (h : wp run { s with badfaultfunc := true }
      (fun result s' =>
        match result with
        | .ok a => Q a { s' with badfaultfunc := false }
        | .error e => E e { s' with badfaultfunc := false })) :
  wp (protect run) s Q E
  := by
  simp only [protect, wp_bind, wp_modify, wp_attempt]
  apply wp_sure h
  intro result s' hresult
  cases result with
  | ok a => exact (wp_pure a).mpr hresult
  | error e => exact (wp_fail e).mpr hresult

/-! ### Blocks -/

/-- The copy returns 0, with the block copied, if and only if the range is user memory; otherwise
it returns `EFAULT` and copies nothing. -/
def Accepts (run : Run Unit) (p n : ℕ) (dest src : Pointer) (s : Copying) : Prop :=
  wp run s
    (fun _ s' => InUser p n ∧ Returned dest src n s s')
    (fun e s' => ¬ InUser p n ∧ e = .efault ∧ s' = s)

/-- A range that the check does not accept as a block is refused. -/
theorem copyBlock_refused (h : copycheck p n ≠ (n, none)) (dest src : Pointer) (s : Copying) :
  copyBlock p dest src n s = .err .efault s
  := by
  have herror : ∀ stoplen e, copycheck p n = (stoplen, some e) → e = .efault := by
    intro stoplen e heq
    simp only [copycheck] at heq
    split_ifs at heq <;> cases heq <;> rfl
  simp only [copyBlock]
  cases hcheck : copycheck p n with
  | mk stoplen result =>
    cases result with
    | some e =>
      rw [herror stoplen e hcheck]
      rfl
    | none =>
      have hne : stoplen ≠ n := by
        rintro rfl
        exact h hcheck
      simp only [ne_eq, hne, not_false_eq_true, if_true]
      rfl

/-- A range that the check accepts is copied. -/
theorem copyBlock_accepted (h : copycheck p n = (n, none)) (hn : n < 2 ^ 32) (hs : s.Sound)
    (hspace : dest.space ≠ src.space) (hdest : Below dest n) (hsrc : Below src n)
    {E : Errno → Copying → Prop} :
  wp (copyBlock p dest src n) s (fun _ s' => Returned dest src n s s') E
  := by
  simp only [copyBlock, h, ne_eq, not_true_eq_false, if_false]
  apply wp_protect
  rw [wp_bind]
  have hcopy : wp (memcpy dest src n 0) { s with badfaultfunc := true }
      (fun _ s' => Copied dest src (0 + n) { s with badfaultfunc := true } s') :=
    memcpy_spec hs hspace (by omega) (Copied.refl dest src _)
  apply wp_sure hcopy
  intro _ s' hcopied
  rw [Nat.zero_add] at hcopied
  rw [wp_pure]
  exact hcopied.returned hdest hsrc

/-- A range that is not empty is accepted exactly if it is user memory. -/
theorem copyBlock_accepts (hp : p < 2 ^ 32) (hn : n < 2 ^ 32) (hpos : 0 < n) (hs : s.Sound)
    (hspace : dest.space ≠ src.space) (hdest : p + n ≤ userTop → Below dest n)
    (hsrc : p + n ≤ userTop → Below src n) :
  Accepts (copyBlock p dest src n) p n dest src s
  := by
  by_cases hin : p + n ≤ userTop
  · have haccepted := (accepted_iff hp hn hpos).mpr hin
    apply wp_imp (copyBlock_accepted haccepted hn hs hspace (hdest hin) (hsrc hin))
    intro _ s' hreturned
    exact ⟨(inUser_iff hpos).mpr hin, hreturned⟩
  · have hnot : copycheck p n ≠ (n, none) := fun h => hin ((accepted_iff hp hn hpos).mp h)
    apply wp_of_err (copyBlock_refused hnot dest src s)
    exact ⟨fun h => hin ((inUser_iff hpos).mp h), rfl, rfl⟩

/-- An empty range is refused. -/
theorem copyBlock_empty (hp : p < 2 ^ 32) (dest src : Pointer) (s : Copying) :
  copyBlock p dest src 0 s = .err .efault s
  := by
  apply copyBlock_refused
  rw [copycheck_zero hp]
  split
  · decide
  · simp

/-- `stoplen` is different from the length exactly for ranges that start in user memory and reach
into the kernel. -/
def StopsAtKernel (p n : ℕ) : Prop :=
  (copycheck p n).1 ≠ n ↔ p < userTop ∧ userTop < p + n

theorem stopsAtKernel_iff (hp : p < 2 ^ 32) (hn : n < 2 ^ 32) (hpos : 0 < n) :
  StopsAtKernel p n ↔ (p < userTop → p + n ≤ 2 ^ 32)
  := by
  have htop := Userprog.userTop_eq
  unfold StopsAtKernel
  by_cases hwrap : 2 ^ 32 < p + n
  · rw [copycheck_of_wrap hp hn hwrap]
    dsimp only
    omega
  · rw [copycheck_of_le hpos (Nat.le_of_not_lt hwrap)]
    split_ifs
    all_goals
      dsimp only
      omega

/-- `copyin` and `copyout` accept exactly the user ranges, and `copycheck` tells the ranges that
reach into the kernel. -/
def ExactBlock (p n : ℕ) : Prop :=
  (∀ (s : Copying) (kern : ℕ), s.Sound →
    Accepts (copyin p kern n) p n ⟨.kernel, kern⟩ ⟨.user, p⟩ s
      ∧ Accepts (copyout kern p n) p n ⟨.user, p⟩ ⟨.kernel, kern⟩ s)
    ∧ StopsAtKernel p n

theorem not_exactBlock_zero (hp : p < 2 ^ 32) :
  ¬ ExactBlock p 0
  := by
  rintro ⟨haccepts, -⟩
  -- the empty range of any machine without faults
  have hempty := (haccepts ⟨fun _ => 0, fun _ => false, false, []⟩ 0 (fun _ => rfl)).1
  have hrefused := wp_err hempty (copyBlock_empty hp _ _ _)
  exact hrefused.1 (inUser_zero p)

/-- The check is exact for the ranges that are not empty and that, if they start in user memory, do
not run past the last address. -/
theorem exactBlock_iff (hp : p < 2 ^ 32) (hn : n < 2 ^ 32) :
  ExactBlock p n ↔ n ≠ 0 ∧ (p < userTop → p + n ≤ 2 ^ 32)
  := by
  constructor
  · intro h
    have hne : n ≠ 0 := by
      rintro rfl
      exact not_exactBlock_zero hp h
    exact ⟨hne, (stopsAtKernel_iff hp hn (Nat.pos_of_ne_zero hne)).mp h.2⟩
  · rintro ⟨hne, hin⟩
    have hpos := Nat.pos_of_ne_zero hne
    constructor
    · intro s kern hs
      constructor
      · apply copyBlock_accepts hp hn hpos hs
        · nofun
        · intro _
          exact below_kernel kern n
        · intro hle _
          exact hle
      · apply copyBlock_accepts hp hn hpos hs
        · nofun
        · intro hle _
          exact hle
        · intro _
          exact below_kernel kern n
    · exact (stopsAtKernel_iff hp hn hpos).mpr hin

/-- The last byte of user memory is a range that is accepted. -/
theorem exactBlock_iff_last :
  ExactBlock 0x7fffffff 1 ↔ (1 : ℕ) ≠ 0 ∧ (0x7fffffff < userTop → 0x7fffffff + 1 ≤ 2 ^ 32)
  := exactBlock_iff (by decide) (by decide)

/-- The empty range at an address in the middle of user memory is refused. -/
theorem empty_range_refused :
  ¬ ExactBlock 0x10000000 0
  := not_exactBlock_zero (by decide)

/-! ### Strings -/

/-- A string copy returns 0 if and only if there is a terminator among the first `m` bytes, with
the string copied up to its first terminator; otherwise the error says whether user memory or the
buffer ends there. -/
def ExactString (run : Run ℕ) (m len : ℕ) (dest src : Pointer) (s : Copying) : Prop :=
  wp run s
    (fun got s' => ∃ k, got = k + 1 ∧ FirstNul (fun i => s.mem (src.add i)) m k
      ∧ Returned dest src got s s')
    (fun e s' => (∀ k < m, s.mem (src.add k) ≠ 0)
      ∧ e = (if m < len then .efault else .enametoolong) ∧ Returned dest src m s s')

/-- The length that the check lets a string copy go. -/
theorem copycheck_string (hp : p < userTop) (hpos : 0 < len) (hin : p + len ≤ 2 ^ 32) :
  ∃ stoplen, copycheck p len = (stoplen, none) ∧ min len stoplen = min len (userTop - p)
    ∧ (stoplen < len ↔ min len (userTop - p) < len)
  := by
  rw [copycheck_of_le hpos hin, if_neg (Nat.not_le_of_lt hp)]
  by_cases hover : userTop < p + len
  · rw [if_pos hover]
    exact ⟨_, rfl, rfl, by omega⟩
  · rw [if_neg hover]
    exact ⟨_, rfl, by omega, by omega⟩

/-- `copystr` with the limits that the check has found. -/
theorem copyString_exact (hs : s.Sound) (hspace : dest.space ≠ src.space) (hp : p < userTop)
    (hpos : 0 < len) (hin : p + len ≤ 2 ^ 32) (hdest : Below dest (min len (userTop - p)))
    (hsrc : Below src (min len (userTop - p))) :
  ExactString (copyString p dest src len) (min len (userTop - p)) len dest src s
  := by
  obtain ⟨stoplen, hcheck, hmin, hlt⟩ := copycheck_string hp hpos hin
  simp only [ExactString, copyString, hcheck]
  apply wp_protect
  simp only [copystr, wp_bind]
  have hloop : wp (copystrFrom dest src (min len stoplen) 0) { s with badfaultfunc := true }
      (fun gotlen s' =>
        StringCopied dest src (0 + min len stoplen) { s with badfaultfunc := true } s' gotlen) :=
    copystrFrom_spec hs hspace (by omega) (Copied.refl dest src _)
      (fun j hj => absurd hj (Nat.not_lt_zero j))
  apply wp_sure hloop
  intro gotlen s' hcopied
  rw [Nat.zero_add, hmin] at hcopied
  cases gotlen with
  | some gotlen =>
    obtain ⟨k, rfl, hfirst, hcopied⟩ := hcopied
    rw [wp_pure]
    exact ⟨k, rfl, hfirst, hcopied.returned (hdest.mono hfirst.1) (hsrc.mono hfirst.1)⟩
  | none =>
    obtain ⟨hnone, hcopied⟩ := hcopied
    rw [wp_pure]
    refine ⟨hnone, ?_, hcopied.returned hdest hsrc⟩
    simp only [hlt]

/-- `copyinstr` and `copyoutstr` are exact. -/
theorem strings_exact (hs : s.Sound) (hp : p < userTop) (hpos : 0 < len)
    (hin : p + len ≤ 2 ^ 32) (kern : ℕ) :
  ExactString (copyinstr p kern len) (min len (userTop - p)) len ⟨.kernel, kern⟩ ⟨.user, p⟩ s
    ∧ ExactString (copyoutstr kern p len) (min len (userTop - p)) len ⟨.user, p⟩ ⟨.kernel, kern⟩ s
  := by
  have huser : Below ⟨.user, p⟩ (min len (userTop - p)) := by
    intro _
    dsimp only
    omega
  constructor
  · exact copyString_exact hs nofun hp hpos hin (below_kernel _ _) huser
  · exact copyString_exact hs nofun hp hpos hin huser (below_kernel _ _)

/-- Sixteen bytes at the end of user memory, of which eight are there. -/
theorem strings_exact_boundary :
  let s : Copying := ⟨fun _ => 65, fun _ => false, false, []⟩
  s.Sound
    ∧ ExactString (copyinstr 0x7ffffff8 0x80001000 16) (min 16 (userTop - 0x7ffffff8)) 16
      ⟨.kernel, 0x80001000⟩ ⟨.user, 0x7ffffff8⟩ s
    ∧ ExactString (copyoutstr 0x80001000 0x7ffffff8 16) (min 16 (userTop - 0x7ffffff8)) 16
      ⟨.user, 0x7ffffff8⟩ ⟨.kernel, 0x80001000⟩ s
  := ⟨fun _ => rfl, strings_exact (fun _ => rfl) (by decide) (by decide) (by decide) _⟩

end Returns

end Copying
