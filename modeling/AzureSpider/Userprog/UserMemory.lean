import AzureSpider.Kern.Uio
import AzureSpider.Vm.Regions

/-!
# User memory

The way of data from the kernel to the memory of the running process: `uiomove` on a region of
user memory calls `copyout`, which stores byte by byte; a store to a page without an entry in the
TLB calls `vm_fault`, which enters one or lets `copyout` fail.

At any time the thread may lose the processor; when it is back, `as_activate` has emptied the TLB.
-/

open Machine Routine

namespace Userprog

/-- The panics between a region for I/O and user memory. -/
inductive LoadPanic where
  | vm (p : VmPanic)
  | uiomoveSpace | uiomoveSize | uiomovezerosRw
  deriving DecidableEq, Repr

/-- The machine as the running process uses it. -/
structure Process where
  /-- `curthread->t_vmspace`. -/
  as : AddrSpace
  tlb : Tlb
  ram : Ram
  /-- Physical memory. -/
  mem : ℕ → UInt8
  /-- Whether another thread runs before each of the coming stores. -/
  switches : List Bool
  /-- How many times a file was read. -/
  calls : ℕ

/-- A routine of the process. -/
abbrev Run (α : Type) : Type := Routine Errno LoadPanic Process α

/-! ### Stores -/

/-- The TLB that `as_activate` leaves. -/
def invalidTlb : Tlb := fun i => ((0x80000 + i) * pageSize, 0)

/-- Another thread may run. -/
def yield : Run Unit :=
  modify fun s =>
    { s with
      tlb := if s.switches.head? = some true then invalidTlb else s.tlb
      switches := s.switches.tail }

/-- The frame that a valid entry of the TLB has for a page. -/
def lookup (tlb : Tlb) (page : ℕ) : Option ℕ :=
  ((List.finRange 64).find? fun i =>
    (tlb i).1 &&& pageFrame = page ∧ (tlb i).2 &&& tlbloValid ≠ 0).map
    fun i => (tlb i).2 &&& pageFrame

/-- A store that misses the TLB: `vm_fault`, or, when that fails, `copyfail`. -/
def fault (a : ℕ) : Run Unit := fun s =>
  match AddrSpace.vmFault (some s.as) .write a s.tlb with
  | .ok () tlb => .ok () { s with tlb := tlb }
  | .err _ tlb => .err .efault { s with tlb := tlb }
  | .panic p => .panic (.vm p)

/-- Store a byte at a physical address. -/
def put (p : ℕ) (x : UInt8) : Run Unit :=
  modify fun s => { s with mem := Function.update s.mem p x }

/-- Store a byte at a user address. -/
def store (a : ℕ) (x : UInt8) : Run Unit := do
  yield
  let s ← get
  match lookup s.tlb (a &&& pageFrame) with
  | some frame => put (frame + a % pageSize) x
  | none => do
      fault a
      -- the store is done again, with the entry that `vm_fault` has made
      let s ← get
      match lookup s.tlb (a &&& pageFrame) with
      | some frame => put (frame + a % pageSize) x
      | none => fail .efault

/-- `memcpy` to a user address. -/
def memcpy : (a : ℕ) → List UInt8 → Run Unit
  | _, [] => pure ()
  | a, x :: xs => do
      store a x
      memcpy (a + 1) xs

/-- `copycheck`: what it stores in `stoplen`, and the error it returns. -/
def copycheck (userptr len : ℕ) : ℕ × Option Errno :=
  let bot := userptr
  let top := toU32 ((bot : ℤ) + len - 1)
  if top < bot then (len, some .efault)
  else if userTop ≤ bot then (len, some .efault)
  else if userTop ≤ top then (userTop - bot, none)
  else (len, none)

/-- `copyout`. -/
def copyout (data : List UInt8) (userdest : ℕ) : Run Unit :=
  match copycheck userdest data.length with
  | (_, some e) => fail e
  | (stoplen, none) => if stoplen ≠ data.length then fail .efault else memcpy userdest data

/-! ### Regions -/

/-- A routine of the process on a region. -/
abbrev URun (α : Type) : Type := Routine Errno LoadPanic (Process × Uio) α

/-- The memory of the kernel with data at `base`. -/
def patched (mem : ℕ → UInt8) (base : ℕ) (data : List UInt8) : ℕ → UInt8 :=
  fun a => if base ≤ a ∧ a < base + data.length then data.getD (a - base) 0 else mem a

/-- The `switch` of `uiomove`, for data that is read into the region. -/
def transfer (data : List UInt8) : URun Unit := do
  let (_, u) ← get
  match u.segflg with
  | .sysspace => onSnd (modify fun u => { u with mem := patched u.mem u.base data })
  | _ => onFst (copyout data u.base)

/-- The end of a round of `uiomove`. -/
def advance (size : ℕ) : URun Unit :=
  onSnd (modify fun u =>
    { u with
      base := u.base + size
      iovLen := u.iovLen - size
      resid := toU32 (u.resid - size)
      offset := i32 (u.offset + size) })

/-- The loop of `uiomove`, which takes at most as many rounds as there are bytes. -/
def uiomoveFrom : (rounds : ℕ) → List UInt8 → URun Unit
  | 0, _ => pure ()
  | r + 1, data => do
      let (_, u) ← get
      if 0 < data.length ∧ 0 < u.resid then do
        let size := min u.iovLen data.length
        assert (size ≠ 0) .uiomoveSize
        transfer (data.take size)
        advance size
        uiomoveFrom r (data.drop size)
      else
        pure ()

/-- `uiomove`, for data that is read into the region. -/
def uiomove (data : List UInt8) : URun Unit := do
  let (_, u) ← get
  assert (u.space = true) .uiomoveSpace
  uiomoveFrom data.length data

/-- The loop of `uiomovezeros`, which takes at most `n` rounds. -/
def uiomovezerosFrom : (rounds n : ℕ) → URun Unit
  | 0, _ => pure ()
  | r + 1, n =>
    if 0 < n then do
      let amt := min 16 n
      uiomove (List.replicate amt 0)
      uiomovezerosFrom r (n - amt)
    else
      pure ()

/-- `uiomovezeros`. -/
def uiomovezeros (n : ℕ) : URun Unit := do
  let (_, u) ← get
  assert (u.rw = .read) .uiomovezerosRw
  uiomovezerosFrom n n

/-! ### What a store does -/

section Stores

variable {as : AddrSpace} {tlb : Tlb} {page paddr a : ℕ}

/-- The valid entries of the TLB are translations of the address space. -/
def Agrees (as : AddrSpace) (tlb : Tlb) : Prop :=
  ∀ i, (tlb i).2 &&& tlbloValid ≠ 0 →
    as.translate ((tlb i).1 &&& pageFrame) = some ((tlb i).2 &&& pageFrame)

/-- No entry of the TLB is valid. -/
def Invalid (tlb : Tlb) : Prop := ∀ i, (tlb i).2 &&& tlbloValid = 0

theorem invalid_invalidTlb :
  Invalid invalidTlb
  := by
  intro i
  exact Nat.zero_and _

theorem Invalid.agrees (h : Invalid tlb) (as : AddrSpace) :
  Agrees as tlb
  := by
  intro i hi
  exact absurd (h i) hi

theorem Invalid.lookup (h : Invalid tlb) (page : ℕ) :
  lookup tlb page = none
  := by
  have hfind : (List.finRange 64).find? (fun i =>
    (tlb i).1 &&& pageFrame = page ∧ (tlb i).2 &&& tlbloValid ≠ 0) = none := by
    apply List.find?_eq_none.mpr
    intro i _
    simp [h i]
  rw [Userprog.lookup, hfind]
  rfl

/-- An entry that is found is valid, and for the page. -/
theorem lookup_eq_some {frame : ℕ} (h : lookup tlb page = some frame) :
  ∃ i, (tlb i).1 &&& pageFrame = page ∧ (tlb i).2 &&& tlbloValid ≠ 0
    ∧ (tlb i).2 &&& pageFrame = frame
  := by
  obtain ⟨i, hfind, hframe⟩ := Option.map_eq_some_iff.mp h
  have hi := List.find?_some hfind
  simp only [decide_eq_true_eq] at hi
  exact ⟨i, hi.1, hi.2, hframe⟩

/-- An entry that `vm_fault` makes is valid. -/
theorem entry_valid (elo : ℕ) :
  (elo ||| tlbloValid) &&& tlbloValid ≠ 0
  := by
  rw [Nat.and_or_distrib_right, Nat.and_self]
  intro hzero
  have hvalid := (Nat.or_eq_zero_iff.mp hzero).2
  revert hvalid
  decide

theorem Agrees.entered (h : Agrees as tlb) (i : Fin 64) (hpage : page &&& pageFrame = page)
    (hframe : paddr &&& pageFrame = paddr) (htrans : as.translate page = some paddr) :
  Agrees as (AddrSpace.entered tlb i page paddr)
  := by
  intro j hj
  by_cases hij : j = i
  · subst hij
    rw [AddrSpace.entered, Function.update_self]
    rw [hpage, AddrSpace.frame_flags hframe, htrans]
  · rw [AddrSpace.entered, Function.update_of_ne hij] at hj ⊢
    exact h j hj

theorem lookup_entered (i : Fin 64) (hpage : page &&& pageFrame = page) :
  lookup (AddrSpace.entered tlb i page paddr) page ≠ none
  := by
  intro hnone
  have hfind := Option.map_eq_none_iff.mp hnone
  have hi := List.find?_eq_none.mp hfind i (List.mem_finRange i)
  rw [AddrSpace.entered, Function.update_self] at hi
  simp only [decide_eq_true_eq, not_and_or, ne_eq, not_not] at hi
  rcases hi with hi | hi
  · exact hi hpage
  · exact entry_valid _ hi

/-- The physical address of a user address. -/
def phys (as : AddrSpace) (a : ℕ) : Option ℕ :=
  (as.translate (a &&& pageFrame)).map fun frame => frame + a % pageSize

variable {s : Process} {v d m n : ℕ}

/-- One of the `n` bytes from `v` on cannot be stored: its address is not a user address or has no
page, or there is no free entry in the TLB. -/
def Faulted (v n : ℕ) (s : Process) : Prop :=
  ∃ k < n, userTop ≤ v + k ∨ phys s.as (v + k) = none ∨ ¬ AddrSpace.Free s.tlb

theorem Faulted.of_part (h : Faulted (v + d) m s) (hle : d + m ≤ n) :
  Faulted v n s
  := by
  obtain ⟨k, hk, hfault⟩ := h
  rw [Nat.add_assoc] at hfault
  exact ⟨d + k, by omega, hfault⟩

theorem Faulted.of_lt (hpos : 0 < n) (h : userTop < v + n) :
  Faulted v n s
  := ⟨n - 1, by omega, .inl (by omega)⟩

/-- A miss of the TLB. -/
theorem fault_spec (hset : s.as.SetUp) (hagrees : Agrees s.as s.tlb) (a : ℕ) :
  wp (fault a) s
    (fun _ s' => ∃ tlb, s' = { s with tlb := tlb } ∧ Agrees s.as tlb
      ∧ lookup tlb (a &&& pageFrame) ≠ none)
    (fun e s' => e = .efault ∧ Faulted a 1 s')
  := by
  have hfault : AddrSpace.vmFault (some s.as) .write a s.tlb
      = AddrSpace.access (some s.as) (a &&& pageFrame) s.tlb := rfl
  cases htrans : s.as.translate (a &&& pageFrame) with
  | none =>
    have hrun : fault a s = .err .efault s := by
      simp only [fault, hfault, hset.access_none htrans]
    refine wp_of_err hrun ⟨rfl, 0, Nat.one_pos, .inr (.inl ?_)⟩
    rw [Nat.add_zero, phys, htrans]
    rfl
  | some frame =>
    have hpage := AddrSpace.pageFrame_idem a
    have hframe := hset.frame_of_translate hpage htrans
    have haccess := hset.access_some htrans hframe s.tlb
    rcases AddrSpace.enter_cases (a &&& pageFrame) frame s.tlb with ⟨i, -, hok⟩ | ⟨hfull, herr⟩
    · apply wp_of_ok (a := ())
      · simp only [fault, hfault, haccess, hok]
        rfl
      · exact ⟨_, rfl, hagrees.entered i hpage hframe htrans, lookup_entered i hpage⟩
    · have hrun : fault a s = .err .efault s := by
        simp only [fault, hfault, haccess, herr]
      exact wp_of_err hrun ⟨rfl, 0, Nat.one_pos, .inr (.inr hfull)⟩

/-- The state after bytes were stored at user addresses from `v` on. -/
def written (as : AddrSpace) : (mem : ℕ → UInt8) → (v : ℕ) → List UInt8 → ℕ → UInt8
  | mem, _, [] => mem
  | mem, v, x :: xs => written as (Function.update mem ((phys as v).getD 0) x) (v + 1) xs

theorem written_append (as : AddrSpace) (mem : ℕ → UInt8) (v : ℕ) (xs ys : List UInt8) :
  written as mem v (xs ++ ys) = written as (written as mem v xs) (v + xs.length) ys
  := by
  induction xs generalizing mem v with
  | nil => rfl
  | cons x xs ih =>
    have hlen : v + (x :: xs).length = v + 1 + xs.length := by
      rw [List.length_cons]
      omega
    rw [List.cons_append, written, written, ih, hlen]

/-- `s'` is `s` after bytes were stored at user addresses from `v` on. -/
structure Stored (v : ℕ) (data : List UInt8) (s s' : Process) : Prop where
  as : s'.as = s.as
  ram : s'.ram = s.ram
  agrees : Agrees s'.as s'.tlb
  mapped : ∀ k < data.length, (phys s.as (v + k)).isSome
  mem : s'.mem = written s.as s.mem v data

theorem Stored.nil (hagrees : Agrees s.as s.tlb) (v : ℕ) :
  Stored v [] s s
  := ⟨rfl, rfl, hagrees, fun _ hk => absurd hk (Nat.not_lt_zero _), rfl⟩

theorem Stored.append {v : ℕ} {xs ys : List UInt8} {s' s'' : Process} (h : Stored v xs s s')
    (h' : Stored (v + xs.length) ys s' s'') :
  Stored v (xs ++ ys) s s''
  where
  as := h'.as.trans h.as
  ram := h'.ram.trans h.ram
  agrees := h'.agrees
  mapped := by
    intro k hk
    rw [List.length_append] at hk
    by_cases hlt : k < xs.length
    · exact h.mapped k hlt
    · have hk' := h'.mapped (k - xs.length) (by omega)
      rw [h.as] at hk'
      rwa [show v + xs.length + (k - xs.length) = v + k by omega] at hk'
  mem := by rw [h'.mem, h.mem, h.as, written_append]

theorem store_spec (hset : s.as.SetUp) (hagrees : Agrees s.as s.tlb) (a : ℕ) (x : UInt8) :
  wp (store a x) s (fun _ s' => Stored a [x] s s') (fun e s' => e = .efault ∧ Faulted a 1 s')
  := by
  simp only [store, yield, wp_bind, wp_modify, wp_get]
  -- losing the processor does not change what the TLB agrees with
  have hagrees' : Agrees s.as (if s.switches.head? = some true then invalidTlb else s.tlb) := by
    split
    · exact invalid_invalidTlb.agrees s.as
    · exact hagrees
  generalize (if s.switches.head? = some true then invalidTlb else s.tlb) = tlb at hagrees' ⊢
  have hput : ∀ tlb' frame, Agrees s.as tlb' → lookup tlb' (a &&& pageFrame) = some frame →
      Stored a [x] s { s with
        tlb := tlb', switches := s.switches.tail
        mem := Function.update s.mem (frame + a % pageSize) x } := by
    intro tlb' frame htlb' hfound
    have hphys : phys s.as a = some (frame + a % pageSize) := by
      obtain ⟨i, heq, hvalid, rfl⟩ := lookup_eq_some hfound
      rw [phys, ← heq, htlb' i hvalid]
      rfl
    refine ⟨rfl, rfl, htlb', ?_, ?_⟩
    · intro k hk
      obtain rfl : k = 0 := Nat.lt_one_iff.mp hk
      rw [Nat.add_zero, hphys]
      rfl
    · rw [written, written, hphys]
      rfl
  cases hfound : lookup tlb (a &&& pageFrame) with
  | some frame =>
    simp only [put, wp_modify]
    exact hput tlb frame hagrees' hfound
  | none =>
    simp only [wp_bind]
    apply wp_imp (fault_spec (by exact hset) (by exact hagrees') a)
    rintro - s₁ ⟨tlb', rfl, htlb', hsome⟩
    simp only [wp_get]
    cases hfound' : lookup tlb' (a &&& pageFrame) with
    | none => exact absurd hfound' hsome
    | some frame =>
      simp only [put, wp_modify]
      exact hput tlb' frame htlb' hfound'

/-- A store panics when the address space is not set up and the TLB has no entries. -/
theorem store_panic (hset : ¬ s.as.SetUp) (hinvalid : Invalid s.tlb) (a : ℕ) (x : UInt8) :
  ∃ q, store a x s = .panic q
  := by
  have hinvalid' : Invalid (if s.switches.head? = some true then invalidTlb else s.tlb) := by
    split
    · exact invalid_invalidTlb
    · exact hinvalid
  obtain ⟨q, hpanic⟩ := AddrSpace.access_panic hset (a &&& pageFrame)
    (if s.switches.head? = some true then invalidTlb else s.tlb)
  use .vm q
  simp only [store, yield, modify_bind, get_bind, hinvalid'.lookup]
  apply bind_panic
  have hfault : AddrSpace.vmFault (some s.as) .write a
      (if s.switches.head? = some true then invalidTlb else s.tlb) = .panic q := hpanic
  simp only [fault, hfault]

theorem memcpy_spec (hset : s.as.SetUp) (hagrees : Agrees s.as s.tlb) (v : ℕ) (data : List UInt8) :
  wp (memcpy v data) s (fun _ s' => Stored v data s s')
    (fun e s' => e = .efault ∧ Faulted v data.length s')
  := by
  induction data generalizing s v with
  | nil =>
    simp only [memcpy, wp_pure]
    exact Stored.nil hagrees v
  | cons x xs ih =>
    simp only [memcpy, wp_bind]
    rw [List.length_cons]
    apply wp_mono (store_spec hset hagrees v x)
    · rintro - s₁ hfirst
      apply wp_mono (ih (by rwa [hfirst.as]) hfirst.agrees (v + 1))
      · rintro - s₂ hrest
        exact hfirst.append hrest
      · rintro e s₂ ⟨he, hfault⟩
        exact ⟨he, hfault.of_part (by omega)⟩
    · rintro e s₁ ⟨he, hfault⟩
      exact ⟨he, Faulted.of_part (d := 0) hfault (by omega)⟩

section Check

variable {v len : ℕ}

theorem userTop_eq : userTop = 2147483648 := rfl

theorem copycheck_of_le (hpos : 0 < len) (h : v + len ≤ userTop) :
  copycheck v len = (len, none)
  := by
  have htop := userTop_eq
  have hlast : toU32 ((v : ℤ) + len - 1) = v + len - 1 := by
    unfold toU32
    omega
  simp only [copycheck, hlast]
  rw [if_neg (by omega), if_neg (by omega), if_neg (by omega)]

theorem copycheck_of_lt (hlen : len < 2 ^ 32) (h : userTop < v + len) :
  copycheck v len = (len, some .efault)
    ∨ ∃ stoplen, copycheck v len = (stoplen, none) ∧ stoplen ≠ len
  := by
  simp only [copycheck]
  by_cases hwrap : toU32 ((v : ℤ) + len - 1) < v
  · left
    rw [if_pos hwrap]
  rw [if_neg hwrap]
  by_cases hbot : userTop ≤ v
  · left
    rw [if_pos hbot]
  rw [if_neg hbot]
  -- the last byte is not a user address
  have hlast : userTop ≤ toU32 ((v : ℤ) + len - 1) := by
    unfold toU32 at hwrap ⊢
    omega
  right
  rw [if_pos hlast]
  exact ⟨_, rfl, by omega⟩

end Check

/-- The check of `copyout` admits exactly user memory. -/
theorem copyout_eq {data : List UInt8} (v : ℕ) (hpos : 0 < data.length)
    (hlen : data.length < 2 ^ 32) :
  copyout data v
    = if v + data.length ≤ userTop then memcpy v data else fail .efault
  := by
  by_cases hend : v + data.length ≤ userTop
  · rw [if_pos hend, copyout, copycheck_of_le hpos hend]
    exact if_neg fun hne => hne rfl
  · rw [if_neg hend, copyout]
    rcases copycheck_of_lt hlen (Nat.lt_of_not_le hend) with herr | ⟨stoplen, hok, hne⟩
    · rw [herr]
    · rw [hok]
      exact if_pos hne

end Stores

/-! ### What a transfer does -/

section Transfers

variable {s : Process} {u : Uio} {data : List UInt8}

theorem uiomoveFrom_nil (r : ℕ) (su : Process × Uio) :
  uiomoveFrom r [] su = .ok () su
  := by
  cases r with
  | zero | succ => rfl

theorem uiomove_nil (hspace : u.space = true) :
  uiomove [] (s, u) = .ok () (s, u)
  := by
  simp only [uiomove, get_bind]
  exact bind_ok (a := ()) (assert_eq_ok.mpr ⟨hspace, rfl⟩)

/-- The region after `t` bytes are transferred, but for the memory. -/
def advanced (u : Uio) (t : ℕ) : Uio :=
  { u with
    base := u.base + t
    iovLen := u.iovLen - t
    resid := toU32 (u.resid - t)
    offset := i32 (u.offset + t) }

theorem after_advanced {t : ℕ} (hu : u.Backed) (ht : t ≤ u.resid) :
  Uio.After u (advanced u t) t
  := by
  have hle := hu.resid_le
  have hlt := hu.resid_lt
  refine ⟨ht, rfl, Nat.sub_add_cancel (by omega), ?_, rfl, rfl, rfl, rfl, fun h => h⟩
  simp only [advanced, toU32]
  omega

/-- Data for which there is memory is transferred in one round. -/
theorem uiomove_eq (hu : u.Backed) (hpos : 0 < data.length) (hlen : data.length ≤ u.resid) :
  uiomove data (s, u) = (transfer data >>= fun _ => advance data.length) (s, u)
  := by
  have hle := hu.resid_le
  obtain ⟨r, hr⟩ := Nat.exists_eq_add_one_of_ne_zero hpos.ne'
  have hsize : min u.iovLen data.length = data.length := by omega
  simp only [uiomove, get_bind]
  rw [bind_ok (a := ()) (assert_eq_ok.mpr ⟨hu.space, rfl⟩)]
  rw [hr, uiomoveFrom, get_bind]
  simp only
  rw [if_pos ⟨hpos, by omega⟩, hsize, ← hr, List.take_length, List.drop_length]
  rw [bind_ok (a := ()) (assert_eq_ok.mpr ⟨hpos.ne', rfl⟩)]
  apply Routine.bind_congr rfl
  intro _ su' _
  exact uiomoveFrom_nil r (su'.1, advanced su'.2 data.length)

theorem transfer_kernel (hseg : u.segflg = .sysspace) :
  transfer data (s, u) = .ok () (s, { u with mem := patched u.mem u.base data })
  := by
  obtain ⟨mem, base, iovLen, offset, resid, segflg, rw, space, faults⟩ := u
  obtain rfl : segflg = .sysspace := hseg
  rfl

theorem transfer_user (hseg : u.segflg ≠ .sysspace) :
  transfer data (s, u) = onFst (copyout data u.base) (s, u)
  := by
  obtain ⟨mem, base, iovLen, offset, resid, segflg, rw, space, faults⟩ := u
  cases segflg with
  | userspace => rfl
  | sysspace => exact absurd rfl hseg
  | userispace => rfl

/-- Data that is moved to kernel memory. -/
theorem uiomove_kernel (hu : u.Backed) (hseg : u.segflg = .sysspace)
    (hlen : data.length ≤ u.resid) :
  wp (uiomove data) (s, u)
    (fun _ su => su.1 = s ∧ Uio.Given u su.2 data.length fun k => data.getD k 0)
  := by
  by_cases hnil : data = []
  · subst hnil
    exact wp_of_ok (uiomove_nil hu.space) ⟨rfl, hu.taken_zero.given _⟩
  have hpos : 0 < data.length := List.length_pos_iff.mpr hnil
  have hrun := uiomove_eq (s := s) hu hpos hlen
  rw [bind_ok (transfer_kernel hseg)] at hrun
  apply wp_of_ok hrun
  have hafter := after_advanced hu hlen
  refine ⟨rfl, ⟨{ hafter with }, ?_⟩⟩
  intro a
  rfl

/-- Data that is moved to user memory. -/
theorem uiomove_user (hset : s.as.SetUp) (hagrees : Agrees s.as s.tlb) (hu : u.Backed)
    (hseg : u.segflg ≠ .sysspace) (hlen : data.length ≤ u.resid) :
  wp (uiomove data) (s, u)
    (fun _ su => Stored u.base data s su.1 ∧ Uio.After u su.2 data.length
      ∧ (data = [] ∨ u.base + data.length ≤ userTop))
    (fun e su => e = .efault ∧ Faulted u.base data.length su.1)
  := by
  by_cases hnil : data = []
  · subst hnil
    exact wp_of_ok (uiomove_nil hu.space) ⟨Stored.nil hagrees u.base, hu.after_zero, .inl rfl⟩
  have hpos : 0 < data.length := List.length_pos_iff.mpr hnil
  have hlt := hu.resid_lt
  apply wp_of_eq (uiomove_eq hu hpos hlen)
  rw [wp_bind]
  apply wp_of_eq (transfer_user hseg)
  rw [wp_onFst, copyout_eq _ hpos (by omega), wp_ite]
  constructor
  · intro hend
    apply wp_imp (memcpy_spec hset hagrees u.base data)
    rintro - s' hstored
    simp only [advance, wp_onSnd, wp_modify]
    exact ⟨hstored, after_advanced hu hlen, .inr hend⟩
  · intro hend
    rw [wp_fail]
    exact ⟨rfl, .of_lt hpos (Nat.lt_of_not_le hend)⟩

/-! Zeros are moved in pieces of 16 bytes. -/

theorem uiomovezerosFrom_user {r n : ℕ} (hset : s.as.SetUp) (hagrees : Agrees s.as s.tlb)
    (hu : u.Backed) (hseg : u.segflg ≠ .sysspace) (hlen : n ≤ u.resid) (hr : n ≤ r) :
  wp (uiomovezerosFrom r n) (s, u)
    (fun _ su => Stored u.base (List.replicate n 0) s su.1 ∧ Uio.After u su.2 n
      ∧ (n = 0 ∨ u.base + n ≤ userTop))
    (fun e su => e = .efault ∧ Faulted u.base n su.1)
  := by
  induction r generalizing n s u with
  | zero =>
    obtain rfl : n = 0 := Nat.le_zero.mp hr
    rw [uiomovezerosFrom, wp_pure]
    exact ⟨Stored.nil hagrees u.base, hu.after_zero, .inl rfl⟩
  | succ r ih =>
    rw [uiomovezerosFrom, wp_ite]
    constructor
    · intro hpos
      have hamt : (List.replicate (min 16 n) (0 : UInt8)).length = min 16 n :=
        List.length_replicate
      simp only [wp_bind]
      apply wp_mono (uiomove_user hset hagrees hu hseg (by rw [hamt]; omega))
      · rintro - ⟨s₁, u₁⟩ ⟨hstored, hafter, hend⟩
        simp only [hamt] at hstored hafter hend
        have hresid := hafter.resid
        have hbase := hafter.base
        apply wp_mono (ih (by rw [hstored.as]; exact hset) hstored.agrees
          (hafter.backed hu) (by rw [hafter.segflg]; exact hseg) (by omega) (by omega))
        · rintro - ⟨s₂, u₂⟩ ⟨hstored', hafter', hend'⟩
          simp only at hstored' hafter' hend' ⊢
          have hsplit : List.replicate n (0 : UInt8)
              = List.replicate (min 16 n) 0 ++ List.replicate (n - min 16 n) 0 := by
            rw [List.replicate_append_replicate, Nat.add_sub_cancel' (by omega)]
          refine ⟨?_, ?_, ?_⟩
          · rw [hsplit]
            apply hstored.append
            rwa [hamt, ← hbase]
          · have hboth := hafter.trans hafter'
            rwa [Nat.add_sub_cancel' (by omega)] at hboth
          · right
            have hne : List.replicate (min 16 n) (0 : UInt8) ≠ [] := by
              intro hnil
              rw [hnil] at hamt
              simp only [List.length_nil] at hamt
              omega
            rcases hend with hnil | hend
            · exact absurd hnil hne
            · omega
        · rintro e su ⟨he, hfault⟩
          rw [hbase] at hfault
          exact ⟨he, hfault.of_part (by omega)⟩
      · rintro e su ⟨he, hfault⟩
        rw [hamt] at hfault
        exact ⟨he, Faulted.of_part (d := 0) hfault (by omega)⟩
    · intro hnot
      obtain rfl : n = 0 := by omega
      rw [wp_pure]
      exact ⟨Stored.nil hagrees u.base, hu.after_zero, .inl rfl⟩

/-- The first piece of the zeros. -/
theorem uiomovezeros_eq {n : ℕ} (hrw : u.rw = .read) (hpos : 0 < n) :
  uiomovezeros n (s, u)
    = (uiomove (List.replicate (min 16 n) 0) >>= fun _ => uiomovezerosFrom (n - 1) (n - min 16 n))
      (s, u)
  := by
  simp only [uiomovezeros, get_bind]
  rw [bind_ok (a := ()) (assert_eq_ok.mpr ⟨hrw, rfl⟩)]
  obtain ⟨r, rfl⟩ := Nat.exists_eq_add_one_of_ne_zero hpos.ne'
  rw [uiomovezerosFrom, if_pos hpos]
  rfl

end Transfers

end Userprog
