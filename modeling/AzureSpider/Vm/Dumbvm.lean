import AzureSpider.Errno
import AzureSpider.Lib.Routine
import AzureSpider.Vm.Ram
import Mathlib.Data.List.FinRange

/-!
# Address spaces under dumbvm

`dumbvm.c`: an address space has two regions and a stack, each of which is backed by one range
of physical pages.  `as_prepare_load` gets the pages, `vm_fault` enters the translation of one
page into the TLB, and `as_copy` makes a copy of an address space in pages of its own.

Addresses and sizes are 32-bit numbers.  What `getppages` answers is a parameter: `0`, or a
range of pages that has not been handed out before.
-/

open Machine Routine

/-- `struct addrspace`. -/
structure AddrSpace where
  vbase1 : ℕ
  pbase1 : ℕ
  npages1 : ℕ
  vbase2 : ℕ
  pbase2 : ℕ
  npages2 : ℕ
  stackpbase : ℕ
  deriving DecidableEq, Repr

/-- The assertions and panics of `dumbvm.c`. -/
inductive VmPanic where
  -- `vm_fault`
  | faultReadonly | faultVbase1 | faultPbase1 | faultNpages1 | faultVbase2 | faultPbase2
  | faultNpages2 | faultStackpbase | faultVbase1Frame | faultPbase1Frame | faultVbase2Frame
  | faultPbase2Frame | faultStackpbaseFrame | faultPaddrFrame
  -- `as_prepare_load`
  | preparePbase1 | preparePbase2 | prepareStackpbase
  -- `as_copy`
  | copyPbase1 | copyPbase2 | copyStackpbase
  deriving DecidableEq, Repr

/-- `USERSTACK`, the top of user space. -/
def userStack : ℕ := kseg0

/-- `DUMBVM_STACKPAGES`. -/
def stackPages : ℕ := 12

/-! ### Faults -/

/-- The kinds of faults that `vm_fault` is told. -/
inductive FaultType where
  | read | write | readonly | other
  deriving DecidableEq, Repr

/-- The high and the low word of the entries of the TLB. -/
abbrev Tlb := Fin 64 → ℕ × ℕ

/-- `TLBLO_DIRTY`. -/
def tlbloDirty : ℕ := 0x400

/-- `TLBLO_VALID`. -/
def tlbloValid : ℕ := 0x200

namespace AddrSpace

/-- Routines on the TLB. -/
abbrev Fault (α : Type) := Routine Errno VmPanic Tlb α

/-- The choice of the physical address in `vm_fault`. -/
def translate (as : AddrSpace) (faultaddress : ℕ) : Option ℕ :=
  let vtop1 := u32 (as.vbase1 + u32 (as.npages1 * pageSize))
  let vtop2 := u32 (as.vbase2 + u32 (as.npages2 * pageSize))
  let stackbase := userStack - stackPages * pageSize
  if as.vbase1 ≤ faultaddress ∧ faultaddress < vtop1 then
    some (u32 (faultaddress - as.vbase1 + as.pbase1))
  else if as.vbase2 ≤ faultaddress ∧ faultaddress < vtop2 then
    some (u32 (faultaddress - as.vbase2 + as.pbase2))
  else if stackbase ≤ faultaddress ∧ faultaddress < userStack then
    some (u32 (faultaddress - stackbase + as.stackpbase))
  else
    none

/-- The assertions of `vm_fault` about the address space. -/
def checkSetUp (as : AddrSpace) : Fault Unit := do
  assert (as.vbase1 ≠ 0) .faultVbase1
  assert (as.pbase1 ≠ 0) .faultPbase1
  assert (as.npages1 ≠ 0) .faultNpages1
  assert (as.vbase2 ≠ 0) .faultVbase2
  assert (as.pbase2 ≠ 0) .faultPbase2
  assert (as.npages2 ≠ 0) .faultNpages2
  assert (as.stackpbase ≠ 0) .faultStackpbase
  assert (as.vbase1 &&& pageFrame = as.vbase1) .faultVbase1Frame
  assert (as.pbase1 &&& pageFrame = as.pbase1) .faultPbase1Frame
  assert (as.vbase2 &&& pageFrame = as.vbase2) .faultVbase2Frame
  assert (as.pbase2 &&& pageFrame = as.pbase2) .faultPbase2Frame
  assert (as.stackpbase &&& pageFrame = as.stackpbase) .faultStackpbaseFrame

/-- The loop of `vm_fault`: write the first entry that is not valid. -/
def enter (faultaddress paddr : ℕ) : Fault Unit := do
  let tlb ← get
  match (List.finRange 64).find? fun i => (tlb i).2 &&& tlbloValid = 0 with
  | none => fail .efault
  | some i =>
    modify fun tlb =>
      Function.update tlb i (faultaddress, paddr ||| tlbloDirty ||| tlbloValid)

/-- `vm_fault` on a read or a write. -/
def access (as : Option AddrSpace) (faultaddress : ℕ) : Fault Unit :=
  match as with
  | none => fail .efault
  | some as => do
      as.checkSetUp
      match as.translate faultaddress with
      | none => fail .efault
      | some paddr => do
          assert (paddr &&& pageFrame = paddr) .faultPaddrFrame
          enter faultaddress paddr

/-- `vm_fault`; `as` is the address space of the current thread. -/
def vmFault (as : Option AddrSpace) (faulttype : FaultType) (faultaddress : ℕ) : Fault Unit :=
  match faulttype with
  | .readonly => Routine.panic .faultReadonly
  | .other => fail .einval
  | .read => access as (faultaddress &&& pageFrame)
  | .write => access as (faultaddress &&& pageFrame)

/-- `vm_fault` enters the translation of a page to a frame into the TLB. -/
def Installs (as : AddrSpace) (page frame : ℕ) : Prop :=
  ∃ faulttype addr tlb tlb' i, vmFault (some as) faulttype addr tlb = .ok () tlb'
    ∧ tlb' i ≠ tlb i ∧ (tlb' i).1 = page ∧ (tlb' i).2 &&& pageFrame = frame

end AddrSpace

/-! ### Physical pages -/

/-- A range of physical pages. -/
structure PageRange where
  base : ℕ
  npages : ℕ
  deriving DecidableEq, Repr

namespace PageRange

/-- The two ranges have no page in common. -/
def Apart (r q : PageRange) : Prop :=
  r.npages = 0 ∨ q.npages = 0 ∨ r.base + r.npages * pageSize ≤ q.base
    ∨ q.base + q.npages * pageSize ≤ r.base

instance (r q : PageRange) : Decidable (r.Apart q) :=
  inferInstanceAs (Decidable (_ ∨ _))

/-- The range starts at a page other than the first, and ends in physical memory. -/
def Proper (r : PageRange) : Prop :=
  r.base ≠ 0 ∧ r.base % pageSize = 0 ∧ r.base + r.npages * pageSize ≤ 2 ^ 32

instance (r : PageRange) : Decidable r.Proper :=
  inferInstanceAs (Decidable (_ ∧ _))

end PageRange

/-! ### Address spaces -/

/-- The address spaces, the ranges that `getppages` has handed out, and memory, by kernel
address; with the next answers of `getppages` and of `kmalloc`. -/
structure Dumbvm where
  spaces : List AddrSpace
  given : List PageRange
  mem : ℕ → UInt8
  pages : List ℕ
  kmallocs : List Bool

namespace Dumbvm

/-- Routines on the address spaces. -/
abbrev Run (α : Type) := Routine Errno VmPanic Dumbvm α

/-- `getppages`: the next answer, if it is a range apart from all those handed out before, and
`0` otherwise. -/
def getppages (npages : ℕ) : Run ℕ := do
  let s ← get
  let r : PageRange := ⟨s.pages.headD 0, npages⟩
  if r.Proper ∧ ∀ q ∈ s.given, r.Apart q then do
    modify fun s => { s with given := r :: s.given, pages := s.pages.tail }
    pure r.base
  else do
    modify fun s => { s with pages := s.pages.tail }
    pure 0

/-- `memmove`, between kernel addresses. -/
def memmove (dst src n : ℕ) : Run Unit :=
  modify fun s =>
    { s with mem := fun a =>
      let k := u32 (a + 2 ^ 32 - dst)
      if k < n then s.mem (u32 (src + k)) else s.mem a }

/-- `as_create`. -/
def asCreate : Run AddrSpace := do
  let s ← get
  modify fun s => { s with kmallocs := s.kmallocs.tail }
  if s.kmallocs.headD true then pure ⟨0, 0, 0, 0, 0, 0, 0⟩ else fail .enomem

/-- `as_define_region`. -/
def asDefineRegion (as : AddrSpace) (vaddr sz : ℕ) : Except Errno AddrSpace :=
  let sz := u32 (sz + (vaddr &&& pageOffset))
  let vaddr := vaddr &&& pageFrame
  let sz := u32 (sz + pageSize - 1) &&& pageFrame
  let npages := sz / pageSize
  if as.vbase1 = 0 then
    .ok { as with vbase1 := vaddr, npages1 := npages }
  else if as.vbase2 = 0 then
    .ok { as with vbase2 := vaddr, npages2 := npages }
  else
    .error .eunimp

/-- `as_prepare_load`: the address space, with the pages that it has got, and the error. -/
def asPrepareLoad (as : AddrSpace) : Run (AddrSpace × Option Errno) := do
  assert (as.pbase1 = 0) .preparePbase1
  assert (as.pbase2 = 0) .preparePbase2
  assert (as.stackpbase = 0) .prepareStackpbase
  let pbase1 ← getppages as.npages1
  if pbase1 = 0 then
    pure ({ as with pbase1 := pbase1 }, some .enomem)
  else
    let pbase2 ← getppages as.npages2
    if pbase2 = 0 then
      pure ({ as with pbase1 := pbase1, pbase2 := pbase2 }, some .enomem)
    else
      let stackpbase ← getppages stackPages
      if stackpbase = 0 then
        pure ({ as with pbase1 := pbase1, pbase2 := pbase2, stackpbase := stackpbase },
          some .enomem)
      else
        pure ({ as with pbase1 := pbase1, pbase2 := pbase2, stackpbase := stackpbase }, none)

/-- The end of `as_copy`: the contents of the pages. -/
def copyPages (old new : AddrSpace) : Run Unit := do
  memmove (paddrToKvaddr new.pbase1) (paddrToKvaddr old.pbase1) (u32 (old.npages1 * pageSize))
  memmove (paddrToKvaddr new.pbase2) (paddrToKvaddr old.pbase2) (u32 (old.npages2 * pageSize))
  memmove (paddrToKvaddr new.stackpbase) (paddrToKvaddr old.stackpbase)
    (u32 (stackPages * pageSize))

/-- `as_copy`. -/
def asCopy (old : AddrSpace) : Run AddrSpace := do
  let new ← asCreate
  let (new, result) ← asPrepareLoad { new with
    vbase1 := old.vbase1, npages1 := old.npages1, vbase2 := old.vbase2, npages2 := old.npages2 }
  match result with
  | some _ => fail .enomem
  | none => do
      assert (new.pbase1 ≠ 0) .copyPbase1
      assert (new.pbase2 ≠ 0) .copyPbase2
      assert (new.stackpbase ≠ 0) .copyStackpbase
      copyPages old new
      pure new

/-! ### Runs -/

/-- What happens to the address spaces, which are numbered in the order in which they were
made. -/
inductive Event where
  | create
  | defineRegion (i : ℕ) (vaddr sz : ℕ)
  | prepareLoad (i : ℕ)
  | copy (i : ℕ)
  /-- Someone else gets pages. -/
  | getppages (npages : ℕ)
  /-- Memory is written. -/
  | write (mem : ℕ → UInt8)

/-- A new address space. -/
def addSpace (as : AddrSpace) : Run Unit :=
  modify fun s => { s with spaces := s.spaces ++ [as] }

/-- A change of an address space. -/
def setSpace (i : ℕ) (as : AddrSpace) : Run Unit :=
  modify fun s => { s with spaces := s.spaces.set i as }

/-- Do something with the address space `i`, if there is one. -/
def onSpace (i : ℕ) (f : AddrSpace → Run Unit) : Run Unit := do
  let s ← get
  match s.spaces[i]? with
  | none => pure ()
  | some as => f as

/-- What an event does. -/
def act : Event → Run Unit
  | .create => do
      let as ← asCreate
      addSpace as
  | .defineRegion i vaddr sz => onSpace i fun as =>
    match asDefineRegion as vaddr sz with
    | .error e => fail e
    | .ok as' => setSpace i as'
  | .prepareLoad i => onSpace i fun as => do
      let (as', _) ← asPrepareLoad as
      setSpace i as'
  | .copy i => onSpace i fun as => do
      let new ← asCopy as
      addSpace new
  | .getppages npages => do
      let _ ← getppages npages
      pure ()
  | .write mem => modify fun s => { s with mem := mem }

/-- No address space, and nothing handed out. -/
def init (mem : ℕ → UInt8) : Dumbvm := ⟨[], [], mem, [], []⟩

/-- A condition on the events of a run. -/
abbrev Condition := Dumbvm → Event → Prop

/-- Every event is admitted. -/
def anyEvent : Condition := fun _ _ => True

/-- The state with the answers that `getppages` and `kmalloc` will give. -/
def withAnswers (pages : List ℕ) (kmallocs : List Bool) (s : Dumbvm) : Dumbvm :=
  { s with pages := pages, kmallocs := kmallocs }

/-- The event happens, and the call returns with or without an error. -/
def Returns (e : Event) (s s' : Dumbvm) : Prop :=
  ∃ pages kmallocs, act e (s.withAnswers pages kmallocs) = .ok () s'
    ∨ ∃ err, act e (s.withAnswers pages kmallocs) = .err err s'

/-- One event, which meets the condition. -/
def Step (allow : Condition) (s s' : Dumbvm) : Prop := ∃ e, allow s e ∧ Returns e s s'

/-- The states that a run reaches. -/
abbrev Reaches (allow : Condition) : Dumbvm → Dumbvm → Prop :=
  Relation.ReflTransGen (Step allow)

/-- The byte at a physical address. -/
def phys (s : Dumbvm) (p : ℕ) : UInt8 := s.mem (paddrToKvaddr p)

end Dumbvm
