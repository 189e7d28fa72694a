import AzureSpider.Vm.Regions

/-!
# The effect of a fault

`vm_fault` runs at the highest interrupt level.  On an address space that is set up it changes at
most one entry of the TLB (`vmFault_some`), and it restores the interrupt level before it returns.
The return for a thread without an address space does not restore the level (`vmFault_null`).
-/

open Machine Routine

/-! ### The region that dictates a frame -/

/-- A range of user pages and the physical pages behind it. -/
structure Mapping where
  vbase : ℕ
  npages : ℕ
  pbase : ℕ
  deriving DecidableEq, Repr

namespace Mapping

/-- The end of the range. -/
def vtop (r : Mapping) : ℕ := r.vbase + r.npages * pageSize

/-- The page is in the range. -/
def Contains (r : Mapping) (page : ℕ) : Prop := r.vbase ≤ page ∧ page < r.vtop

instance (r : Mapping) (page : ℕ) : Decidable (r.Contains page) :=
  inferInstanceAs (Decidable (_ ∧ _))

/-- The frame behind a page. -/
def frame (r : Mapping) (page : ℕ) : ℕ := u32 (page - r.vbase + r.pbase)

/-- The range as `vm_fault` tests it, in 32-bit numbers. -/
theorem contains_of_lt {r : Mapping} {page : ℕ} (hbase : r.vbase ≤ page)
    (htop : page < u32 (r.vbase + u32 (r.npages * pageSize))) :
  r.Contains page
  := by
  constructor
  · exact hbase
  · calc
      page < u32 (r.vbase + u32 (r.npages * pageSize)) := htop
      _ ≤ r.vbase + u32 (r.npages * pageSize) := Nat.mod_le _ _
      _ ≤ r.vbase + r.npages * pageSize := Nat.add_le_add_left (Nat.mod_le _ _) _

/-- A range that `vm_fault` does not find a page in, although the page is there, ends outside of
the 32-bit addresses. -/
theorem wraps_of_contains {r : Mapping} {page : ℕ} (hmem : r.Contains page)
    (hnot : ¬ (r.vbase ≤ page ∧ page < u32 (r.vbase + u32 (r.npages * pageSize)))) :
  2 ^ 32 ≤ r.vtop
  := by
  by_contra hlt
  apply hnot
  constructor
  · exact hmem.1
  · have hsize : u32 (r.npages * pageSize) = r.npages * pageSize := by
      apply u32_of_lt
      have hle : r.npages * pageSize ≤ r.vtop := Nat.le_add_left _ _
      omega
    rw [hsize]
    apply Nat.lt_of_lt_of_eq hmem.2
    rw [← vtop, u32_of_lt (Nat.lt_of_not_le hlt)]

end Mapping

namespace AddrSpace

variable {as : AddrSpace} {page paddr : ℕ} {tlb : Tlb}

/-- The ranges of an address space, in the order in which `vm_fault` looks at them. -/
def mappings (as : AddrSpace) : List Mapping :=
  [⟨as.vbase1, as.npages1, as.pbase1⟩, ⟨as.vbase2, as.npages2, as.pbase2⟩,
    ⟨userStack - stackPages * pageSize, stackPages, as.stackpbase⟩]

/-- The first range that contains the page, among those that end in the 32-bit addresses, has the
frame behind it. -/
def Dictates (as : AddrSpace) (page paddr : ℕ) : Prop :=
  ∃ before r after, as.mappings = before ++ r :: after ∧ r.Contains page ∧ paddr = r.frame page
    ∧ ∀ q ∈ before, q.Contains page → 2 ^ 32 ≤ q.vtop

/-- `vm_fault` takes the frame that the address space dictates. -/
theorem dictates_of_translate (h : as.translate page = some paddr) :
  as.Dictates page paddr
  := by
  simp only [translate] at h
  split_ifs at h with hfirst hsecond hstack
  · use [], ⟨as.vbase1, as.npages1, as.pbase1⟩, as.mappings.tail
    refine ⟨rfl, Mapping.contains_of_lt hfirst.1 hfirst.2, (Option.some.inj h).symm, ?_⟩
    intro q hq
    cases hq
  · use [⟨as.vbase1, as.npages1, as.pbase1⟩], ⟨as.vbase2, as.npages2, as.pbase2⟩,
      as.mappings.tail.tail
    refine ⟨rfl, Mapping.contains_of_lt hsecond.1 hsecond.2, (Option.some.inj h).symm, ?_⟩
    intro q hq hmem
    rw [List.mem_singleton.mp hq] at hmem ⊢
    exact Mapping.wraps_of_contains hmem hfirst
  · use as.mappings.take 2, ⟨userStack - stackPages * pageSize, stackPages, as.stackpbase⟩, []
    have htop : userStack - stackPages * pageSize + stackPages * pageSize = userStack :=
      Nat.sub_add_cancel (by decide)
    refine ⟨rfl, ⟨hstack.1, Nat.lt_of_lt_of_eq hstack.2 htop.symm⟩, (Option.some.inj h).symm, ?_⟩
    intro q hq hmem
    rcases List.mem_pair.mp hq with rfl | rfl
    · exact Mapping.wraps_of_contains hmem hfirst
    · exact Mapping.wraps_of_contains hmem hsecond

end AddrSpace

/-! ### The interrupt level -/

/-- The processor as `vm_fault` uses it. -/
structure Cpu where
  tlb : Tlb
  /-- `curspl`. -/
  curspl : ℤ
  /-- Whether the processor takes interrupts. -/
  interrupts : Bool

/-- `SPL_HIGH`. -/
def splHigh : ℤ := 15

namespace Cpu

/-- Routines on the processor. -/
abbrev Run (α : Type) := Routine Errno VmPanic Cpu α

/-- `splx`. -/
def splx (newspl : ℤ) : Run ℤ := do
  if 0 < newspl then
    modify fun s => { s with interrupts := false }
  else if newspl = 0 then
    modify fun s => { s with interrupts := true }
  let s ← get
  modify fun s => { s with curspl := newspl }
  pure s.curspl

/-- `splhigh`. -/
def splhigh : Run ℤ := splx splHigh

/-- A routine on the TLB. -/
def onTlb {α : Type} (m : AddrSpace.Fault α) : Run α :=
  zoom Cpu.tlb (fun tlb s => { s with tlb := tlb }) m

/-- `vm_fault` on a read or a write; `spl` is the level to restore. -/
def access (as : Option AddrSpace) (spl : ℤ) (faultaddress : ℕ) : Run Unit :=
  match as with
  -- no `splx` here
  | none => fail .efault
  | some as => do
      onTlb as.checkSetUp
      match as.translate faultaddress with
      | none => do
          let _ ← splx spl
          fail .efault
      | some paddr => do
          assert (paddr &&& pageFrame = paddr) .faultPaddrFrame
          match ← attempt (onTlb (AddrSpace.enter faultaddress paddr)) with
          | .ok () => do
              let _ ← splx spl
              pure ()
          | .error e => do
              let _ ← splx spl
              fail e

/-- `vm_fault`, with the interrupt level; `as` is the address space of the current thread. -/
def vmFault (as : Option AddrSpace) (faulttype : FaultType) (faultaddress : ℕ) : Run Unit := do
  let spl ← splhigh
  match faulttype with
  | .readonly => Routine.panic .faultReadonly
  | .other => do
      let _ ← splx spl
      fail .einval
  | .read => access as spl (faultaddress &&& pageFrame)
  | .write => access as spl (faultaddress &&& pageFrame)

variable {as : AddrSpace} {spl newspl : ℤ} {page a : ℕ} {s : Cpu} {faulttype : FaultType}

/-- The processor at an interrupt level. -/
def atLevel (newspl : ℤ) (s : Cpu) : Cpu :=
  { s with
    curspl := newspl
    interrupts := if 0 < newspl then false else if newspl = 0 then true else s.interrupts }

theorem splx_eq (newspl : ℤ) (s : Cpu) :
  splx newspl s = .ok s.curspl (s.atLevel newspl)
  := by
  simp only [splx, atLevel]
  by_cases hpos : 0 < newspl
  · simp only [hpos, if_true]
    rfl
  · by_cases hzero : newspl = 0
    · simp only [hzero, lt_self_iff_false, if_true, if_false]
      rfl
    · simp only [hpos, hzero, if_false]
      rfl

/-- The return from `vm_fault` with the level restored. -/
def leave (spl : ℤ) (s : Cpu) : Outcome Errno VmPanic Tlb Unit → Outcome Errno VmPanic Cpu Unit
  | .ok () tlb => .ok () (atLevel spl { s with tlb := tlb })
  | .err e tlb => .err e (atLevel spl { s with tlb := tlb })
  | .panic p => .panic p

/-! ### The returns of `vm_fault` -/

/-- The end of `vm_fault` after the search in the TLB. -/
theorem enter_eq (page paddr : ℕ) (spl : ℤ) (s : Cpu) :
  (do
    match ← attempt (onTlb (AddrSpace.enter page paddr)) with
    | .ok () => do
        let _ ← splx spl
        pure ()
    | .error e => do
        let _ ← splx spl
        fail e : Run Unit) s
    = leave spl s (AddrSpace.enter page paddr s.tlb)
  := by
  rcases AddrSpace.enter_cases page paddr s.tlb with ⟨i, -, henter⟩ | ⟨-, henter⟩
  · have hattempt : attempt (onTlb (AddrSpace.enter page paddr)) s
        = .ok (.ok ()) { s with tlb := AddrSpace.entered s.tlb i page paddr } := by
      simp only [attempt, onTlb, zoom, henter]
    rw [bind_ok hattempt, henter]
    exact bind_ok (splx_eq spl _)
  · have hattempt : attempt (onTlb (AddrSpace.enter page paddr)) s
        = .ok (.error .efault) s := by
      simp only [attempt, onTlb, zoom, henter]
    rw [bind_ok hattempt, henter]
    exact bind_ok (splx_eq spl _)

/-- On an address space that is set up, `vm_fault` restores the level at every return. -/
theorem access_some (hset : as.SetUp) (hpage : page &&& pageFrame = page) (spl : ℤ) (s : Cpu) :
  access (some as) spl page s = leave spl s (AddrSpace.access (some as) page s.tlb)
  := by
  have hcheckTlb : as.checkSetUp s.tlb = .ok () s.tlb := AddrSpace.checkSetUp_ok.mpr ⟨hset, rfl⟩
  have hcheck : onTlb as.checkSetUp s = .ok () s := by
    simp only [onTlb, zoom, hcheckTlb]
  simp only [access]
  rw [bind_ok hcheck]
  cases htrans : as.translate page with
  | none =>
    rw [hset.access_none htrans]
    exact bind_ok (splx_eq spl s)
  | some paddr =>
    have hframe := hset.frame_of_translate hpage htrans
    rw [hset.access_some htrans hframe, ← enter_eq]
    exact bind_ok (a := ()) (assert_eq_ok.mpr ⟨hframe, rfl⟩)

/-- `vm_fault` raises the level first. -/
theorem vmFault_access (as : Option AddrSpace) (hread : faulttype = .read ∨ faulttype = .write)
    (a : ℕ) (s : Cpu) :
  vmFault as faulttype a s = access as s.curspl (a &&& pageFrame) (s.atLevel splHigh)
  := by
  rcases hread with rfl | rfl <;> exact bind_ok (splx_eq splHigh s)

theorem vmFault_other (as : Option AddrSpace) (a : ℕ) (s : Cpu) :
  vmFault as .other a s = .err .einval ((s.atLevel splHigh).atLevel s.curspl)
  := by
  have hhigh : splhigh s = .ok s.curspl (s.atLevel splHigh) := splx_eq splHigh s
  rw [vmFault, bind_ok hhigh]
  exact bind_ok (splx_eq s.curspl _)

/-- A thread without an address space is left at the highest level. -/
theorem vmFault_null (hread : faulttype = .read ∨ faulttype = .write) (a : ℕ) (s : Cpu) :
  vmFault none faulttype a s = .err .efault (s.atLevel splHigh)
  := by
  rw [vmFault_access none hread]
  rfl

theorem vmFault_eq_access {as : Option AddrSpace} (hread : faulttype = .read ∨ faulttype = .write)
    (a : ℕ) (tlb : Tlb) :
  AddrSpace.vmFault as faulttype a tlb = AddrSpace.access as (a &&& pageFrame) tlb
  := by
  rcases hread with rfl | rfl
  · rfl
  · rfl

/-- On an address space that is set up, the TLB is changed as `AddrSpace.vmFault` says. -/
theorem vmFault_some (hset : as.SetUp) (hread : faulttype = .read ∨ faulttype = .write) (a : ℕ)
    (s : Cpu) :
  vmFault (some as) faulttype a s
    = leave s.curspl (s.atLevel splHigh) (AddrSpace.vmFault (some as) faulttype a s.tlb)
  := by
  rw [vmFault_access _ hread, access_some hset (AddrSpace.pageFrame_idem a),
    vmFault_eq_access hread]
  rfl

/-! ### The effect -/

/-- One entry of the TLB that was not valid maps the page of an address now, as the address space
dictates. -/
def Maps (as : Option AddrSpace) (a : ℕ) (tlb tlb' : Tlb) : Prop :=
  ∃ space i paddr, as = some space ∧ space.Dictates (a &&& pageFrame) paddr
    ∧ paddr &&& pageFrame = paddr ∧ (tlb i).2 &&& tlbloValid = 0
    ∧ tlb' = Function.update tlb i (a &&& pageFrame, paddr ||| tlbloDirty ||| tlbloValid)

/-- `vm_fault` returns at the level at which it was called, and either maps the page of the fault
or returns an error and leaves the TLB alone. -/
def Confined (as : Option AddrSpace) (faulttype : FaultType) (a : ℕ) (s : Cpu) : Prop :=
  wp (vmFault as faulttype a) s
    (fun _ s' => s'.curspl = s.curspl ∧ Maps as a s.tlb s'.tlb)
    (fun _ s' => s'.curspl = s.curspl ∧ s'.tlb = s.tlb)

/-- On an address space that is set up the effect is confined. -/
theorem confined_some (hset : as.SetUp) (hread : faulttype = .read ∨ faulttype = .write) (a : ℕ)
    (s : Cpu) :
  Confined (some as) faulttype a s
  := by
  have hpage := AddrSpace.pageFrame_idem a
  have hrun := vmFault_some hset hread a s
  rw [vmFault_eq_access hread] at hrun
  cases htrans : as.translate (a &&& pageFrame) with
  | none =>
    rw [hset.access_none htrans] at hrun
    exact wp_of_err hrun ⟨rfl, rfl⟩
  | some paddr =>
    have hframe := hset.frame_of_translate hpage htrans
    rw [hset.access_some htrans hframe] at hrun
    rcases AddrSpace.enter_cases (a &&& pageFrame) paddr s.tlb with ⟨i, hi, henter⟩ | ⟨-, henter⟩
    · rw [henter] at hrun
      apply wp_of_ok hrun
      constructor
      · rfl
      · exact ⟨as, i, paddr, rfl, AddrSpace.dictates_of_translate htrans, hframe, hi, rfl⟩
    · rw [henter] at hrun
      exact wp_of_err hrun ⟨rfl, rfl⟩

/-- The effect of `vm_fault` is confined unless the thread has no address space and the level is
not the highest already. -/
theorem confined_iff {as : Option AddrSpace} (hset : ∀ space, as = some space → space.SetUp)
    (hfault : faulttype ≠ .readonly) (a : ℕ) (s : Cpu) :
  Confined as faulttype a s ↔ as ≠ none ∨ faulttype = .other ∨ s.curspl = splHigh
  := by
  by_cases hother : faulttype = .other
  · subst hother
    constructor
    · intro _
      right
      left
      rfl
    · intro _
      exact wp_of_err (vmFault_other as a s) ⟨rfl, rfl⟩
  · have hread : faulttype = .read ∨ faulttype = .write := by
      cases faulttype with
      | read => exact .inl rfl
      | write => exact .inr rfl
      | readonly => exact absurd rfl hfault
      | other => exact absurd rfl hother
    cases as with
    | some space =>
      constructor
      · intro _
        left
        exact Option.some_ne_none space
      · intro _
        exact confined_some (hset space rfl) hread a s
    | none =>
      have hrun := vmFault_null hread a s
      constructor
      · intro hconfined
        right
        right
        exact (wp_err hconfined hrun).1.symm
      · rintro (hnone | hother' | hhigh)
        · exact absurd rfl hnone
        · exact absurd hother' hother
        · exact wp_of_err hrun ⟨hhigh.symm, rfl⟩

/-- A thread with an address space reads from its second region. -/
theorem confined_iff_second :
  let as : AddrSpace := ⟨0x400000, 0x20000, 2, 0x10000000, 0x30000, 3, 0x40000⟩
  as.SetUp
    ∧ (Confined (some as) .read 0x10001234 ⟨fun _ => (0, 0), 0, true⟩
      ↔ some as ≠ none ∨ FaultType.read = .other ∨ (0 : ℤ) = splHigh)
  := by
  intro as
  have hset : as.SetUp :=
    ⟨⟨by decide, by decide, by decide⟩, by decide, by decide, by decide, by decide, by decide,
      by decide, by decide, by decide, by decide⟩
  constructor
  · exact hset
  · apply confined_iff
    · intro space hspace
      rw [← Option.some.inj hspace]
      exact hset
    · decide

/-- Without an address space, a read at level 0 returns at the highest level. -/
theorem null_stays_high :
  ¬ Confined none .read 0x10001234 ⟨fun _ => (0, 0), 0, true⟩
  := by
  intro hconfined
  have hlevel := (wp_err hconfined (vmFault_null (.inl rfl) _ _)).1
  exact absurd hlevel (by decide)

end Cpu
