import AzureSpider.Vm.Isolation

/-!
# Regions that are defined, and regions that are mapped

`as_define_region` aligns a region to whole pages and puts it into the first of two places whose
base address is 0.  `vm_fault` finds every page of both regions and of the stack, and no other
page, if both base addresses are different from 0.  A region in the first page of memory has the
base address 0: its place counts as free, and `vm_fault` does not accept an address space with a
free place.
-/

open Machine Routine

/-- `USERTOP`. -/
def userTop : ℕ := kseg0

/-! ### Faults -/

namespace AddrSpace

variable {as : AddrSpace} {page paddr : ℕ} {tlb : Tlb}

/-- Some entry of the TLB is not valid. -/
def Free (tlb : Tlb) : Prop := ∃ i, (tlb i).2 &&& tlbloValid = 0

/-- The TLB with a new entry. -/
def entered (tlb : Tlb) (i : Fin 64) (page paddr : ℕ) : Tlb :=
  Function.update tlb i (page, paddr ||| tlbloDirty ||| tlbloValid)

/-- A translation is entered in place of an entry that is not valid, if there is one. -/
theorem enter_cases (page paddr : ℕ) (tlb : Tlb) :
  (∃ i, (tlb i).2 &&& tlbloValid = 0 ∧ enter page paddr tlb = .ok () (entered tlb i page paddr))
    ∨ ¬ Free tlb ∧ enter page paddr tlb = .err .efault tlb
  := by
  rw [enter, get_bind]
  cases hfind : (List.finRange 64).find? fun i => (tlb i).2 &&& tlbloValid = 0 with
  | none =>
    right
    constructor
    · rintro ⟨i, hi⟩
      have hnot := List.find?_eq_none.mp hfind i (List.mem_finRange i)
      simp only [decide_eq_true_eq] at hnot
      exact hnot hi
    · rfl
  | some i =>
    left
    use i
    constructor
    · have hi := List.find?_some hfind
      simpa only [decide_eq_true_eq] using hi
    · rfl

/-- `vm_fault` panics on an address space that is not set up. -/
theorem access_panic (h : ¬ as.SetUp) (page : ℕ) (tlb : Tlb) :
  ∃ q, access (some as) page tlb = .panic q
  := by
  have hcheck : wlp (fun _ => True) as.checkSetUp tlb (fun _ _ => True) := by
    simp only [checkSetUp, wlp_bind, wlp_assert, implies_true, and_true]
  cases hrun : as.checkSetUp tlb with
  | ok u tlb' => exact absurd (checkSetUp_ok.mp hrun).1 h
  | err e tlb' => exact (wlp_err hcheck hrun).elim
  | panic q =>
    use q
    simp only [access]
    exact bind_panic hrun

/-- `vm_fault` on an address space that is set up. -/
theorem SetUp.access_eq (h : as.SetUp) (page : ℕ) (tlb : Tlb) :
  access (some as) page tlb
    = (match as.translate page with
      | none => fail .efault
      | some paddr => do
          assert (paddr &&& pageFrame = paddr) .faultPaddrFrame
          enter page paddr : Fault Unit) tlb
  := by
  simp only [access]
  exact bind_ok (a := ()) (checkSetUp_ok.mpr ⟨h, rfl⟩)

theorem SetUp.access_none (h : as.SetUp) (htrans : as.translate page = none) (tlb : Tlb) :
  access (some as) page tlb = .err .efault tlb
  := by
  rw [h.access_eq, htrans]
  rfl

theorem SetUp.access_some (h : as.SetUp) (htrans : as.translate page = some paddr)
    (hframe : paddr &&& pageFrame = paddr) (tlb : Tlb) :
  access (some as) page tlb = enter page paddr tlb
  := by
  rw [h.access_eq, htrans]
  exact bind_ok (a := ()) (assert_eq_ok.mpr ⟨hframe, rfl⟩)

end AddrSpace

/-! ### Regions -/

/-- A region that `as_define_region` is called for. -/
structure Region where
  vaddr : ℕ
  sz : ℕ
  deriving DecidableEq, Repr

namespace Region

variable {r : Region} {a : ℕ}

/-- A region of user memory that is not empty. -/
def Valid (r : Region) : Prop := 0 < r.sz ∧ r.vaddr + r.sz ≤ userTop

instance (r : Region) : Decidable r.Valid :=
  inferInstanceAs (Decidable (_ ∧ _))

/-- The address is in the region. -/
def Mem (r : Region) (a : ℕ) : Prop := r.vaddr ≤ a ∧ a < r.vaddr + r.sz

/-- The first page of the region. -/
def base (r : Region) : ℕ := r.vaddr / pageSize * pageSize

/-- The number of pages of the region. -/
def npages (r : Region) : ℕ := (r.vaddr % pageSize + r.sz + (pageSize - 1)) / pageSize

/-- The address is in one of the pages of the region. -/
def PageMem (r : Region) (a : ℕ) : Prop := r.base ≤ a ∧ a < r.base + r.npages * pageSize

/-- The pages of a region of user memory are pages of user memory. -/
theorem Valid.top_le (h : r.Valid) :
  r.base + r.npages * pageSize ≤ userTop
  := by
  obtain ⟨hpos, hle⟩ := h
  simp only [base, npages, pageSize, userTop, kseg0] at hle ⊢
  omega

theorem Valid.u32_top (h : r.Valid) :
  u32 (r.base + u32 (r.npages * pageSize)) = r.base + r.npages * pageSize
  := by
  have htop := h.top_le
  simp only [userTop, kseg0] at htop
  rw [u32_of_lt (n := r.npages * pageSize) (by omega), u32_of_lt (by omega)]

theorem Valid.npages_ne_zero (h : r.Valid) :
  r.npages ≠ 0
  := by
  obtain ⟨hpos, -⟩ := h
  simp only [npages, pageSize]
  omega

theorem base_eq_zero_iff :
  r.base = 0 ↔ r.vaddr < pageSize
  := by
  simp only [base, pageSize]
  omega

theorem Valid.base_frame (h : r.Valid) :
  r.base &&& pageFrame = r.base
  := by
  obtain ⟨hpos, hle⟩ := h
  simp only [userTop, kseg0] at hle
  apply (and_pageFrame_eq_self _).mpr
  · exact Nat.mul_mod_left _ _
  · simp only [base, pageSize]
    omega

/-- An address is in the pages of a region when its page is. -/
theorem pageMem_iff (ha : a < 2 ^ 32) :
  r.PageMem a
    ↔ r.base ≤ a &&& pageFrame ∧ a &&& pageFrame < r.base + r.npages * pageSize
  := by
  rw [and_pageFrame]
  simp only [PageMem, base, pageSize]
  omega

theorem Mem.pageMem (h : r.Mem a) :
  r.PageMem a
  := by
  obtain ⟨hle, hlt⟩ := h
  simp only [PageMem, base, npages, pageSize]
  omega

end Region

namespace Dumbvm

/-- What `as_define_region` computes of a region of user memory. -/
theorem asDefineRegion_eq {r : Region} (h : r.Valid) (as : AddrSpace) :
  asDefineRegion as r.vaddr r.sz
    = if as.vbase1 = 0 then .ok { as with vbase1 := r.base, npages1 := r.npages }
      else if as.vbase2 = 0 then .ok { as with vbase2 := r.base, npages2 := r.npages }
      else .error .eunimp
  := by
  obtain ⟨hpos, hle⟩ := h
  simp only [userTop, kseg0] at hle
  have hbase : r.vaddr &&& pageFrame = r.base := by
    rw [and_pageFrame]
    simp only [Region.base, pageSize]
    omega
  have hnpages : (u32 (u32 (r.sz + (r.vaddr &&& pageOffset)) + pageSize - 1) &&& pageFrame)
      / pageSize = r.npages := by
    rw [and_pageFrame, and_pageOffset]
    simp only [Region.npages, pageSize, u32]
    omega
  simp only [asDefineRegion, hbase, hnpages]

end Dumbvm

/-! ### Mapped regions -/

namespace AddrSpace

variable {as : AddrSpace} {r₁ r₂ : Region} {a : ℕ}

/-- The address is in the stack. -/
def InStack (a : ℕ) : Prop := userStack - stackPages * pageSize ≤ a ∧ a < userStack

/-- `vm_fault` finds the addresses of two regions, and no address that is neither in the pages
of a region nor in the stack. -/
structure Maps (as : AddrSpace) (r₁ r₂ : Region) : Prop where
  inside : ∀ tlb a, Free tlb → r₁.Mem a ∨ r₂.Mem a →
    ∃ i frame, vmFault (some as) .read a tlb = .ok () (entered tlb i (a &&& pageFrame) frame)
  outside : ∀ tlb, ∀ a < 2 ^ 32, ¬ r₁.PageMem a → ¬ r₂.PageMem a → ¬ InStack a →
    vmFault (some as) .read a tlb = .err .efault tlb

/-- The address space has two regions, and pages for them. -/
structure Holds (as : AddrSpace) (r₁ r₂ : Region) : Prop where
  vbase1 : as.vbase1 = r₁.base
  npages1 : as.npages1 = r₁.npages
  vbase2 : as.vbase2 = r₂.base
  npages2 : as.npages2 = r₂.npages
  loaded : as.Loaded
  proper : ∀ k, (as.range k).Proper

/-- An address space with two regions, neither of which starts in the first page, is set up. -/
theorem Holds.setUp (h : as.Holds r₁ r₂) (hr₁ : r₁.Valid) (hr₂ : r₂.Valid)
    (h₁ : r₁.base ≠ 0) (h₂ : r₂.base ≠ 0) :
  as.SetUp
  := by
  have hn₁ : as.npages1 ≠ 0 := by
    rw [h.npages1]
    exact hr₁.npages_ne_zero
  have hn₂ : as.npages2 ≠ 0 := by
    rw [h.npages2]
    exact hr₂.npages_ne_zero
  have hframe : ∀ k, (as.range k).base &&& pageFrame = (as.range k).base := by
    intro k
    apply (h.proper k).frame
    match k with
    | 0 => exact hn₁
    | 1 => exact hn₂
    | 2 => exact Nat.succ_ne_zero 11
  constructor
  · exact h.loaded
  · rw [h.vbase1]
    exact h₁
  · exact hn₁
  · rw [h.vbase2]
    exact h₂
  · exact hn₂
  · rw [h.vbase1]
    exact hr₁.base_frame
  · exact hframe 0
  · rw [h.vbase2]
    exact hr₂.base_frame
  · exact hframe 1
  · exact hframe 2

/-- Which region, if any, the page of an address is found in. -/
theorem Holds.translate_eq (h : as.Holds r₁ r₂) (hr₁ : r₁.Valid) (hr₂ : r₂.Valid)
    (ha : a < 2 ^ 32) :
  as.translate (a &&& pageFrame) = none ↔ ¬ r₁.PageMem a ∧ ¬ r₂.PageMem a ∧ ¬ InStack a
  := by
  have hstack : InStack a
      ↔ userStack - stackPages * pageSize ≤ a &&& pageFrame ∧ a &&& pageFrame < userStack := by
    rw [and_pageFrame]
    simp only [InStack, userStack, kseg0, stackPages, pageSize]
    omega
  rw [Region.pageMem_iff ha, Region.pageMem_iff ha, hstack]
  simp only [translate, h.vbase1, h.npages1, h.vbase2, h.npages2, hr₁.u32_top, hr₂.u32_top]
  split_ifs with h₁ h₂ h₃
  · simp [h₁]
  · simp [h₂]
  · simp [h₃]
  · exact iff_of_true rfl ⟨h₁, h₂, h₃⟩

theorem mod_of_frame {v : ℕ} (h : v &&& pageFrame = v) :
  v % pageSize = 0
  := by
  rw [and_pageFrame] at h
  rw [← h]
  exact Nat.mul_mod_left _ _

/-- Pages are translated to frames. -/
theorem SetUp.frame_of_translate {page paddr : ℕ} (h : as.SetUp)
    (hpage : page &&& pageFrame = page) (htrans : as.translate page = some paddr) :
  paddr &&& pageFrame = paddr
  := by
  -- in each of the regions the offset and the base are multiples of the page size
  have hsum : ∀ v p, v &&& pageFrame = v → p &&& pageFrame = p →
      some (u32 (page - v + p)) = some paddr → paddr &&& pageFrame = paddr := by
    intro v p hv hp heq
    rw [← Option.some.inj heq]
    apply (and_pageFrame_eq_self (u32_lt _)).mpr
    have hpage' := mod_of_frame hpage
    have hv' := mod_of_frame hv
    have hp' := mod_of_frame hp
    simp only [pageSize, u32] at hpage' hv' hp' ⊢
    omega
  simp only [translate] at htrans
  split_ifs at htrans
  · exact hsum _ _ h.vbase1_frame h.pbase1_frame htrans
  · exact hsum _ _ h.vbase2_frame h.pbase2_frame htrans
  · exact hsum _ _ (by decide) h.stackpbase_frame htrans

/-- Two regions that are held, and do not start in the first page, are mapped. -/
theorem Holds.maps (h : as.Holds r₁ r₂) (hr₁ : r₁.Valid) (hr₂ : r₂.Valid)
    (h₁ : r₁.base ≠ 0) (h₂ : r₂.base ≠ 0) :
  as.Maps r₁ r₂
  := by
  have hset := h.setUp hr₁ hr₂ h₁ h₂
  constructor
  · intro tlb a hfree hmem
    have hpages : r₁.PageMem a ∨ r₂.PageMem a := hmem.imp Region.Mem.pageMem Region.Mem.pageMem
    have ha : a < 2 ^ 32 := by
      have htop₁ := hr₁.top_le
      have htop₂ := hr₂.top_le
      simp only [userTop, kseg0] at htop₁ htop₂
      simp only [Region.PageMem] at hpages
      omega
    cases htrans : as.translate (a &&& pageFrame) with
    | none =>
      obtain ⟨hnot₁, hnot₂, -⟩ := (h.translate_eq hr₁ hr₂ ha).mp htrans
      rcases hpages with hin | hin
      · exact absurd hin hnot₁
      · exact absurd hin hnot₂
    | some frame =>
      have hframe := hset.frame_of_translate (pageFrame_idem a) htrans
      have haccess := hset.access_some htrans hframe tlb
      rcases enter_cases (a &&& pageFrame) frame tlb with ⟨i, -, hok⟩ | ⟨hfull, -⟩
      · exact ⟨i, frame, haccess.trans hok⟩
      · exact absurd hfree hfull
  · intro tlb a ha hnot₁ hnot₂ hstack
    apply hset.access_none
    exact (h.translate_eq hr₁ hr₂ ha).mpr ⟨hnot₁, hnot₂, hstack⟩

/-- A region is not mapped in an address space that is not set up. -/
theorem not_maps_of_not_setUp (h : ¬ as.SetUp) (hr₁ : r₁.Valid) :
  ¬ as.Maps r₁ r₂
  := by
  intro hmaps
  have hmem : r₁.Mem r₁.vaddr := by
    obtain ⟨hpos, -⟩ := hr₁
    simp only [Region.Mem]
    omega
  obtain ⟨i, frame, hok⟩ := hmaps.inside (fun _ => (0, 0)) r₁.vaddr ⟨0, rfl⟩ (.inl hmem)
  obtain ⟨q, hpanic⟩ := access_panic h (r₁.vaddr &&& pageFrame) fun _ => (0, 0)
  have hsame : access (some as) (r₁.vaddr &&& pageFrame) (fun _ => (0, 0))
    = .ok () (entered (fun _ => (0, 0)) i (r₁.vaddr &&& pageFrame) frame) := hok
  rw [hpanic] at hsame
  cases hsame

end AddrSpace

namespace Dumbvm

/-- The address space that `as_create` returns. -/
def fresh : AddrSpace := ⟨0, 0, 0, 0, 0, 0, 0⟩

/-- What `as_prepare_load` leaves as it was, and what it has got when it returns 0. -/
theorem asPrepareLoad_ok {s s' : Dumbvm} {as as₂ : AddrSpace}
    (h : asPrepareLoad as₂ s = .ok (as, none) s') :
  as₂.SameRegions as ∧ as.Loaded ∧ ∀ k, (as.range k).Proper
  := by
  have hend := wlp_ok (asPrepareLoad_spec as₂) h
  obtain ⟨-, -, hsame, -, hloaded⟩ := hend
  exact ⟨hsame, hloaded rfl⟩

/-- Two regions of user memory that were defined are mapped, once the address space has got its
pages, exactly when neither of them starts in the first page. -/
theorem maps_iff {s s' : Dumbvm} {as as₁ as₂ : AddrSpace} {r₁ r₂ : Region} (hr₁ : r₁.Valid)
    (hr₂ : r₂.Valid)
    (h₁ : asDefineRegion fresh r₁.vaddr r₁.sz = .ok as₁)
    (h₂ : asDefineRegion as₁ r₂.vaddr r₂.sz = .ok as₂)
    (hload : asPrepareLoad as₂ s = .ok (as, none) s') :
  as.Maps r₁ r₂ ↔ pageSize ≤ r₁.vaddr ∧ pageSize ≤ r₂.vaddr
  := by
  obtain ⟨hsame, hloaded, hproper⟩ := asPrepareLoad_ok hload
  have hfree : fresh.vbase1 = 0 := rfl
  rw [asDefineRegion_eq hr₁, if_pos hfree] at h₁
  obtain rfl := Except.ok.inj h₁
  rw [asDefineRegion_eq hr₂] at h₂
  simp only [← Nat.not_lt, ← Region.base_eq_zero_iff]
  by_cases hbase₁ : r₁.base = 0
  · -- the second region takes the place of the first
    rw [if_pos hbase₁] at h₂
    obtain rfl := Except.ok.inj h₂
    apply iff_of_false
    · apply AddrSpace.not_maps_of_not_setUp _ hr₁
      intro hset
      apply hset.vbase2
      exact congrArg AddrSpace.vbase2 hsame
    · intro hboth
      exact hboth.1 hbase₁
  · have hfree₂ : fresh.vbase2 = 0 := rfl
    simp only [hbase₁, hfree₂, if_false, if_true] at h₂
    obtain rfl := Except.ok.inj h₂
    have hholds : as.Holds r₁ r₂ :=
      ⟨congrArg _ hsame, congrArg _ hsame, congrArg _ hsame, congrArg _ hsame, hloaded, hproper⟩
    by_cases hbase₂ : r₂.base = 0
    · apply iff_of_false
      · apply AddrSpace.not_maps_of_not_setUp _ hr₁
        intro hset
        apply hset.vbase2
        rw [hholds.vbase2, hbase₂]
      · intro hboth
        exact hboth.2 hbase₂
    · exact iff_of_true (hholds.maps hr₁ hr₂ hbase₁ hbase₂) ⟨hbase₁, hbase₂⟩

/-- Nothing is handed out, and there are pages at three places. -/
def threePlaces : Dumbvm := ⟨[], [], fun _ => 0, [0x10000, 0x20000, 0x30000], []⟩

/-- A region of code and one of data are mapped. -/
theorem maps_iff_codeAndData :
  ∃ as₁ as₂, asDefineRegion fresh 0x400010 100 = .ok as₁
    ∧ asDefineRegion as₁ 0x10000000 5000 = .ok as₂
    ∧ ∃ as s', asPrepareLoad as₂ threePlaces = .ok (as, none) s'
      ∧ as.Maps ⟨0x400010, 100⟩ ⟨0x10000000, 5000⟩
  := by
  have hr₁ : (⟨0x400010, 100⟩ : Region).Valid := by decide
  have hr₂ : (⟨0x10000000, 5000⟩ : Region).Valid := by decide
  have h₁ : asDefineRegion fresh 0x400010 100 = .ok ⟨0x400000, 0, 1, 0, 0, 0, 0⟩ := by decide
  have h₂ : asDefineRegion ⟨0x400000, 0, 1, 0, 0, 0, 0⟩ 0x10000000 5000
      = .ok ⟨0x400000, 0, 1, 0x10000000, 0, 2, 0⟩ := by
    decide
  obtain ⟨⟨as, _⟩, s', hload, rfl⟩ : ∃ r s', asPrepareLoad ⟨0x400000, 0, 1, 0x10000000, 0, 2, 0⟩
      threePlaces = .ok r s' ∧ r.2 = none := by
    decide +kernel
  refine ⟨_, _, h₁, h₂, as, s', hload, ?_⟩
  apply (maps_iff hr₁ hr₂ h₁ h₂ hload).mpr
  decide

/-- When the first of two regions starts in the first page, the second takes its place, and no
fault in either of them is handled. -/
theorem firstPage_not_mapped :
  ∃ as₁ as₂, asDefineRegion fresh 0 1 = .ok as₁ ∧ asDefineRegion as₁ 0x400000 1 = .ok as₂
    ∧ ∃ as s', asPrepareLoad as₂ threePlaces = .ok (as, none) s'
      ∧ ∀ a, ∃ q, AddrSpace.vmFault (some as) .read a (fun _ => (0, 0)) = .panic q
  := by
  refine ⟨⟨0, 0, 1, 0, 0, 0, 0⟩, ⟨0x400000, 0, 1, 0, 0, 0, 0⟩, by decide, by decide, ?_⟩
  obtain ⟨⟨as, _⟩, s', hload, rfl⟩ : ∃ r s', asPrepareLoad ⟨0x400000, 0, 1, 0, 0, 0, 0⟩
      threePlaces = .ok r s' ∧ r.2 = none := by
    decide +kernel
  use as, s', hload
  intro a
  apply AddrSpace.access_panic
  intro hset
  exact hset.vbase2 (congrArg AddrSpace.vbase2 (asPrepareLoad_ok hload).1)

end Dumbvm
