import AzureSpider.Vm.Dumbvm

/-!
# Isolation of the address spaces

When the regions of every address space are defined before `as_prepare_load` gets the pages for
them, the ranges of all address spaces are apart: two pages of one or of two address spaces are
translated to different frames, and a copy has the contents of the original in frames of its own.

A region that is defined later has no pages: its translations run into pages that someone else
has got.
-/

open Machine Routine

/-! ### Translations -/

namespace AddrSpace

variable {as : AddrSpace} {page frame : ℕ}

/-- `as_prepare_load` has got all pages. -/
def Loaded (as : AddrSpace) : Prop := as.pbase1 ≠ 0 ∧ as.pbase2 ≠ 0 ∧ as.stackpbase ≠ 0

instance (as : AddrSpace) : Decidable as.Loaded :=
  inferInstanceAs (Decidable (_ ∧ _))

/-- The assertions of `vm_fault` hold. -/
structure SetUp (as : AddrSpace) : Prop where
  loaded : as.Loaded
  vbase1 : as.vbase1 ≠ 0
  npages1 : as.npages1 ≠ 0
  vbase2 : as.vbase2 ≠ 0
  npages2 : as.npages2 ≠ 0
  vbase1_frame : as.vbase1 &&& pageFrame = as.vbase1
  pbase1_frame : as.pbase1 &&& pageFrame = as.pbase1
  vbase2_frame : as.vbase2 &&& pageFrame = as.vbase2
  pbase2_frame : as.pbase2 &&& pageFrame = as.pbase2
  stackpbase_frame : as.stackpbase &&& pageFrame = as.stackpbase

theorem checkSetUp_ok {tlb tlb' : Tlb} {u : Unit} :
  checkSetUp as tlb = .ok u tlb' ↔ as.SetUp ∧ tlb' = tlb
  := by
  simp only [checkSetUp, bind_eq_ok, assert_eq_ok]
  constructor
  · rintro ⟨_, _, ⟨h₁, rfl⟩, _, _, ⟨h₂, rfl⟩, _, _, ⟨h₃, rfl⟩, _, _, ⟨h₄, rfl⟩, _, _, ⟨h₅, rfl⟩,
      _, _, ⟨h₆, rfl⟩, _, _, ⟨h₇, rfl⟩, _, _, ⟨h₈, rfl⟩, _, _, ⟨h₉, rfl⟩, _, _, ⟨h₁₀, rfl⟩,
      _, _, ⟨h₁₁, rfl⟩, h₁₂, rfl⟩
    exact ⟨⟨⟨h₂, h₅, h₇⟩, h₁, h₃, h₄, h₆, h₈, h₉, h₁₀, h₁₁, h₁₂⟩, rfl⟩
  · rintro ⟨h, rfl⟩
    exact ⟨(), _, ⟨h.vbase1, rfl⟩, (), _, ⟨h.loaded.1, rfl⟩, (), _, ⟨h.npages1, rfl⟩,
      (), _, ⟨h.vbase2, rfl⟩, (), _, ⟨h.loaded.2.1, rfl⟩, (), _, ⟨h.npages2, rfl⟩,
      (), _, ⟨h.loaded.2.2, rfl⟩, (), _, ⟨h.vbase1_frame, rfl⟩, (), _, ⟨h.pbase1_frame, rfl⟩,
      (), _, ⟨h.vbase2_frame, rfl⟩, (), _, ⟨h.pbase2_frame, rfl⟩, h.stackpbase_frame, rfl⟩

theorem frame_flags (h : frame &&& pageFrame = frame) :
  (frame ||| tlbloDirty ||| tlbloValid) &&& pageFrame = frame
  := by
  have hdirty : tlbloDirty &&& pageFrame = 0 := by decide
  have hvalid : tlbloValid &&& pageFrame = 0 := by decide
  rw [Nat.and_or_distrib_right, Nat.and_or_distrib_right, h, hdirty, hvalid, Nat.or_zero,
    Nat.or_zero]

theorem pageFrame_idem (addr : ℕ) :
  addr &&& pageFrame &&& pageFrame = addr &&& pageFrame
  := by
  rw [Nat.and_assoc, Nat.and_self]

/-- What `vm_fault` does on a read or a write. -/
theorem access_ok {tlb tlb' : Tlb} {u : Unit} (h : access (some as) page tlb = .ok u tlb') :
  as.SetUp ∧ ∃ paddr i, as.translate page = some paddr ∧ paddr &&& pageFrame = paddr
    ∧ tlb' = Function.update tlb i (page, paddr ||| tlbloDirty ||| tlbloValid)
  := by
  simp only [access, bind_eq_ok, checkSetUp_ok] at h
  obtain ⟨_, tlb₁, ⟨hset, rfl⟩, h⟩ := h
  cases htrans : as.translate page with
  | none => simp [htrans] at h
  | some paddr =>
    simp only [htrans, bind_eq_ok, assert_eq_ok] at h
    obtain ⟨_, tlb₂, ⟨hframe, rfl⟩, h⟩ := h
    simp only [enter, get_bind] at h
    cases hfind : (List.finRange 64).find? fun i => (tlb₁ i).2 &&& tlbloValid = 0 with
    | none => simp [hfind] at h
    | some i =>
      simp only [hfind, modify_eq_ok] at h
      exact ⟨hset, paddr, i, rfl, hframe, h.symm⟩

/-- The translations that `vm_fault` enters. -/
theorem Installs.translate (h : as.Installs page frame) :
  as.SetUp ∧ page &&& pageFrame = page ∧ as.translate page = some frame
    ∧ frame &&& pageFrame = frame
  := by
  obtain ⟨faulttype, addr, tlb, tlb', i, hfault, hne, hpage, hframe⟩ := h
  have haccess : access (some as) (addr &&& pageFrame) tlb = .ok () tlb' := by
    cases faulttype with
    | read | write => exact hfault
    | readonly | other => cases hfault
  obtain ⟨hset, paddr, j, htrans, haligned, rfl⟩ := access_ok haccess
  have hij : i = j := by
    by_contra hij
    exact hne (Function.update_of_ne hij _ _)
  subst hij
  rw [Function.update_self] at hpage hframe
  dsimp only at hpage hframe
  rw [frame_flags haligned] at hframe
  subst hpage hframe
  exact ⟨hset, pageFrame_idem addr, htrans, haligned⟩

/-- An entry with the flag for valid entries is not zero. -/
theorem or_tlbloValid_ne_zero (elo : ℕ) :
  elo ||| tlbloValid ≠ 0
  := by
  intro h
  have hvalid := (Nat.or_eq_zero_iff.mp h).2
  revert hvalid
  decide

/-- From a TLB without valid entries, `vm_fault` enters every translation. -/
theorem SetUp.installs_of_translate (hset : as.SetUp) (hpage : page &&& pageFrame = page)
    (htrans : as.translate page = some frame) (hframe : frame &&& pageFrame = frame) :
  as.Installs page frame
  := by
  have hfind : (List.finRange 64).find? (fun _ => (0 : ℕ) &&& tlbloValid = 0) = some 0 := by
    decide
  use .read, page, fun _ => (0, 0),
    Function.update (fun _ => (0, 0)) 0 (page, frame ||| tlbloDirty ||| tlbloValid), 0
  constructor
  · simp only [vmFault, hpage, access, bind_eq_ok, checkSetUp_ok, htrans, assert_eq_ok]
    use (), fun _ => (0, 0)
    constructor
    · exact ⟨hset, rfl⟩
    · use (), fun _ => (0, 0), ⟨hframe, rfl⟩
      simp only [enter, get_bind, hfind]
      rfl
  · rw [Function.update_self]
    constructor
    · intro h
      apply or_tlbloValid_ne_zero (frame ||| tlbloDirty) (congrArg Prod.snd h)
    · exact ⟨rfl, frame_flags hframe⟩

/-! ### The regions -/

/-- The pages of a region, and of the stack. -/
def range (as : AddrSpace) : Fin 3 → PageRange
  | 0 => ⟨as.pbase1, as.npages1⟩
  | 1 => ⟨as.pbase2, as.npages2⟩
  | 2 => ⟨as.stackpbase, stackPages⟩

/-- Where a region, and the stack, starts in the address space. -/
def vbase (as : AddrSpace) : Fin 3 → ℕ
  | 0 => as.vbase1
  | 1 => as.vbase2
  | 2 => userStack - stackPages * pageSize

/-- The same regions, with other pages. -/
def withBases (as : AddrSpace) (bases : Fin 3 → ℕ) : AddrSpace :=
  { as with pbase1 := bases 0, pbase2 := bases 1, stackpbase := bases 2 }

/-- A page is the one at the offset `x` of the region `k`, and `vm_fault` finds it there. -/
def Locates (as : AddrSpace) (page : ℕ) (k : Fin 3) (x : ℕ) : Prop :=
  page = as.vbase k + x ∧ x < (as.range k).npages * pageSize
    ∧ ∀ bases, (as.withBases bases).translate page = some (u32 (x + bases k))

/-- A region does not wrap around to a place above its start. -/
theorem lt_npages {v n : ℕ} (hn : n * pageSize < 2 ^ 32) (hv : v ≤ page)
    (hlt : page < u32 (v + u32 (n * pageSize))) :
  page - v < n * pageSize
  := by
  rw [u32_of_lt hn] at hlt
  have hle : u32 (v + n * pageSize) ≤ v + n * pageSize := Nat.mod_le _ _
  omega

/-- Which of the regions `vm_fault` chooses does not depend on their pages. -/
theorem exists_locates (hn : ∀ k, (as.range k).npages * pageSize < 2 ^ 32)
    (htrans : as.translate page = some frame) :
  ∃ k x, as.Locates page k x
  := by
  have hn₁ : as.npages1 * pageSize < 2 ^ 32 := hn 0
  have hn₂ : as.npages2 * pageSize < 2 ^ 32 := hn 1
  unfold Locates withBases
  simp only [translate] at htrans ⊢
  split at htrans
  case isTrue h₁ =>
    use 0, page - as.vbase1
    simp only [if_pos h₁, implies_true, and_true]
    exact ⟨(Nat.add_sub_cancel' h₁.1).symm, lt_npages hn₁ h₁.1 h₁.2⟩
  case isFalse h₁ =>
    split at htrans
    case isTrue h₂ =>
      use 1, page - as.vbase2
      simp only [if_neg h₁, if_pos h₂, implies_true, and_true]
      exact ⟨(Nat.add_sub_cancel' h₂.1).symm, lt_npages hn₂ h₂.1 h₂.2⟩
    case isFalse h₂ =>
      split at htrans
      case isTrue h₃ =>
        use 2, page - (userStack - stackPages * pageSize)
        simp only [if_neg h₁, if_neg h₂, if_pos h₃, implies_true, and_true]
        constructor
        · exact (Nat.add_sub_cancel' h₃.1).symm
        · simp only [range, userStack, kseg0, stackPages, pageSize] at h₃ ⊢
          omega
      case isFalse h₃ => cases htrans

end AddrSpace

namespace PageRange

variable {r q : PageRange}

theorem Apart.symm (h : r.Apart q) :
  q.Apart r
  := by
  unfold Apart at h ⊢
  omega

/-- Ranges that are apart have no address in common. -/
theorem Apart.ne {x y : ℕ} (h : r.Apart q) (hx : x < r.npages * pageSize)
    (hy : y < q.npages * pageSize) :
  r.base + x ≠ q.base + y
  := by
  intro heq
  rcases h with h | h | h | h
  · simp [h] at hx
  · simp [h] at hy
  · omega
  · omega

theorem Proper.npages_lt (h : r.Proper) :
  r.npages * pageSize < 2 ^ 32
  := by
  obtain ⟨hne, -, hle⟩ := h
  omega

/-- A range of pages starts at a frame. -/
theorem Proper.frame (h : r.Proper) (hn : r.npages ≠ 0) :
  r.base &&& pageFrame = r.base
  := by
  obtain ⟨-, hmod, hle⟩ := h
  apply (and_pageFrame_eq_self _).mpr hmod
  simp only [pageSize] at hle
  omega

theorem Proper.add_lt {x : ℕ} (h : r.Proper) (hx : x < r.npages * pageSize) :
  r.base + x < 2 ^ 32
  := by
  obtain ⟨-, -, hle⟩ := h
  omega

end PageRange

/-! ### Frames -/

namespace AddrSpace

variable {as : AddrSpace} {page frame : ℕ}

/-- The frame of a page is the one at its offset in the pages of its region. -/
theorem Locates.translate {k : Fin 3} {x : ℕ} (h : as.Locates page k x)
    (hproper : (as.range k).Proper) :
  as.translate page = some ((as.range k).base + x)
  := by
  obtain ⟨-, hx, htrans⟩ := h
  have hbases := htrans fun l => (as.range l).base
  have hlt := hproper.add_lt hx
  rw [Nat.add_comm] at hlt
  rw [u32_of_lt hlt, Nat.add_comm] at hbases
  exact hbases

/-- The address space `new` has the regions of `as`. -/
def SameRegions (as new : AddrSpace) : Prop := new = as.withBases fun k => (new.range k).base

variable {new : AddrSpace} {k : Fin 3}

theorem SameRegions.npages (h : as.SameRegions new) (k : Fin 3) :
  (new.range k).npages = (as.range k).npages
  := by
  rw [h]
  match k with
  | 0 | 1 | 2 => rfl

theorem SameRegions.locates {x : ℕ} (h : as.SameRegions new) (hloc : as.Locates page k x) :
  new.Locates page k x
  := by
  rw [Locates, h.npages, h]
  match k with
  | 0 | 1 | 2 => exact hloc

end AddrSpace

namespace Dumbvm

variable {s s' : Dumbvm}

/-- Every range of a loaded address space has been handed out, and is apart from all others. -/
structure Sound (s : Dumbvm) : Prop where
  proper : ∀ r ∈ s.given, r.Proper
  owned : ∀ {i : ℕ} {as : AddrSpace}, s.spaces[i]? = some as → as.Loaded →
    ∀ k, as.range k ∈ s.given
  apart : ∀ {i j : ℕ} {as as' : AddrSpace} {k l : Fin 3}, s.spaces[i]? = some as →
    s.spaces[j]? = some as' → as.Loaded → as'.Loaded → (i, k) ≠ (j, l) →
      (as.range k).Apart (as'.range l)

theorem sound_init (mem : ℕ → UInt8) :
  (init mem).Sound
  := by
  constructor <;> simp [init]

/-! ### Translations -/

section Translations

variable {i j page page' frame frame' : ℕ} {as as' : AddrSpace}

theorem Sound.proper_range (h : s.Sound) (hi : s.spaces[i]? = some as) (hload : as.Loaded)
    (k : Fin 3) :
  (as.range k).Proper
  := h.proper _ (h.owned hi hload k)

/-- A page has its frame in the range of its region. -/
theorem Sound.exists_locates (h : s.Sound) (hi : s.spaces[i]? = some as)
    (hin : as.Installs page frame) :
  ∃ k x, as.Locates page k x ∧ frame = (as.range k).base + x
  := by
  obtain ⟨hset, -, htrans, -⟩ := hin.translate
  have hproper := h.proper_range hi hset.loaded
  obtain ⟨k, x, hloc⟩ := AddrSpace.exists_locates (fun k => (hproper k).npages_lt) htrans
  use k, x, hloc
  rw [hloc.translate (hproper k)] at htrans
  exact (Option.some.inj htrans).symm

/-- Different pages have different frames. -/
theorem Sound.frame_ne (h : s.Sound) (hi : s.spaces[i]? = some as) (hj : s.spaces[j]? = some as')
    (hin : as.Installs page frame) (hin' : as'.Installs page' frame')
    (hne : (i, page) ≠ (j, page')) :
  frame ≠ frame'
  := by
  obtain ⟨k, x, ⟨hpage, hx, -⟩, rfl⟩ := h.exists_locates hi hin
  obtain ⟨l, y, ⟨hpage', hy, -⟩, rfl⟩ := h.exists_locates hj hin'
  have hload := hin.translate.1.loaded
  have hload' := hin'.translate.1.loaded
  by_cases hik : (i, k) = (j, l)
  · obtain ⟨rfl, rfl⟩ := Prod.mk.inj hik
    obtain rfl := Option.some.inj (hi.symm.trans hj)
    intro hframe
    apply hne
    rw [hpage, hpage', Nat.add_left_cancel hframe]
  · apply (h.apart hi hj hload hload' hik).ne hx hy

end Translations

/-- A byte is stored at a physical address. -/
def store (s : Dumbvm) (p : ℕ) (v : UInt8) : Dumbvm :=
  { s with mem := Function.update s.mem (paddrToKvaddr p) v }

/-- No store to the first frame is seen in the second. -/
def Unseen (frame frame' : ℕ) : Prop :=
  ∀ (s : Dumbvm) (off off' : ℕ) (v : UInt8), off < pageSize → off' < pageSize →
    (s.store (frame + off) v).phys (frame' + off') = s.phys (frame' + off')

theorem paddrToKvaddr_ne {p q : ℕ} (hp : p < 2 ^ 32) (hq : q < 2 ^ 32) (hne : p ≠ q) :
  paddrToKvaddr p ≠ paddrToKvaddr q
  := by
  simp only [paddrToKvaddr, kseg0, u32]
  omega

theorem unseen_of_ne {frame frame' : ℕ} (h : frame &&& pageFrame = frame)
    (h' : frame' &&& pageFrame = frame') (hne : frame ≠ frame') :
  Unseen frame frame'
  := by
  intro s off off' v hoff hoff'
  rw [and_pageFrame] at h h'
  simp only [pageSize] at h h' hoff hoff'
  apply Function.update_of_ne
  apply paddrToKvaddr_ne
  · omega
  · omega
  · omega

/-! ### New address spaces -/

/-- The ranges of the address space are apart from each other and from those handed out
before. -/
def Fresh (as : AddrSpace) (given given' : List PageRange) : Prop :=
  as.Loaded → ∀ k, as.range k ∈ given' ∧ (∀ q ∈ given, (as.range k).Apart q)
    ∧ ∀ l, k ≠ l → (as.range k).Apart (as.range l)

/-- More pages have been handed out. -/
structure Got (s s' : Dumbvm) : Prop where
  spaces : s'.spaces = s.spaces
  given : s.given ⊆ s'.given
  proper : ∀ r ∈ s'.given, r ∈ s.given ∨ r.Proper

theorem Got.of_eq (hspaces : s'.spaces = s.spaces) (hgiven : s'.given = s.given) :
  Got s s'
  := by
  constructor
  · exact hspaces
  · rw [hgiven]
    exact List.Subset.refl _
  · intro r hr
    rw [hgiven] at hr
    exact .inl hr

theorem Got.trans {s₁ s₂ s₃ : Dumbvm} (h : Got s₁ s₂) (h' : Got s₂ s₃) :
  Got s₁ s₃
  := by
  constructor
  · exact h'.spaces.trans h.spaces
  · exact List.Subset.trans h.given h'.given
  · intro r hr
    rcases h'.proper r hr with hr | hr
    · exact h.proper r hr
    · exact .inr hr

/-- Pages that nobody has yet change nothing. -/
theorem Sound.got (h : s.Sound) (hgot : Got s s') :
  s'.Sound
  := by
  constructor
  · intro r hr
    rcases hgot.proper r hr with hr | hr
    · exact h.proper r hr
    · exact hr
  · intro i as hi hload k
    rw [hgot.spaces] at hi
    apply hgot.given (h.owned hi hload k)
  · intro i j as as' k l hi hj
    rw [hgot.spaces] at hi hj
    apply h.apart hi hj

variable {as : AddrSpace}

/-- One address space is new, or has changed. -/
theorem Sound.put (h : s.Sound) (hgot : Got s s') {i : ℕ}
    (hfresh : Fresh as s.given s'.given) {t : Dumbvm} (ht : t.given = s'.given)
    (hi : ∀ as', t.spaces[i]? = some as' → as' = as)
    (hne : ∀ j as', j ≠ i → t.spaces[j]? = some as' → s.spaces[j]? = some as') :
  t.Sound
  := by
  rw [← ht] at hfresh
  constructor
  · rw [ht]
    exact (h.got hgot).proper
  · intro j as' hj hload k
    by_cases hij : j = i
    · subst hij
      rw [hi as' hj] at hload ⊢
      exact (hfresh hload k).1
    · rw [ht]
      apply hgot.given
      apply h.owned (hne j as' hij hj) hload k
  · intro j j' as₁ as₂ k l hj hj' hload hload' hjk
    by_cases hij : j = i
    · by_cases hij' : j' = i
      · subst hij hij'
        rw [hi as₁ hj] at hload ⊢
        rw [hi as₂ hj']
        apply (hfresh hload k).2.2
        intro hkl
        apply hjk
        rw [hkl]
      · subst hij
        rw [hi as₁ hj] at hload ⊢
        apply (hfresh hload k).2.1
        apply h.owned (hne j' as₂ hij' hj') hload'
    · by_cases hij' : j' = i
      · subst hij'
        rw [hi as₂ hj'] at hload' ⊢
        apply PageRange.Apart.symm
        apply (hfresh hload' l).2.1
        apply h.owned (hne j as₁ hij hj) hload
      · apply h.apart (hne j as₁ hij hj) (hne j' as₂ hij' hj') hload hload' hjk

theorem Sound.addSpace (h : s.Sound) (hgot : Got s s')
    (hfresh : Fresh as s.given s'.given) :
  ({ s' with spaces := s'.spaces ++ [as] } : Dumbvm).Sound
  := by
  apply h.put (i := s.spaces.length) hgot hfresh
  · rfl
  · intro as' has
    simp only [hgot.spaces] at has
    rw [List.getElem?_concat_length] at has
    exact (Option.some.inj has).symm
  · intro j as' hj has
    simp only [hgot.spaces] at has
    rcases lt_or_gt_of_ne hj with hlt | hgt
    · rw [List.getElem?_append_left hlt] at has
      exact has
    · rw [List.getElem?_eq_none (by simp; omega)] at has
      cases has

theorem Sound.setSpace (h : s.Sound) (i : ℕ) (hgot : Got s s')
    (hfresh : Fresh as s.given s'.given) :
  ({ s' with spaces := s'.spaces.set i as } : Dumbvm).Sound
  := by
  apply h.put (i := i) hgot hfresh
  · rfl
  · intro as' has
    obtain ⟨hlt, has⟩ := List.getElem?_eq_some_iff.mp has
    rw [← has, List.getElem_set_self]
  · intro j as' hj has
    simp only [hgot.spaces] at has
    rw [List.getElem?_set_ne (Ne.symm hj)] at has
    exact has

/-! ### What the functions do -/

/-- Routines that may panic for any reason. -/
abbrev Spec {α : Type} (m : Run α) (s : Dumbvm) (Q : α → Dumbvm → Prop)
    (E : Errno → Dumbvm → Prop) : Prop :=
  wlp (fun _ => True) m s Q E

theorem getppages_spec (npages : ℕ) :
  Spec (getppages npages) s (fun base s' => Got s s' ∧ s'.mem = s.mem
    ∧ (base ≠ 0 → (⟨base, npages⟩ : PageRange).Proper ∧ (⟨base, npages⟩ : PageRange) ∈ s'.given
      ∧ ∀ q ∈ s.given, (⟨base, npages⟩ : PageRange).Apart q)) (fun _ _ => False)
  := by
  simp only [Spec, getppages, wlp_bind, wlp_get, wlp_ite, wlp_modify, wlp_pure]
  constructor
  · rintro ⟨hproper, hapart⟩
    constructor
    · constructor
      · rfl
      · exact List.subset_cons_self _ _
      · intro r hr
        rcases List.mem_cons.mp hr with rfl | hr
        · exact .inr hproper
        · exact .inl hr
    · exact ⟨trivial, fun _ => ⟨hproper, List.mem_cons_self, hapart⟩⟩
  · intro _
    exact ⟨.of_eq rfl rfl, trivial, fun h => absurd rfl h⟩

/-- An address space without all its pages owns none. -/
theorem fresh_of_not_loaded (h : ¬ as.Loaded) (given given' : List PageRange) :
  Fresh as given given'
  := fun hload => absurd hload h

theorem asPrepareLoad_spec (as : AddrSpace) :
  Spec (asPrepareLoad as) s (fun r s' => Got s s' ∧ s'.mem = s.mem ∧ as.SameRegions r.1
    ∧ Fresh r.1 s.given s'.given
    ∧ (r.2 = none → r.1.Loaded ∧ ∀ k, (r.1.range k).Proper)) (fun _ _ => False)
  := by
  simp only [Spec, asPrepareLoad, wlp_bind, wlp_assert, implies_true, and_true]
  intro hpbase1 hpbase2 hstackpbase
  apply wlp_imp (getppages_spec as.npages1)
  rintro pbase1 s₁ ⟨hgot₁, hmem₁, hr₁⟩
  rw [wlp_ite]
  constructor
  · intro hzero
    refine ⟨hgot₁, hmem₁, rfl, ?_, by simp⟩
    apply fresh_of_not_loaded
    exact fun hload => hload.1 hzero
  intro hne₁
  obtain ⟨hproper₁, hin₁, hap₁⟩ := hr₁ hne₁
  rw [wlp_bind]
  apply wlp_imp (getppages_spec as.npages2)
  rintro pbase2 s₂ ⟨hgot₂, hmem₂, hr₂⟩
  rw [wlp_ite]
  constructor
  · intro hzero
    refine ⟨hgot₁.trans hgot₂, hmem₂.trans hmem₁, rfl, ?_, by simp⟩
    apply fresh_of_not_loaded
    exact fun hload => hload.2.1 hzero
  intro hne₂
  obtain ⟨hproper₂, hin₂, hap₂⟩ := hr₂ hne₂
  rw [wlp_bind]
  apply wlp_imp (getppages_spec stackPages)
  rintro stackpbase s₃ ⟨hgot₃, hmem₃, hr₃⟩
  have hgot := (hgot₁.trans hgot₂).trans hgot₃
  have hmem := hmem₃.trans (hmem₂.trans hmem₁)
  rw [wlp_ite]
  constructor
  · intro hzero
    refine ⟨hgot, hmem, rfl, ?_, by simp⟩
    apply fresh_of_not_loaded
    exact fun hload => hload.2.2 hzero
  intro hne₃
  obtain ⟨hproper₃, hin₃, hap₃⟩ := hr₃ hne₃
  have hproper : ∀ k, (AddrSpace.range { as with
      pbase1 := pbase1, pbase2 := pbase2, stackpbase := stackpbase } k).Proper := by
    intro k
    match k with
    | 0 => exact hproper₁
    | 1 => exact hproper₂
    | 2 => exact hproper₃
  refine ⟨hgot, hmem, rfl, ?_, fun _ => ⟨⟨hne₁, hne₂, hne₃⟩, hproper⟩⟩
  -- each range is apart from the ranges that were handed out before it
  have h₁₂ := hap₂ _ hin₁
  have h₁₃ := hap₃ _ (hgot₂.given hin₁)
  have h₂₃ := hap₃ _ hin₂
  intro _ k
  match k with
  | 0 =>
    refine ⟨hgot₃.given (hgot₂.given hin₁), hap₁, ?_⟩
    intro l hl
    match l with
    | 0 => exact absurd rfl hl
    | 1 => exact h₁₂.symm
    | 2 => exact h₁₃.symm
  | 1 =>
    refine ⟨hgot₃.given hin₂, fun q hq => hap₂ q (hgot₁.given hq), ?_⟩
    intro l hl
    match l with
    | 0 => exact h₁₂
    | 1 => exact absurd rfl hl
    | 2 => exact h₂₃.symm
  | 2 =>
    refine ⟨hin₃, fun q hq => hap₃ q (hgot₂.given (hgot₁.given hq)), ?_⟩
    intro l hl
    match l with
    | 0 => exact h₁₃
    | 1 => exact h₂₃
    | 2 => exact absurd rfl hl

/-! ### Copies -/

/-- `memmove` between ranges of physical memory. -/
theorem memmove_spec {d b n : ℕ} (hd : d + n ≤ 2 ^ 32) (hb : b + n ≤ 2 ^ 32) :
  wp (memmove (paddrToKvaddr d) (paddrToKvaddr b) n) s
    (fun _ s' => s'.spaces = s.spaces ∧ s'.given = s.given
      ∧ (∀ x < n, s'.phys (d + x) = s.phys (b + x))
      ∧ (∀ p < 2 ^ 32, p < d ∨ d + n ≤ p → s'.phys p = s.phys p))
  := by
  simp only [memmove, wp_modify, true_and, phys]
  constructor
  · intro x hx
    have hoff : u32 (paddrToKvaddr (d + x) + 2 ^ 32 - paddrToKvaddr d) = x := by
      simp only [paddrToKvaddr, kseg0, u32]
      omega
    have hsrc : u32 (paddrToKvaddr b + x) = paddrToKvaddr (b + x) := by
      simp only [paddrToKvaddr, kseg0, u32]
      omega
    rw [hoff, if_pos hx, hsrc]
  · intro p hp hout
    have hoff : ¬ u32 (paddrToKvaddr p + 2 ^ 32 - paddrToKvaddr d) < n := by
      simp only [paddrToKvaddr, kseg0, u32]
      omega
    rw [if_neg hoff]

/-- The regions in `done` have been copied, and the originals are as they were. -/
structure Copied (old new : AddrSpace) (done : List (Fin 3)) (s s' : Dumbvm) : Prop where
  spaces : s'.spaces = s.spaces
  given : s'.given = s.given
  kept : ∀ k x, x < (old.range k).npages * pageSize →
    s'.phys ((old.range k).base + x) = s.phys ((old.range k).base + x)
  same : ∀ k ∈ done, ∀ x < (old.range k).npages * pageSize,
    s'.phys ((new.range k).base + x) = s.phys ((old.range k).base + x)

/-- What `as_copy` knows about the pages of the two address spaces. -/
structure Copyable (old new : AddrSpace) : Prop where
  npages : ∀ k, (new.range k).npages = (old.range k).npages
  old_proper : ∀ k, (old.range k).Proper
  new_proper : ∀ k, (new.range k).Proper
  old_new : ∀ k l, (old.range k).Apart (new.range l)
  new_new : ∀ k l, k ≠ l → (new.range k).Apart (new.range l)

variable {old new : AddrSpace} {done : List (Fin 3)}

/-- One region is copied. -/
theorem Copyable.memmove (h : Copyable old new) {s₁ : Dumbvm} (hcopied : Copied old new done s s₁)
    {k : Fin 3} (hk : k ∉ done) :
  wp (memmove (paddrToKvaddr (new.range k).base) (paddrToKvaddr (old.range k).base)
    (u32 ((old.range k).npages * pageSize))) s₁ (fun _ s₂ => Copied old new (k :: done) s s₂)
  := by
  rw [u32_of_lt (h.old_proper k).npages_lt]
  have hnew := (h.new_proper k).2.2
  rw [h.npages k] at hnew
  apply wp_imp (memmove_spec hnew (h.old_proper k).2.2)
  rintro _ s₂ ⟨hspaces, hgiven, hmoved, hout⟩
  -- what is apart from the pages written to keeps its contents
  have hframe : ∀ {r : PageRange} {x : ℕ}, r.Proper → r.Apart (new.range k) →
      x < r.npages * pageSize → s₂.phys (r.base + x) = s₁.phys (r.base + x) := by
    intro r x hr hapart hx
    apply hout _ (hr.add_lt hx)
    have hnp := h.npages k
    rcases hapart with h₀ | h₀ | h₀ | h₀
    · simp [h₀] at hx
    · rw [← hnp, h₀]
      omega
    · omega
    · rw [← hnp]
      omega
  constructor
  · rw [hspaces, hcopied.spaces]
  · rw [hgiven, hcopied.given]
  · intro l x hx
    rw [hframe (h.old_proper l) (h.old_new l k) hx, hcopied.kept l x hx]
  · intro l hl x hx
    rcases List.mem_cons.mp hl with rfl | hl
    · rw [hmoved x hx, hcopied.kept l x hx]
    · have hne : l ≠ k := fun hlk => hk (hlk ▸ hl)
      rw [hframe (h.new_proper l) (h.new_new l k hne) (by rw [h.npages l]; exact hx),
        hcopied.same l hl x hx]

theorem Copyable.copyPages (h : Copyable old new) :
  wp (copyPages old new) s (fun _ s' => Copied old new [2, 1, 0] s s')
  := by
  have hnone : Copied old new [] s s := ⟨rfl, rfl, fun _ _ _ => rfl, by simp⟩
  simp only [Dumbvm.copyPages, wp_bind]
  apply wp_imp (h.memmove hnone (k := 0) (by simp))
  intro _ s₁ hcopied₁
  apply wp_imp (h.memmove hcopied₁ (k := 1) (by decide))
  intro _ s₂ hcopied₂
  apply h.memmove hcopied₂ (k := 2) (by decide)

theorem copyPages_frame (old new : AddrSpace) :
  wp (copyPages old new) s (fun _ s' => s'.spaces = s.spaces ∧ s'.given = s.given)
  := by
  simp [copyPages, Dumbvm.memmove]

theorem asCreate_spec :
  Spec asCreate s (fun as s' => as = ⟨0, 0, 0, 0, 0, 0, 0⟩ ∧ s'.mem = s.mem ∧ Got s s')
    (fun _ s' => Got s s')
  := by
  have hgot : Got s { s with kmallocs := s.kmallocs.tail } := .of_eq rfl rfl
  simp only [Spec, asCreate, wlp_bind, wlp_get, wlp_modify, wlp_ite, wlp_pure, wlp_fail, true_and]
  exact ⟨fun _ => hgot, fun _ => hgot⟩

/-- A copy has pages of its own, to which the pages of the original are copied. -/
theorem asCopy_spec (old : AddrSpace) :
  Spec (asCopy old) s (fun new s' => old.SameRegions new ∧ new.Loaded
      ∧ ∃ s₁, Got s s₁ ∧ s₁.mem = s.mem ∧ Fresh new s.given s₁.given
        ∧ copyPages old new s₁ = .ok () s')
    (fun _ s' => Got s s')
  := by
  simp only [Spec, asCopy, wlp_bind]
  apply wlp_imp asCreate_spec
  rintro as s₁ ⟨rfl, hmem₁, hgot₁⟩
  apply wlp_mono (asPrepareLoad_spec _) _ (fun _ _ he => he.elim)
  rintro ⟨new, result⟩ s₂ ⟨hgot₂, hmem₂, hregions, hfresh, hload⟩
  have hgot := hgot₁.trans hgot₂
  cases result with
  | some e => exact hgot
  | none =>
    simp only [wlp_bind, wlp_assert, implies_true, and_true]
    intro _ _ _
    obtain ⟨_, s₃, hcopy, -⟩ := exists_ok (copyPages_frame (s := s₂) old new)
    apply wlp_of_wp
    apply wp_of_ok hcopy
    refine ⟨hregions, (hload rfl).1, s₂, hgot, hmem₂.trans hmem₁, ?_, hcopy⟩
    intro hloaded k
    obtain ⟨hin, hapart, hself⟩ := hfresh hloaded k
    exact ⟨hin, fun q hq => hapart q (hgot₁.given hq), hself⟩

/-! ### Runs -/

/-- The regions of an address space are defined before it gets its pages. -/
def definedFirst : Condition := fun s e =>
  match e with
  | .defineRegion i _ _ => ∀ as, s.spaces[i]? = some as → ¬ as.Loaded
  | _ => True

/-- `as_define_region` gets no pages. -/
theorem not_loaded_asDefineRegion {as as' : AddrSpace} {vaddr sz : ℕ} (h : ¬ as.Loaded)
    (has : asDefineRegion as vaddr sz = .ok as') :
  ¬ as'.Loaded
  := by
  simp only [asDefineRegion] at has
  split at has
  · cases has
    exact h
  · split at has
    · cases has
      exact h
    · cases has

/-- The event leaves a sound state, with or without an error. -/
theorem Sound.act (h : s.Sound) (e : Event) (he : definedFirst s e) :
  Spec (act e) s (fun _ s' => s'.Sound) (fun _ s' => s'.Sound)
  := by
  have hspace : ∀ (i : ℕ) (f : AddrSpace → Run Unit),
      (∀ as, s.spaces[i]? = some as → Spec (f as) s (fun _ s' => s'.Sound) (fun _ s' => s'.Sound)) →
        Spec (onSpace i f) s (fun _ s' => s'.Sound) (fun _ s' => s'.Sound) := by
    intro i f hf
    simp only [Spec, onSpace, wlp_bind, wlp_get]
    cases hi : s.spaces[i]? with
    | none => exact h
    | some as => exact hf as hi
  cases e with
  | create =>
    simp only [Spec, Dumbvm.act, wlp_bind]
    apply wlp_mono asCreate_spec _ (fun _ _ hgot => h.got hgot)
    rintro as s₁ ⟨rfl, -, hgot⟩
    apply h.addSpace hgot
    apply fresh_of_not_loaded
    simp [AddrSpace.Loaded]
  | defineRegion i vaddr sz =>
    apply hspace
    intro as hi
    cases has : asDefineRegion as vaddr sz with
    | error e => exact h
    | ok as' =>
      apply h.setSpace i (.of_eq rfl rfl)
      apply fresh_of_not_loaded
      apply not_loaded_asDefineRegion (he as hi) has
  | prepareLoad i =>
    apply hspace
    intro as hi
    simp only [Spec, wlp_bind]
    apply wlp_mono (asPrepareLoad_spec as) _ (fun _ _ hfalse => hfalse.elim)
    rintro ⟨as', result⟩ s₁ ⟨hgot, -, -, hfresh, -⟩
    apply h.setSpace i hgot hfresh
  | copy i =>
    apply hspace
    intro as hi
    simp only [Spec, wlp_bind]
    apply wlp_mono (asCopy_spec as) _ (fun _ _ hgot => h.got hgot)
    rintro new s' ⟨-, -, s₁, hgot, -, hfresh, hcopy⟩
    obtain ⟨hspaces, hgiven⟩ := wp_ok (copyPages_frame as new) hcopy
    apply h.addSpace (hgot.trans (.of_eq hspaces hgiven))
    rw [hgiven]
    exact hfresh
  | getppages npages =>
    simp only [Spec, Dumbvm.act, wlp_bind]
    apply wlp_mono (getppages_spec npages) _ (fun _ _ hfalse => hfalse.elim)
    rintro base s₁ ⟨hgot, -, -⟩
    exact h.got hgot
  | write mem => exact h.got (.of_eq rfl rfl)

theorem Sound.withAnswers (h : s.Sound) (pages : List ℕ) (kmallocs : List Bool) :
  (s.withAnswers pages kmallocs).Sound
  := h.got (.of_eq rfl rfl)

theorem Sound.step (h : s.Sound) (hstep : Step definedFirst s s') :
  s'.Sound
  := by
  obtain ⟨e, he, pages, kmallocs, hact⟩ := hstep
  have hspec := (h.withAnswers pages kmallocs).act e (by cases e <;> exact he)
  rcases hact with hok | ⟨err, herr⟩
  · exact wlp_ok hspec hok
  · exact wlp_err hspec herr

/-- Every state that a run reaches. -/
theorem Reaches.sound {mem : ℕ → UInt8} (hrun : Reaches definedFirst (init mem) s) :
  s.Sound
  := by
  induction hrun with
  | refl => exact sound_init mem
  | tail _ hstep ih => exact ih.step hstep

/-- A copy passes the assertions of `vm_fault` when the original does. -/
theorem Copyable.setUp (h : Copyable old new) (hregions : old.SameRegions new)
    (hload : new.Loaded) (hset : old.SetUp) :
  new.SetUp
  := by
  have hpages : ∀ k, (old.range k).npages ≠ 0 := by
    intro k
    match k with
    | 0 => exact hset.npages1
    | 1 => exact hset.npages2
    | 2 => exact Nat.succ_ne_zero 11
  have hframe : ∀ k, (new.range k).base &&& pageFrame = (new.range k).base := by
    intro k
    apply (h.new_proper k).frame
    rw [h.npages k]
    exact hpages k
  rw [hregions]
  exact { hset with
    loaded := hload
    pbase1_frame := hframe 0
    pbase2_frame := hframe 1
    stackpbase_frame := hframe 2 }

/-- After `as_copy`, the two address spaces have the same contents, in pages that are apart. -/
theorem Sound.asCopy (h : s.Sound) {i : ℕ} (hi : s.spaces[i]? = some old) (hold : old.Loaded)
    (hcopy : asCopy old s = .ok new s') :
  old.SameRegions new ∧ new.Loaded ∧ Copyable old new
    ∧ ∀ k x, x < (old.range k).npages * pageSize →
      s'.phys ((old.range k).base + x) = s.phys ((old.range k).base + x)
        ∧ s'.phys ((new.range k).base + x) = s.phys ((old.range k).base + x)
  := by
  obtain ⟨hregions, hload, s₁, hgot, hmem, hfresh, hpages⟩ := wlp_ok (asCopy_spec old) hcopy
  have hcopyable : Copyable old new := by
    constructor
    · exact hregions.npages
    · exact h.proper_range hi hold
    · intro k
      exact (h.got hgot).proper _ (hfresh hload k).1
    · intro k l
      apply PageRange.Apart.symm
      exact (hfresh hload l).2.1 _ (h.owned hi hold k)
    · intro k l hkl
      exact (hfresh hload k).2.2 l hkl
  have hcopied := wp_ok hcopyable.copyPages hpages
  have hphys : ∀ p, s₁.phys p = s.phys p := by
    intro p
    simp only [phys, hmem]
  have hall : ∀ k : Fin 3, k ∈ [2, 1, 0] := by decide
  refine ⟨hregions, hload, hcopyable, ?_⟩
  intro k x hx
  rw [hcopied.kept k x hx, hcopied.same k (hall k) x hx, hphys]
  exact ⟨rfl, rfl⟩

/-- Every page of the original is translated in the copy, to a frame with the same contents. -/
theorem Sound.asCopy_installs (h : s.Sound) {i page frame : ℕ} (hi : s.spaces[i]? = some old)
    (hcopy : Dumbvm.asCopy old s = .ok new s') (hin : old.Installs page frame) :
  ∃ frame', new.Installs page frame' ∧ ∀ off < pageSize,
    s'.phys (frame + off) = s.phys (frame + off) ∧ s'.phys (frame' + off) = s.phys (frame + off)
  := by
  obtain ⟨hset, hpage, -, hframe⟩ := hin.translate
  obtain ⟨hregions, hload, hcopyable, hsame⟩ := h.asCopy hi hset.loaded hcopy
  obtain ⟨k, x, hloc, rfl⟩ := h.exists_locates hi hin
  have hx := hloc.2.1
  have hproper := hcopyable.old_proper k
  have hproper' := hcopyable.new_proper k
  have hx' : x < (new.range k).npages * pageSize := by
    rw [hcopyable.npages k]
    exact hx
  have haligned := (and_pageFrame_eq_self (hproper.add_lt hx)).mp hframe
  use (new.range k).base + x
  constructor
  · apply (hcopyable.setUp hregions hload hset).installs_of_translate hpage
    · apply (hregions.locates hloc).translate hproper'
    · apply (and_pageFrame_eq_self (hproper'.add_lt hx')).mpr
      have hold := hproper.2.1
      have hnew := hproper'.2.1
      simp only [pageSize] at haligned hold hnew ⊢
      omega
  · intro off hoff
    have hxoff : x + off < (old.range k).npages * pageSize := by
      have hold := hproper.2.1
      simp only [pageSize] at haligned hold hoff hx ⊢
      omega
    rw [Nat.add_assoc, Nat.add_assoc]
    exact hsame k (x + off) hxoff

/-- No page of the copy has the frame of a page of the original. -/
theorem Sound.asCopy_frame_ne (h : s.Sound) {i page page' frame frame' : ℕ}
    (hi : s.spaces[i]? = some old) (hcopy : Dumbvm.asCopy old s = .ok new s')
    (hin : old.Installs page frame) (hin' : new.Installs page' frame') :
  frame ≠ frame'
  := by
  obtain ⟨-, -, hcopyable, -⟩ := h.asCopy hi hin.translate.1.loaded hcopy
  obtain ⟨-, -, htrans', -⟩ := hin'.translate
  obtain ⟨k, x, hloc, rfl⟩ := h.exists_locates hi hin
  obtain ⟨l, y, hloc'⟩ :=
    AddrSpace.exists_locates (fun l => (hcopyable.new_proper l).npages_lt) htrans'
  rw [hloc'.translate (hcopyable.new_proper l)] at htrans'
  obtain rfl := Option.some.inj htrans'
  apply (hcopyable.old_new k l).ne hloc.2.1 hloc'.2.1

/-! ### Isolation -/

/-- A state with empty memory. -/
def running (spaces : List AddrSpace) (given : List PageRange) : Dumbvm :=
  ⟨spaces, given, fun _ => 0, [], []⟩

/-- One more event. -/
theorem Reaches.next {allow : Condition} {spaces : List AddrSpace} {given : List PageRange}
    (h : Reaches allow (init fun _ => 0) (running spaces given)) (spaces' : List AddrSpace)
    (given' : List PageRange) (e : Event) (pages : List ℕ)
    (hact : act e ((running spaces given).withAnswers pages []) = .ok () (running spaces' given'))
    (hallow : allow (running spaces given) e) :
  Reaches allow (init fun _ => 0) (running spaces' given')
  := h.tail ⟨e, hallow, pages, [], .inl hact⟩

/-- An address space without pages may get a region. -/
theorem definedFirst_running {spaces : List AddrSpace} {given : List PageRange}
    {i vaddr sz : ℕ} (hi : spaces[i]? = some as) (h : ¬ as.Loaded) :
  definedFirst (running spaces given) (.defineRegion i vaddr sz)
  := by
  intro as' has
  obtain rfl := Option.some.inj (hi.symm.trans has)
  exact h

/-- An address space with a region of one page. -/
theorem reaches_oneRegion :
  Reaches definedFirst (init fun _ => 0) (running [⟨0x400000, 0, 1, 0, 0, 0, 0⟩] [])
  := by
  have hcreate : Reaches definedFirst (init fun _ => 0) (running [⟨0, 0, 0, 0, 0, 0, 0⟩] []) :=
    Relation.ReflTransGen.single ⟨.create, trivial, [], [], .inl rfl⟩
  apply hcreate.next _ _ (.defineRegion 0 0x400000 4096) [] rfl
  apply definedFirst_running rfl (by decide)

/-- Address spaces are isolated, when their regions are defined before they get their pages:
different pages of one or of two address spaces are translated to different frames, and no store
to the one is seen in the other; after `as_copy`, every page of the original is translated in the
copy to a frame with the same contents, and no store through the one is seen through the
other. -/
theorem spaces_isolated {mem : ℕ → UInt8} (hrun : Reaches definedFirst (init mem) s) :
  (∀ (i j : ℕ) (as as' : AddrSpace) (page page' frame frame' : ℕ),
    s.spaces[i]? = some as → s.spaces[j]? = some as' → as.Installs page frame →
      as'.Installs page' frame' → (i, page) ≠ (j, page') → frame ≠ frame' ∧ Unseen frame frame')
  ∧ (∀ (i : ℕ) old pages kmallocs new s', s.spaces[i]? = some old →
    asCopy old (s.withAnswers pages kmallocs) = .ok new s' →
      (∀ page frame, old.Installs page frame → ∃ frame', new.Installs page frame'
        ∧ ∀ off < pageSize, s'.phys (frame + off) = s.phys (frame + off)
          ∧ s'.phys (frame' + off) = s.phys (frame + off))
      ∧ (∀ page page' frame frame', old.Installs page frame → new.Installs page' frame' →
        Unseen frame frame' ∧ Unseen frame' frame))
  := by
  have hsound := hrun.sound
  constructor
  · intro i j as as' page page' frame frame' hi hj hin hin' hne
    have hframe := hsound.frame_ne hi hj hin hin' hne
    obtain ⟨-, -, -, haligned⟩ := hin.translate
    obtain ⟨-, -, -, haligned'⟩ := hin'.translate
    exact ⟨hframe, unseen_of_ne haligned haligned' hframe⟩
  · intro i old pages kmallocs new s' hi hcopy
    have hsound' := hsound.withAnswers pages kmallocs
    constructor
    · intro page frame hin
      apply hsound'.asCopy_installs hi hcopy hin
    · intro page page' frame frame' hin hin'
      have hframe := hsound'.asCopy_frame_ne hi hcopy hin hin'
      obtain ⟨-, -, -, haligned⟩ := hin.translate
      obtain ⟨-, -, -, haligned'⟩ := hin'.translate
      exact ⟨unseen_of_ne haligned haligned' hframe, unseen_of_ne haligned' haligned hframe.symm⟩

/-- Two address spaces, each of them with two regions of one page. -/
theorem spaces_isolated_twoSpaces :
  ∃ s as as', Reaches definedFirst (init fun _ => 0) s ∧ s.spaces = [as, as']
    ∧ as.Installs 0x400000 0x1000 ∧ as'.Installs 0x400000 0x10000 ∧ Unseen 0x1000 0x10000
  := by
  -- the regions of the first address space, and then those of the second
  have hregions := reaches_oneRegion.next [⟨0x400000, 0, 1, 0x500000, 0, 1, 0⟩] []
    (.defineRegion 0 0x500000 4096) [] rfl (definedFirst_running rfl (by decide))
  have hcreate := hregions.next [⟨0x400000, 0, 1, 0x500000, 0, 1, 0⟩, ⟨0, 0, 0, 0, 0, 0, 0⟩] []
    .create [] rfl trivial
  have hfirst := hcreate.next [⟨0x400000, 0, 1, 0x500000, 0, 1, 0⟩, ⟨0x400000, 0, 1, 0, 0, 0, 0⟩]
    [] (.defineRegion 1 0x400000 4096) [] rfl (definedFirst_running rfl (by decide))
  have hsecond := hfirst.next
    [⟨0x400000, 0, 1, 0x500000, 0, 1, 0⟩, ⟨0x400000, 0, 1, 0x500000, 0, 1, 0⟩]
    [] (.defineRegion 1 0x500000 4096) [] rfl (definedFirst_running rfl (by decide))
  have hload := hsecond.next [⟨0x400000, 0x1000, 1, 0x500000, 0x2000, 1, 0x3000⟩,
      ⟨0x400000, 0, 1, 0x500000, 0, 1, 0⟩]
    [⟨0x3000, 12⟩, ⟨0x2000, 1⟩, ⟨0x1000, 1⟩] (.prepareLoad 0)
    [0x1000, 0x2000, 0x3000] rfl trivial
  have hrun := hload.next [⟨0x400000, 0x1000, 1, 0x500000, 0x2000, 1, 0x3000⟩,
      ⟨0x400000, 0x10000, 1, 0x500000, 0x20000, 1, 0x30000⟩]
    [⟨0x30000, 12⟩, ⟨0x20000, 1⟩, ⟨0x10000, 1⟩, ⟨0x3000, 12⟩, ⟨0x2000, 1⟩, ⟨0x1000, 1⟩]
    (.prepareLoad 1) [0x10000, 0x20000, 0x30000] rfl trivial
  have hset : AddrSpace.SetUp ⟨0x400000, 0x1000, 1, 0x500000, 0x2000, 1, 0x3000⟩ := by
    constructor <;> decide
  have hset' : AddrSpace.SetUp ⟨0x400000, 0x10000, 1, 0x500000, 0x20000, 1, 0x30000⟩ := by
    constructor <;> decide
  have hin : AddrSpace.Installs _ 0x400000 0x1000 :=
    hset.installs_of_translate (by decide) (by decide) (by decide)
  have hin' : AddrSpace.Installs _ 0x400000 0x10000 :=
    hset'.installs_of_translate (by decide) (by decide) (by decide)
  refine ⟨_, _, _, hrun, rfl, hin, hin', ?_⟩
  exact ((spaces_isolated hrun).1 0 1 _ _ _ _ _ _ rfl rfl hin hin' (by decide)).2

/-- A region that is defined after the address space has got its pages has none: its page and
the first page of the stack have one frame. -/
theorem late_region_shares_stack :
  ∃ s as, Reaches anyEvent (init fun _ => 0) s ∧ s.spaces[0]? = some as
    ∧ as.npages1 ≠ 0 ∧ as.npages2 ≠ 0
    ∧ as.Installs 0x500000 0x2000 ∧ as.Installs 0x7fff4000 0x2000
  := by
  have hregion : Reaches anyEvent (init fun _ => 0)
      (running [⟨0x400000, 0, 1, 0, 0, 0, 0⟩] []) := by
    apply Relation.ReflTransGen.mono _ _ _ reaches_oneRegion
    rintro _ _ ⟨e, -, hreturns⟩
    exact ⟨e, trivial, hreturns⟩
  have hload := hregion.next [⟨0x400000, 0x1000, 1, 0, 0x2000, 0, 0x2000⟩]
    [⟨0x2000, 12⟩, ⟨0x2000, 0⟩, ⟨0x1000, 1⟩] (.prepareLoad 0)
    [0x1000, 0x2000, 0x2000] rfl trivial
  have hrun := hload.next [⟨0x400000, 0x1000, 1, 0x500000, 0x2000, 1, 0x2000⟩]
    [⟨0x2000, 12⟩, ⟨0x2000, 0⟩, ⟨0x1000, 1⟩] (.defineRegion 0 0x500000 4096)
    [] rfl trivial
  have hset : AddrSpace.SetUp ⟨0x400000, 0x1000, 1, 0x500000, 0x2000, 1, 0x2000⟩ := by
    constructor <;> decide
  refine ⟨_, _, hrun, rfl, by decide, by decide, ?_, ?_⟩ <;>
    apply hset.installs_of_translate (by decide) (by decide) (by decide)

end Dumbvm
