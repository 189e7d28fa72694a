import AzureSpider.Userprog.LoadElf

/-!
# Programs that panic the kernel

`vm_fault` accepts only address spaces with two regions that are not empty and do not start in the
first page.  `load_elf` takes files with any segments; when it copies the first byte of a segment
into an address space with other regions, `vm_fault` panics.  Nothing else that a file may contain
leads to a panic.
-/

open Machine Routine

namespace Userprog

/-! ### The first byte of a segment -/

section Segments

variable {s : Process} {u : Uio} {file : List UInt8} {read : FileRead} {offset : ℤ}
  {vaddr memsize filesize : ℕ} {executable : Bool}

/-- There is a first byte of the segment that can go to user memory.  Data comes from the file in
pieces of any size, zeros come 16 at a time. -/
def Starts (file : List UInt8) (offset : ℤ) (vaddr memsize filesize : ℕ) : Prop :=
  if filesize = 0 then vaddr + min 16 memsize ≤ userTop
  else vaddr < userTop ∧ 0 ≤ offset ∧ offset.toNat < file.length

/-- There is no data for a request at the end of the file, or before its start. -/
theorem requested_eq_nil_iff {resid : ℕ} :
  requested file offset resid = []
    ↔ resid = 0 ∨ ¬ (0 ≤ offset ∧ offset.toNat < file.length)
  := by
  rw [requested]
  split
  · rw [List.take_eq_nil_iff, List.drop_eq_nil_iff]
    omega
  · exact iff_of_true rfl (.inr fun hin => absurd hin.1 ‹_›)

/-- The plain `VOP_READ` of a file: byte by byte, and without errors of the device. -/
def straight (file : List UInt8) : FileRead := fun _ offset resid =>
  { pieces := (requested file offset resid).map fun b => [b]
    result := if offset < 0 ∧ 0 < resid then some .einval else none }

theorem flatten_straight (file : List UInt8) (n : ℕ) (offset : ℤ) (resid : ℕ) :
  (straight file n offset resid).pieces.flatten = requested file offset resid
  := by
  simp only [straight, ← List.flatMap_def, List.flatMap_singleton']

theorem conforms_straight (file : List UInt8) :
  Conforms file (straight file)
  := by
  constructor
  · intro n offset resid
    simp only [flatten_straight, List.prefix_refl]
  · intro n offset resid _
    apply flatten_straight

theorem reliable_straight (file : List UInt8) :
  Reliable (straight file)
  := by
  intro n offset resid hnonneg
  exact if_neg fun h => absurd h.1 (by omega)

/-- The region of `load_segment` when its data is there and `n` zeros are to come. -/
def inflated (u : Uio) (n : ℕ) : Uio := { u with resid := n }

theorem backed_inflated {n : ℕ} (hu : u.Backed) (hn : n ≤ u.iovLen) (hlt : n < 2 ^ 32) :
  (inflated u n).Backed
  := ⟨hu.space, hn, hlt, hu.offset_ge, hu.offset_lt⟩

/-- The first zeros of a segment. -/
theorem zeroFill_eq {n : ℕ} (hrw : u.rw = .read) (hzero : u.resid = 0) (hpos : 0 < n)
    (hlt : n < 2 ^ 32) :
  zeroFill n (s, u)
    = (uiomove (List.replicate (min 16 n) 0) >>= fun _ => uiomovezerosFrom (n - 1) (n - min 16 n))
      (s, inflated u n)
  := by
  have hresid : u32 (u.resid + n) = n := by
    rw [hzero, Nat.zero_add, u32_of_lt hlt]
  rw [zeroFill, if_pos hpos, ← uiomovezeros_eq (by exact hrw) hpos]
  apply bind_ok (a := ())
  have hstate : inflated u n = { u with resid := u32 (u.resid + n) } := by
    rw [hresid]
    rfl
  rw [hstate]
  rfl

/-- `VOP_READ` moves its pieces and then returns its result. -/
theorem vopRead_eq :
  vopRead read (s, u)
    = (uiomoves (read s.calls u.offset u.resid).pieces >>= fun _ =>
      match (read s.calls u.offset u.resid).result with
      | none => pure ()
      | some e => fail e) (s.called, u)
  := rfl

theorem wlp_withRegion {α : Type} {m : URun α} {P : LoadPanic → Prop} {Q : α → Process → Prop}
    {E : Errno → Process → Prop} :
  wlp P (withRegion u m) s Q E
    ↔ wlp P m (s, u) (fun a su => Q a su.1) (fun e su => E e su.1)
  := by
  simp only [withRegion, wlp_bind, wlp_withState, wlp_pure, wlp_fail]

section Stalls

variable (hset : ¬ s.as.SetUp) (hinvalid : Invalid s.tlb)
include hset hinvalid

/-- Nothing is moved to the memory of an address space that is not set up. -/
theorem uiomove_stalls {data : List UInt8} (hu : u.Backed) (hseg : u.segflg ≠ .sysspace)
    (hlen : data.length ≤ u.resid) :
  wlp (fun _ => data ≠ [] ∧ u.base + data.length ≤ userTop) (uiomove data) (s, u)
    (fun _ su => su = (s, u) ∧ data = [])
    (fun e _ => e = .efault ∧ userTop < u.base + data.length)
  := by
  by_cases hnil : data = []
  · subst hnil
    exact wlp_of_wp (wp_of_ok (uiomove_nil hu.space) ⟨rfl, rfl⟩)
  have hpos : 0 < data.length := List.length_pos_iff.mpr hnil
  have hlt := hu.resid_lt
  obtain ⟨x, xs, rfl⟩ := List.exists_cons_of_length_pos hpos
  apply wlp_of_eq (uiomove_eq hu hpos hlen)
  rw [wlp_bind]
  apply wlp_of_eq (transfer_user hseg)
  rw [copyout_eq _ hpos (by omega)]
  split_ifs with hend
  · -- the first byte is stored
    obtain ⟨q, hpanic⟩ := store_panic hset hinvalid u.base x
    exact wlp_of_panic (zoom_panic (bind_panic hpanic)) ⟨hnil, hend⟩
  · exact wlp_of_err rfl ⟨rfl, Nat.lt_of_not_le hend⟩

theorem uiomoves_stalls {pieces : List (List UInt8)} (hu : u.Backed) (hseg : u.segflg ≠ .sysspace)
    (hlen : pieces.flatten.length ≤ u.resid) :
  wlp (fun _ => pieces.flatten ≠ [] ∧ u.base < userTop) (uiomoves pieces) (s, u)
    (fun _ su => su = (s, u) ∧ pieces.flatten = [])
    (fun e _ => e = .efault ∧ ∃ data ∈ pieces, userTop < u.base + data.length)
  := by
  induction pieces with
  | nil =>
    rw [uiomoves, wlp_pure]
    exact ⟨rfl, rfl⟩
  | cons data rest ih =>
    rw [List.flatten_cons, List.length_append] at hlen
    rw [uiomoves, wlp_bind, List.flatten_cons]
    apply wlp_weaken (uiomove_stalls hset hinvalid hu hseg (by omega))
    · rintro - ⟨hne, hend⟩
      have hpos := List.length_pos_iff.mpr hne
      exact ⟨List.append_ne_nil_of_left_ne_nil hne _, by omega⟩
    · rintro - su ⟨rfl, rfl⟩
      apply wlp_mono (ih (by omega))
      · exact fun _ _ hdone => hdone
      · rintro e _ ⟨he, data, hdata, hlt⟩
        exact ⟨he, data, List.mem_cons_of_mem _ hdata, hlt⟩
    · rintro e _ ⟨he, hlt⟩
      exact ⟨he, data, List.mem_cons_self, hlt⟩

/-- Nor is it filled with zeros. -/
theorem zeroFill_stalls {n : ℕ} (hu : u.Backed) (hseg : u.segflg ≠ .sysspace) (hrw : u.rw = .read)
    (hzero : u.resid = 0) (hle : n ≤ u.iovLen) (hpos : 0 < n) (hlt : n < 2 ^ 32) :
  wlp (fun _ => u.base + min 16 n ≤ userTop) (zeroFill n) (s, u) (fun _ _ => False)
    (fun e _ => e = .efault ∧ userTop < u.base + min 16 n)
  := by
  have hlen : (List.replicate (min 16 n) (0 : UInt8)).length = min 16 n := List.length_replicate
  apply wlp_of_eq (zeroFill_eq hrw hzero hpos hlt)
  rw [wlp_bind]
  apply wlp_weaken (uiomove_stalls hset hinvalid (backed_inflated hu hle hlt) hseg ?_)
  · rintro - ⟨-, hend⟩
    rwa [hlen] at hend
  · -- there is at least one zero
    rintro - su ⟨-, hnil⟩
    rw [hnil, List.length_nil] at hlen
    omega
  · rintro e _ ⟨he, hbeyond⟩
    rw [hlen] at hbeyond
    exact ⟨he, hbeyond⟩
  · rw [hlen]
    exact Nat.min_le_right 16 n

/-- No segment is loaded into an address space that is not set up, unless it is empty.  Only a
segment with a first byte panics the kernel, and such a segment does if the file is read plainly. -/
theorem loadSegment_stalls (h : Conforms file read) (hge : -2 ^ 31 ≤ offset)
    (hlt : offset < 2 ^ 31) (hpos : 0 < memsize) (hmem : memsize < 2 ^ 32) :
  wlp (fun _ => Starts file offset vaddr memsize filesize)
    (loadSegment read offset vaddr memsize filesize executable) s
    (fun _ _ => False)
    (fun e s' => (Reliable read → 0 ≤ offset →
        e = .enoexec ∨ e = .efault ∧ Faulted vaddr memsize s')
      ∧ (read = straight file → ¬ Starts file offset vaddr memsize filesize))
  := by
  rw [loadSegment_eq, wlp_withRegion, wlp_bind]
  have hu : (segmentRegion offset vaddr memsize (min filesize memsize) executable).Backed :=
    segmentRegion_backed hge hlt (Nat.min_le_right _ _) hmem
  have hseg := segmentRegion_segflg offset vaddr memsize (min filesize memsize) executable
  -- a segment with data has a first byte if its data is there
  have hstarts : min filesize memsize ≠ 0 → (Starts file offset vaddr memsize filesize
      ↔ vaddr < userTop ∧ requested file offset (min filesize memsize) ≠ []) := by
    intro hne
    rw [Starts, if_neg (by omega), Ne, requested_eq_nil_iff, or_iff_right hne, not_not]
  apply wlp_of_eq vopRead_eq
  rw [wlp_bind]
  apply wlp_weaken (uiomoves_stalls (s := s.called) hset hinvalid hu hseg (h.length_le _ _ _))
  · -- a piece is moved, so that there is data
    rintro - ⟨hne, hend⟩
    have hdata : requested file offset (min filesize memsize) ≠ [] := by
      intro hnil
      have hpieces := h.pieces s.calls offset (min filesize memsize)
      rw [hnil] at hpieces
      exact hne (List.prefix_nil.mp hpieces)
    exact (hstarts fun hzero => hdata (requested_eq_nil_iff.mpr (.inl hzero))).mpr ⟨hend, hdata⟩
  · rintro - su ⟨rfl, hnil⟩
    simp only [segmentRegion] at hnil ⊢
    split
    · rw [wlp_pure, wlp_bind, wlp_get, wlp_ite]
      constructor
      · intro hne
        rw [wlp_fail]
        refine ⟨fun _ _ => .inl rfl, ?_⟩
        rintro rfl hfirst
        rw [flatten_straight] at hnil
        exact ((hstarts hne).mp hfirst).2 hnil
      · intro hnot
        have hnone : min filesize memsize = 0 := not_not.mp hnot
        have hzeros : Starts file offset vaddr memsize filesize
            ↔ vaddr + min 16 memsize ≤ userTop := by
          rw [Starts, if_pos (by omega)]
        rw [hnone] at hu hseg ⊢
        rw [Nat.sub_zero, hzeros]
        apply wlp_mono (zeroFill_stalls (s := s.called) hset hinvalid hu hseg rfl rfl
          (Nat.le_refl memsize) hpos hmem)
        · exact fun _ _ hfalse => hfalse.elim
        · rintro e _ ⟨he, hbeyond⟩
          refine ⟨fun _ _ => .inr ⟨he, .of_lt hpos (hbeyond.trans_le ?_)⟩, ?_⟩
          · exact Nat.add_le_add_left (Nat.min_le_right 16 memsize) vaddr
          · exact fun _ => Nat.not_le_of_lt hbeyond
    · next e hresult =>
      rw [wlp_fail]
      constructor
      · intro hreliable hnonneg
        rw [hreliable _ _ _ hnonneg] at hresult
        cases hresult
      · rintro rfl hfirst
        obtain ⟨⟨hneg, hresid'⟩, -⟩ := Option.ite_none_right_eq_some.mp hresult
        obtain ⟨-, hdata⟩ := (hstarts hresid'.ne').mp hfirst
        exact hdata (requested_eq_nil_iff.mpr (.inr fun hin => by omega))
  · rintro e _ ⟨he, data, hdata, hbeyond⟩
    have hle := (List.sublist_flatten_of_mem hdata).length_le.trans (h.length_le s.calls offset _)
    have hmin := Nat.min_le_right filesize memsize
    refine ⟨fun _ _ => .inr ⟨he, .of_lt hpos (hbeyond.trans_le ?_)⟩, ?_⟩
    · exact Nat.add_le_add_left (hle.trans hmin) vaddr
    rintro rfl hfirst
    obtain ⟨b, hb, rfl⟩ := List.mem_map.mp hdata
    have hne : min filesize memsize ≠ 0 := by
      intro hzero
      change b ∈ requested file offset (min filesize memsize) at hb
      rw [requested_eq_nil_iff.mpr (.inl hzero)] at hb
      exact List.not_mem_nil hb
    exact Nat.not_lt_of_le ((hstarts hne).mp hfirst).1 hbeyond

end Stalls

end Segments

/-! ### The files that panic the kernel -/

section Files

variable {s : Process} {file : List UInt8} {read : FileRead} {eh : Ehdr} {n i : ℕ}

/-- The segments before the `i`th are empty. -/
def EmptyBefore (file : List UInt8) (eh : Ehdr) (i : ℕ) : Prop :=
  ∀ j < i, ∀ ph, phdrAt file eh j = some ph → ph.kind = .load → ph.memsz.toNat = 0

/-- The first segment that is not empty has a first byte that can go to user memory. -/
def Touches (file : List UInt8) (eh : Ehdr) : Prop :=
  ∃ i < eh.phnum.toNat, ∃ ph, phdrAt file eh i = some ph ∧ ph.kind = .load ∧ 0 < ph.memsz.toNat
    ∧ Starts file ph.fileOffset ph.vaddr.toNat ph.memsz.toNat ph.filesz.toNat
    ∧ EmptyBefore file eh i

/-- The file is an executable that `as_define_region` accepts and for which there is memory, but
its regions are not the two that `vm_fault` wants, and there is something to copy. -/
def Hits (file : List UInt8) (r : Ram) : Prop :=
  ∃ eh as, ehdrOf file = some eh ∧ eh.Accepted ∧ defined file eh eh.phnum.toNat = some as
    ∧ prepared r as ≠ none ∧ ¬ Filled as ∧ Touches file eh

theorem EmptyBefore.succ {ph : Phdr} (h : EmptyBefore file eh i) (hph : phdrAt file eh i = some ph)
    (hempty : ph.kind = .load → ph.memsz.toNat = 0) :
  EmptyBefore file eh (i + 1)
  := by
  intro j hj ph' hph' hload
  rcases Nat.lt_succ_iff_lt_or_eq.mp hj with hlt | rfl
  · exact h j hlt ph' hph' hload
  · obtain rfl : ph = ph' := Option.some.inj (hph.symm.trans hph')
    exact hempty hload

/-- The second loop does not panic in an address space that is set up. -/
theorem loadHeaders_setUp (h : Conforms file read) (hset : s.as.SetUp)
    (hagrees : Agrees s.as s.tlb) (eh : Ehdr) :
  wp (loop eh.phnum.toNat 0 (fun i _ => loadHeader read eh i) ()) s
    (fun _ s' => s'.as = s.as ∧ Agrees s'.as s'.tlb) (fun _ _ => True)
  := by
  apply wp_loop_run (fun _ (_ : Unit) (s' : Process) => s'.as = s.as ∧ Agrees s'.as s'.tlb)
  · exact ⟨rfl, hagrees⟩
  · rintro j - s' hj ⟨has, hagrees'⟩
    apply wp_mono (loadHeader_spec h (by rw [has]; exact hset) hagrees' hj)
    · rintro - s'' ⟨ph, -, hstored, -⟩
      exact ⟨hstored.as.trans has, hstored.agrees⟩
    · intro _ _ _
      trivial

/-- A program header that the first loop has accepted. -/
theorem known_of_defined {as : AddrSpace} (h : defined file eh n = some as) (hi : i < n) :
  ∃ ph, phdrAt file eh i = some ph ∧ ph.kind ≠ .unknown
  := by
  obtain ⟨as₁, hsucc⟩ := defined_mono h (Nat.succ_le_of_lt hi)
  obtain ⟨as₀, ph, -, hph, hdefine⟩ := defined_succ hsucc
  refine ⟨ph, hph, fun hunknown => ?_⟩
  rw [define, hunknown] at hdefine
  cases hdefine

/-- The second loop, in an address space that is not set up: it does not return, unless all
segments are empty, and panics only at a first byte; there it does panic if the file is read
plainly. -/
theorem loadHeaders_stalls (h : Conforms file read) (hset : ¬ s.as.SetUp)
    (hinvalid : Invalid s.tlb) :
  wlp (fun _ => Touches file eh) (loop eh.phnum.toNat 0 (fun i _ => loadHeader read eh i) ()) s
    (fun _ s' => s'.as = s.as ∧ s'.tlb = s.tlb ∧ EmptyBefore file eh eh.phnum.toNat)
    (fun e s' => (Reliable read → (∀ i < eh.phnum.toNat, 0 ≤ eh.phdrOffset i) →
        (∀ i < eh.phnum.toNat, ∀ ph, phdrAt file eh i = some ph → ph.kind = .load →
          0 ≤ ph.fileOffset) → e = .enoexec ∨ Uncopied file eh e s')
      ∧ (read = straight file → ∀ as, defined file eh eh.phnum.toNat = some as →
        ¬ Touches file eh))
  := by
  apply wlp_loop_run (fun j (_ : Unit) (s' : Process) =>
    s'.as = s.as ∧ s'.tlb = s.tlb ∧ EmptyBefore file eh j)
  · exact ⟨rfl, rfl, fun j hj => absurd hj (Nat.not_lt_zero j)⟩
  · rintro j - s' hj ⟨has, htlb, hempty⟩
    apply wlp_loadHeader h
    · intro e he
      refine ⟨fun hreliable hphdr _ => .inl ((he hreliable).2 (hphdr j hj)), ?_⟩
      rintro rfl as hdefined
      obtain ⟨ph, hph, -⟩ := known_of_defined hdefined hj
      rw [(he (reliable_straight file)).1] at hph
      cases hph
    · intro ph hph hunknown
      refine ⟨fun _ _ _ => .inl rfl, fun _ as hdefined => ?_⟩
      obtain ⟨ph', hph', hknown⟩ := known_of_defined hdefined hj
      obtain rfl : ph = ph' := Option.some.inj (hph.symm.trans hph')
      exact absurd hunknown hknown
    · intro ph hph hskip
      refine ⟨has, htlb, hempty.succ hph fun hload => ?_⟩
      rw [hskip] at hload
      cases hload
    · intro ph hph hload
      rcases Nat.eq_zero_or_pos ph.memsz.toNat with hzero | hpos
      · rw [hzero]
        apply wlp_mono (wlp_of_wp (loadSegment_empty h))
        · rintro - s'' rfl
          exact ⟨has, htlb, hempty.succ hph fun _ => hzero⟩
        · intro e _ he
          constructor
          · intro hreliable _ hfile
            rw [hreliable _ _ _ (hfile j hj ph hph hload)] at he
            cases he
          · rintro rfl
            simp [straight] at he
      · have hge : -2 ^ 31 ≤ ph.fileOffset := le_i32 _
        have hlt : ph.fileOffset < 2 ^ 31 := i32_lt _
        have hset' : ¬ s'.called.as.SetUp := by
          show ¬ s'.as.SetUp
          rwa [has]
        have hinvalid' : Invalid s'.called.tlb := by
          show Invalid s'.tlb
          rwa [htlb]
        apply wlp_weaken (loadSegment_stalls hset' hinvalid' h hge hlt hpos ph.memsz.toNat_lt)
        · intro _ hstarts
          exact ⟨j, hj, ph, hph, hload, hpos, hstarts, hempty⟩
        · intro _ _ hfalse
          exact hfalse.elim
        · rintro e _ ⟨he, hplain⟩
          refine ⟨fun hreliable _ hfile => ?_, ?_⟩
          · rcases he hreliable (hfile j hj ph hph hload) with he | ⟨he, hfault⟩
            · exact .inl he
            · exact .inr ⟨he, j, hj, ph, hph, hload, hfault⟩
          -- the first segment that is not empty is this one
          rintro hread - - ⟨i, hi, ph', hph', hload', hpos', hstarts, hempty'⟩
          rcases Nat.lt_trichotomy i j with hij | rfl | hij
          · exact hpos'.ne' (hempty i hij ph' hph' hload')
          · obtain rfl : ph = ph' := Option.some.inj (hph.symm.trans hph')
            exact hplain hread hstarts
          · exact hpos.ne' (hempty' j hij ph hph hload)

/-- `load_elf` in a fresh address space, by what its second loop does. -/
theorem wlp_loadElf (h : Conforms file read) (hfresh : s.as = Dumbvm.fresh)
    (hread : ∀ e s', (Reliable read → ehdrOf file = none ∧ e = .enoexec) → E e s')
    (hrefused : ∀ eh s', ehdrOf file = some eh → ¬ eh.Accepted → E .enoexec s')
    (hdefine : ∀ eh e s', ehdrOf file = some eh → (Reliable read → ∃ j < eh.phnum.toNat, ∃ as,
      defined file eh j = some as ∧ Rejects file eh j as e) → E e s')
    (hprepare : ∀ eh as s', ehdrOf file = some eh → defined file eh eh.phnum.toNat = some as →
      prepared s.ram as = none → E .enomem s')
    (hload : ∀ eh as as' r' calls, ehdrOf file = some eh → eh.Accepted →
      defined file eh eh.phnum.toNat = some as → prepared s.ram as = some (as', r') →
      wlp P (loop eh.phnum.toNat 0 (fun i _ => loadHeader read eh i) ())
        { s with as := as', ram := r', calls := calls } (fun _ => Q eh.entry.toNat) E) :
  wlp P (loadElf read) s Q E
  := by
  rw [loadElf, wlp_bind]
  apply wlp_mono (wlp_of_wp (readEhdr_spec h))
  · rintro f s' ⟨rfl, heh⟩
    simp only
    generalize Ehdr.decode f = eh at heh ⊢
    rw [wlp_ite]
    refine ⟨fun hnot => (wlp_fail _).mpr (hrefused eh _ heh hnot), fun haccepted => ?_⟩
    rw [not_not] at haccepted
    simp only [wlp_bind]
    apply wlp_mono (wlp_of_wp (defineSegments_spec (s := s.called) h hfresh eh eh.phnum.toNat))
    · rintro - s' ⟨as, calls, hdefined, rfl⟩
      apply wlp_mono (wlp_of_wp (prepareLoad_spec (unprepared_defined hdefined)))
      · rintro - s' ⟨as', r', hprepared, rfl⟩
        simp only [wlp_pure]
        exact hload eh as as' r' calls heh haccepted hdefined hprepared
      · rintro e s' ⟨rfl, hnone⟩
        exact hprepare eh as s' heh hdefined hnone
    · intro e s' he
      exact hdefine eh e s' heh he
  · intro e s' he
    exact hread e s' he

/-- A file that does not hit the assertions of `vm_fault` panics nothing else. -/
theorem loadElf_returns (h : Conforms file read) (hfresh : s.as = Dumbvm.fresh)
    (hinvalid : Invalid s.tlb) (hram : PageAligned s.ram) (hnot : ¬ Hits file s.ram) :
  wp (loadElf read) s (fun _ _ => True) (fun _ _ => True)
  := by
  apply wp_iff_wlp.mpr
  apply wlp_loadElf h hfresh
  · exact fun _ _ _ => trivial
  · exact fun _ _ _ _ => trivial
  · exact fun _ _ _ _ _ => trivial
  · exact fun _ _ _ _ _ _ => trivial
  · intro eh as as' r' calls heh haccepted hdefined hprepared
    have hset := setUp_prepared (unprepared_defined hdefined) hram hprepared
    by_cases hfilled : Filled as
    · apply wlp_imp (wp_iff_wlp.mp
        (loadHeaders_setUp h (hset.mpr hfilled) (hinvalid.agrees as') eh))
      exact fun _ _ _ => trivial
    · apply wlp_weaken (loadHeaders_stalls h (hset.not.mpr hfilled) (by exact hinvalid))
      · intro _ htouches
        refine hnot ⟨eh, as, heh, haccepted, hdefined, ?_, hfilled, htouches⟩
        rw [hprepared]
        exact nofun
      · exact fun _ _ _ => trivial
      · exact fun _ _ _ => trivial

/-- The file panics the kernel: there is no other way for `load_elf` to end. -/
theorem loadElf_panics (hfresh : s.as = Dumbvm.fresh) (hinvalid : Invalid s.tlb)
    (hram : PageAligned s.ram) (h : Hits file s.ram) :
  ∃ q, loadElf (straight file) s = .panic q
  := by
  obtain ⟨eh, as, heh, haccepted, hdefined, hprepared, hfilled, htouches⟩ := h
  have hreliable := reliable_straight file
  have hends : wlp (fun _ => True) (loadElf (straight file)) s (fun _ _ => False) := by
    have hsame : ∀ eh', ehdrOf file = some eh' → eh' = eh :=
      fun eh' heh' => Option.some.inj (heh'.symm.trans heh)
    apply wlp_loadElf (conforms_straight file) hfresh
    · intro e _ he
      rw [(he hreliable).1] at heh
      cases heh
    · intro eh' _ heh' hnot
      rw [hsame eh' heh'] at hnot
      exact hnot haccepted
    · intro eh' e _ heh' he
      obtain rfl := hsame eh' heh'
      obtain ⟨j, hj, as', has', hrejects⟩ := he hreliable
      rw [hrejects.not_defined has' hj] at hdefined
      cases hdefined
    · intro eh' as' _ heh' hdefined' hnone
      obtain rfl := hsame eh' heh'
      obtain rfl : as' = as := Option.some.inj (hdefined'.symm.trans hdefined)
      exact hprepared hnone
    · intro eh' as₀ as' r' calls heh' _ hdefined' hprepared'
      obtain rfl := hsame eh' heh'
      obtain rfl : as₀ = as := Option.some.inj (hdefined'.symm.trans hdefined)
      have hset := (setUp_prepared (unprepared_defined hdefined) hram hprepared').not.mpr hfilled
      apply wlp_weaken (loadHeaders_stalls (conforms_straight file) hset (by exact hinvalid))
      · exact fun _ _ => trivial
      · rintro - _ ⟨-, -, hempty⟩
        obtain ⟨i, hi, ph, hph, hload, hpos, -⟩ := htouches
        exact hpos.ne' (hempty i hi ph hph hload)
      · rintro e _ ⟨-, hplain⟩
        exact hplain rfl as₀ hdefined htouches
  cases hrun : loadElf (straight file) s with
  | ok entry s' => exact (wlp_ok hends hrun).elim
  | err e s' => exact (wlp_err hends hrun).elim
  | panic q => exact ⟨q, rfl⟩

/-- `load_elf` returns, for every way in which the file can be read, unless the file hits the
assertions of `vm_fault`. -/
theorem loadElf_returns_iff (file : List UInt8) (hfresh : s.as = Dumbvm.fresh)
    (hinvalid : Invalid s.tlb) (hram : PageAligned s.ram) :
  (∀ read, Conforms file read → ∀ q, loadElf read s ≠ .panic q) ↔ ¬ Hits file s.ram
  := by
  constructor
  · intro hreturns hhits
    obtain ⟨q, hpanic⟩ := loadElf_panics hfresh hinvalid hram hhits
    exact hreturns (straight file) (conforms_straight file) q hpanic
  · intro hnot read hconforms q
    exact wp_not_panic (loadElf_returns hconforms hfresh hinvalid hram hnot)

/-- A process that has just been given its address space. -/
def started : Process where
  as := Dumbvm.fresh
  tlb := invalidTlb
  ram := ⟨0x10000, 0x80000⟩
  mem := fun _ => 0
  switches := []
  calls := 0

/-- A half word in a file. -/
def half (x : ℕ) : List UInt8 := [UInt8.ofNat (x / 256), UInt8.ofNat x]

/-- A word in a file. -/
def word (x : ℕ) : List UInt8 := half (x / 65536) ++ half x

/-- An executable with program headers after its header, and then data. -/
def executableFile (entry : ℕ) (phdrs : List (List UInt8)) (data : List UInt8) : List UInt8 :=
  [0x7f, 69, 76, 70, 1, 2, 1, 0, 0, 0, 0, 0, 0, 0, 0, 0] ++ half 2 ++ half 8 ++ word 1 ++ word entry
    ++ word 52 ++ word 0 ++ word 0 ++ half 52 ++ half 32 ++ half phdrs.length ++ half 0 ++ half 0
    ++ half 0 ++ phdrs.flatten ++ data

/-- The program header of a `PT_LOAD` segment. -/
def loadPhdr (offset vaddr filesz memsz flags : ℕ) : List UInt8 :=
  word 1 ++ word offset ++ word vaddr ++ word vaddr ++ word filesz ++ word memsz ++ word flags
    ++ word 4096

/-- A program with a segment of code and a segment of data. -/
def codeAndDataFile : List UInt8 :=
  executableFile 0x400000
    [loadPhdr 116 0x400000 2 2 5, loadPhdr 118 0x10000000 1 20 6] [1, 2, 3]

/-- A program with one segment. -/
def codeFile : List UInt8 := executableFile 0x400000 [loadPhdr 84 0x400000 1 1 5] [1]

/-- `load_elf` returns for a program with code and data. -/
theorem loadElf_returns_codeAndData :
  ¬ Hits codeAndDataFile started.ram
    ∧ ∀ read, Conforms codeAndDataFile read → ∀ q, loadElf read started ≠ .panic q
  := by
  have hfilled : ((ehdrOf codeAndDataFile).bind fun eh =>
    defined codeAndDataFile eh eh.phnum.toNat).all (fun as => decide (Filled as)) = true := by
    decide +kernel
  have hnot : ¬ Hits codeAndDataFile started.ram := by
    rintro ⟨eh, as, heh, -, hdefined, -, hnot, -⟩
    rw [heh, Option.bind_some, hdefined] at hfilled
    exact hnot (of_decide_eq_true hfilled)
  refine ⟨hnot, ?_⟩
  apply (loadElf_returns_iff codeAndDataFile rfl invalid_invalidTlb ⟨by decide, by decide⟩).mpr
  exact hnot

/-- A program with one segment panics the kernel. -/
theorem loadElf_panics_code :
  Conforms codeFile (straight codeFile)
    ∧ loadElf (straight codeFile) started = .panic (.vm .faultVbase2)
  := by
  exact ⟨conforms_straight codeFile, by decide +kernel⟩

end Files

end Userprog
