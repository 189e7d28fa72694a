import AzureSpider.Userprog.ElfSafety

/-!
# The memory image of a program

When `load_elf` returns 0, the memory of the process is what the file describes: each segment has
its bytes of the file and zeros after them.

The pages of an address space are apart from each other, so that different user addresses have
different places in physical memory; a store at one of them keeps the bytes at the others, and
segments that have no address in common keep what was loaded before.
-/

open Machine Routine

namespace Userprog

/-! ### User memory -/

section Memory

variable {as : AddrSpace} {s s' : Process} {mem : ℕ → UInt8} {v a b k p : ℕ} {data : List UInt8}

/-- The byte of the process at a user address. -/
def userByte (s : Process) (a : ℕ) : Option UInt8 := (phys s.as a).map s.mem

/-- Different user addresses have different places in physical memory. -/
def Separate (as : AddrSpace) : Prop :=
  ∀ a < userTop, ∀ b < userTop, ∀ p, phys as a = some p → phys as b = some p → a = b

/-- A store at other places keeps a byte. -/
theorem written_of_ne (hmapped : ∀ k < data.length, (phys as (v + k)).isSome)
    (hne : ∀ k < data.length, phys as (v + k) ≠ some p) :
  written as mem v data p = mem p
  := by
  induction data generalizing mem v with
  | nil => rfl
  | cons x xs ih =>
    have hlen : (x :: xs).length = xs.length + 1 := List.length_cons
    have hnext : ∀ k, v + 1 + k = v + (k + 1) := fun k => by omega
    rw [written, ih]
    · obtain ⟨q, hq⟩ := Option.isSome_iff_exists.mp (hmapped 0 (by omega))
      have hpq := hne 0 (by omega)
      rw [Nat.add_zero] at hq hpq
      rw [hq] at hpq ⊢
      apply Function.update_of_ne
      intro heq
      rw [heq] at hpq
      exact hpq rfl
    · intro k hk
      rw [hnext]
      exact hmapped (k + 1) (by omega)
    · intro k hk
      rw [hnext]
      exact hne (k + 1) (by omega)

/-- A byte that was stored is there. -/
theorem written_at (hsep : Separate as) (hmapped : ∀ k < data.length, (phys as (v + k)).isSome)
    (hend : v + data.length ≤ userTop) (hk : k < data.length) (hp : phys as (v + k) = some p) :
  written as mem v data p = data.getD k 0
  := by
  induction data generalizing mem v k with
  | nil => exact absurd hk (Nat.not_lt_zero k)
  | cons x xs ih =>
    have hlen : (x :: xs).length = xs.length + 1 := List.length_cons
    have hnext : ∀ k, v + 1 + k = v + (k + 1) := fun k => by omega
    have hmapped' : ∀ k < xs.length, (phys as (v + 1 + k)).isSome := by
      intro k hk
      rw [hnext]
      exact hmapped (k + 1) (by omega)
    rw [written]
    cases k with
    | zero =>
      rw [Nat.add_zero] at hp
      rw [written_of_ne hmapped', hp]
      · exact Function.update_self _ _ _
      · -- the bytes after it are at other places
        intro k hk hsame
        have heq := hsep v (by omega) (v + 1 + k) (by omega) p hp hsame
        omega
    | succ k =>
      rw [List.getD_cons_succ]
      apply ih hmapped' (by omega) (by omega)
      rw [hnext]
      exact hp

/-- A byte outside of the range of a store. -/
theorem Stored.userByte_of_ne (h : Stored v data s s') (hsep : Separate s.as)
    (hend : data = [] ∨ v + data.length ≤ userTop) (ha : a < userTop)
    (hout : ∀ k < data.length, v + k ≠ a) :
  userByte s' a = userByte s a
  := by
  rw [userByte, userByte, h.as, h.mem]
  cases hp : phys s.as a with
  | none => rfl
  | some p =>
    rw [Option.map_some, Option.map_some, written_of_ne h.mapped]
    intro k hk hsame
    apply hout k hk
    rcases hend with rfl | hend
    · exact absurd hk (Nat.not_lt_zero k)
    · exact hsep (v + k) (by omega) a ha p hsame hp

end Memory

/-! ### The pages of an address space -/

section Pages

variable {as as' : AddrSpace} {r r' : Ram} {a b : ℕ}

/-- The parts of an address space do not share pages. -/
structure Paged (as : AddrSpace) : Prop where
  vbase1_frame : as.vbase1 &&& pageFrame = as.vbase1
  vbase2_frame : as.vbase2 &&& pageFrame = as.vbase2
  proper : ∀ k, (as.range k).Proper
  apart : ∀ k l, k ≠ l → (as.range k).Apart (as.range l)

theorem Paged.vbase_mod (h : Paged as) (k : Fin 3) :
  as.vbase k % pageSize = 0
  := by
  match k with
  | 0 => exact AddrSpace.mod_of_frame h.vbase1_frame
  | 1 => exact AddrSpace.mod_of_frame h.vbase2_frame
  | 2 =>
    show (userStack - stackPages * pageSize) % pageSize = 0
    decide

/-- The place of a user address in the pages of its region. -/
theorem Paged.exists_place {p : ℕ} (h : Paged as) (ha : a < userTop) (hp : phys as a = some p) :
  ∃ k x, a = as.vbase k + x ∧ x < (as.range k).npages * pageSize ∧ p = (as.range k).base + x
  := by
  have htop := userTop_eq
  obtain ⟨frame, htrans, rfl⟩ := Option.map_eq_some_iff.mp hp
  obtain ⟨k, x, hloc⟩ := AddrSpace.exists_locates (fun k => (h.proper k).npages_lt) htrans
  have htrans' := hloc.translate (h.proper k)
  obtain rfl : frame = (as.range k).base + x := Option.some.inj (htrans.symm.trans htrans')
  obtain ⟨hpage, hx, -⟩ := hloc
  have hmod := h.vbase_mod k
  rw [and_pageFrame] at hpage
  refine ⟨k, x + a % pageSize, ?_, ?_, by omega⟩
  · simp only [pageSize] at hpage ⊢
    omega
  · simp only [pageSize] at hpage hmod hx ⊢
    omega

theorem Paged.separate (h : Paged as) :
  Separate as
  := by
  intro a ha b hb p hpa hpb
  obtain ⟨k, x, rfl, hx, rfl⟩ := h.exists_place ha hpa
  obtain ⟨l, y, rfl, hy, heq⟩ := h.exists_place hb hpb
  by_cases hkl : k = l
  · subst hkl
    omega
  · exact absurd heq ((h.apart k l hkl).ne hx hy)

/-- The free pages as `ram_bootstrap` and `ram_stealmem` leave them, below 508 megabytes. -/
structure Booted (r : Ram) : Prop where
  aligned : r.firstpaddr % pageSize = 0
  first : 0 < r.firstpaddr
  free : r.firstpaddr ≤ r.lastpaddr
  last : r.lastpaddr ≤ 508 * 1024 * 1024

/-- The most pages that a region of user memory can have. -/
def maxPages : ℕ := 2 ^ 19 + 1

/-- Pages come one after the other. -/
theorem Booted.getppages {n : ℕ} (h : Booted r) (hn : n ≤ maxPages) (hne : (r.getppages n).1 ≠ 0) :
  (r.getppages n).1 = r.firstpaddr
    ∧ (r.getppages n).2.firstpaddr = r.firstpaddr + n * pageSize ∧ Booted (r.getppages n).2
  := by
  obtain ⟨haligned, hfirst, hfree, hlast⟩ := h
  simp only [maxPages] at hn
  have hsize : u32 (n * pageSize) = n * pageSize := u32_of_lt (by simp only [pageSize]; omega)
  have hsum : u32 (r.firstpaddr + n * pageSize) = r.firstpaddr + n * pageSize :=
    u32_of_lt (by simp only [pageSize]; omega)
  simp only [Ram.getppages, Ram.stealmem, hsize, hsum] at hne ⊢
  split at hne
  · exact absurd rfl hne
  · next hle =>
    rw [if_neg hle]
    refine ⟨rfl, rfl, ?_, ?_, ?_, hlast⟩
    · simp only [pageSize] at haligned ⊢
      omega
    · simp only
      omega
    · simp only
      omega

/-- Pages that come one after the other are apart. -/
theorem paged_of_consecutive (hframe₁ : as.vbase1 &&& pageFrame = as.vbase1)
    (hframe₂ : as.vbase2 &&& pageFrame = as.vbase2) (hpos : 0 < as.pbase1)
    (haligned : as.pbase1 % pageSize = 0) (h₂ : as.pbase2 = as.pbase1 + as.npages1 * pageSize)
    (h₃ : as.stackpbase = as.pbase2 + as.npages2 * pageSize)
    (hend : as.stackpbase + stackPages * pageSize ≤ 2 ^ 32) :
  Paged as
  := by
  have haligned₂ : as.pbase2 % pageSize = 0 := by
    rw [h₂, Nat.add_mul_mod_self_right]
    exact haligned
  have haligned₃ : as.stackpbase % pageSize = 0 := by
    rw [h₃, Nat.add_mul_mod_self_right]
    exact haligned₂
  have h₀₁ : (as.range 0).Apart (as.range 1) := .inr (.inr (.inl (Nat.le_of_eq h₂.symm)))
  have h₁₂ : (as.range 1).Apart (as.range 2) := .inr (.inr (.inl (Nat.le_of_eq h₃.symm)))
  have h₀₂ : (as.range 0).Apart (as.range 2) := by
    right; right; left
    show as.pbase1 + as.npages1 * pageSize ≤ as.stackpbase
    omega
  refine ⟨hframe₁, hframe₂, ?_, ?_⟩
  · intro k
    match k with
    | 0 =>
      show as.pbase1 ≠ 0 ∧ as.pbase1 % pageSize = 0
        ∧ as.pbase1 + as.npages1 * pageSize ≤ 2 ^ 32
      exact ⟨hpos.ne', haligned, by omega⟩
    | 1 =>
      show as.pbase2 ≠ 0 ∧ as.pbase2 % pageSize = 0
        ∧ as.pbase2 + as.npages2 * pageSize ≤ 2 ^ 32
      exact ⟨by omega, haligned₂, by omega⟩
    | 2 =>
      show as.stackpbase ≠ 0 ∧ as.stackpbase % pageSize = 0
        ∧ as.stackpbase + stackPages * pageSize ≤ 2 ^ 32
      exact ⟨by omega, haligned₃, hend⟩
  · intro k l hkl
    match k, l with
    | 0, 1 => exact h₀₁
    | 0, 2 => exact h₀₂
    | 1, 2 => exact h₁₂
    | 1, 0 => exact h₀₁.symm
    | 2, 0 => exact h₀₂.symm
    | 2, 1 => exact h₁₂.symm
    | 0, 0 => exact absurd rfl hkl
    | 1, 1 => exact absurd rfl hkl
    | 2, 2 => exact absurd rfl hkl

/-- The pages that three calls of `getppages` grant to an address space are its own. -/
theorem paged_granted {g₁ g₂ g₃ : ℕ × Ram} (h : Unprepared as) (hr : Booted r)
    (hr₃ : Booted g₃.2) (h₁ : g₁.1 = r.firstpaddr) (h₂ : g₂.1 = g₁.1 + as.npages1 * pageSize)
    (h₃ : g₃.1 = g₂.1 + as.npages2 * pageSize)
    (hend : g₃.2.firstpaddr = g₃.1 + stackPages * pageSize)
    (hg : granted as g₁ g₂ g₃ = some (as', r')) :
  Paged as'
  := by
  rw [granted] at hg
  split at hg
  · cases hg
  next _ =>
    obtain ⟨rfl, -⟩ := Prod.mk.inj (Option.some.inj hg)
    have hfree := hr₃.free
    have hlast := hr₃.last
    apply paged_of_consecutive
    · exact h.vbase1_frame
    · exact h.vbase2_frame
    · rw [h₁]
      exact hr.first
    · rw [h₁]
      exact hr.aligned
    · exact h₂
    · exact h₃
    · rw [← hend]
      omega

/-- The pages of an address space that `as_prepare_load` has prepared are its own. -/
theorem paged_prepared (h : Unprepared as) (hn₁ : as.npages1 ≤ maxPages)
    (hn₂ : as.npages2 ≤ maxPages) (hr : Booted r) (hp : prepared r as = some (as', r')) :
  Paged as'
  := by
  have hne : (r.getppages as.npages1).1 ≠ 0
      ∧ ((r.getppages as.npages1).2.getppages as.npages2).1 ≠ 0
      ∧ (((r.getppages as.npages1).2.getppages as.npages2).2.getppages stackPages).1 ≠ 0 := by
    simp only [prepared, granted] at hp
    split at hp
    · cases hp
    next hne =>
      rw [not_or, not_or] at hne
      exact hne
  obtain ⟨hne₁, hne₂, hne₃⟩ := hne
  obtain ⟨hg₁, hf₁, hr₁⟩ := hr.getppages hn₁ hne₁
  obtain ⟨hg₂, hf₂, hr₂⟩ := hr₁.getppages hn₂ hne₂
  obtain ⟨hg₃, hf₃, hr₃⟩ := hr₂.getppages (by decide) hne₃
  exact paged_granted h hr hr₃ hg₁ (by rw [hg₂, hf₁, hg₁]) (by rw [hg₃, hf₂, hg₂])
    (by rw [hf₃, hg₃]) hp

end Pages

/-! ### The image -/

section Images

variable {s s' : Process} {file : List UInt8} {read : FileRead} {eh : Ehdr} {n : ℕ} {ph ph' : Phdr}

/-- The addresses of a segment. -/
def Phdr.region (ph : Phdr) : Region := ⟨ph.vaddr.toNat, ph.memsz.toNat⟩

/-- The segments of a file are in user memory and have no address in common, and there are no
negative offsets. -/
structure WellPlaced (file : List UInt8) (eh : Ehdr) : Prop where
  user : ∀ i < eh.phnum.toNat, ∀ ph, phdrAt file eh i = some ph → ph.kind = .load →
    ∀ a, ph.region.Mem a → a < userTop
  disjoint : ∀ i < eh.phnum.toNat, ∀ j < eh.phnum.toNat, i ≠ j → ∀ ph ph',
    phdrAt file eh i = some ph → phdrAt file eh j = some ph' → ph.kind = .load →
    ph'.kind = .load → ∀ a, ph.region.Mem a → ¬ ph'.region.Mem a
  phdrOffset : ∀ i < eh.phnum.toNat, 0 ≤ eh.phdrOffset i
  fileOffset : ∀ i < eh.phnum.toNat, ∀ ph, phdrAt file eh i = some ph → ph.kind = .load →
    0 ≤ ph.fileOffset

/-- The segment is in the memory of the process. -/
def Phdr.InMemory (file : List UInt8) (ph : Phdr) (s : Process) : Prop :=
  ∀ k < ph.memsz.toNat, userByte s (ph.vaddr.toNat + k)
    = some (if k < ph.loadsz then file.getD (ph.fileOffset.toNat + k) 0 else 0)

/-- The first `n` program headers are loaded. -/
def Imaged (file : List UInt8) (eh : Ehdr) (n : ℕ) (s : Process) : Prop :=
  ∀ i < n, ∀ ph, phdrAt file eh i = some ph → ph.kind = .load →
    ph.Fits file ∧ ph.InMemory file s

theorem Phdr.length_image (h : ph.Fits file) (hload : ph.kind = .load) :
  (ph.image file).length = ph.memsz.toNat
  := by
  have hdata := h.data
  rw [loadsz] at hdata
  rw [image, hload]
  simp only
  rw [segment, List.length_append, hdata, List.length_replicate]
  omega

theorem Phdr.getD_image {k : ℕ} (h : ph.Fits file) (hload : ph.kind = .load) :
  (ph.image file).getD k 0 = if k < ph.loadsz then file.getD (ph.fileOffset.toNat + k) 0 else 0
  := by
  have hdata := h.data
  rw [image, hload]
  simp only
  have hsegment : segment file ph.fileOffset ph.memsz.toNat ph.filesz.toNat
      = requested file ph.fileOffset ph.loadsz
        ++ List.replicate (ph.memsz.toNat - ph.loadsz) 0 := rfl
  rw [hsegment]
  split_ifs with hk
  · have hnonneg := (of_length_requested (by omega) hdata).1
    rw [List.getD_append _ _ _ _ (by omega), getD_requested hnonneg hk]
  · rw [List.getD_append_right _ _ _ _ (by omega), List.getD_eq_getElem?_getD,
      List.getElem?_replicate]
    split
    · rfl
    · rfl

theorem Phdr.image_of_ne_load (hload : ph.kind ≠ .load) :
  ph.image file = []
  := by
  rw [image]
  cases hkind : ph.kind with
  | load => exact absurd hkind hload
  | skip | unknown => rfl

/-- A segment that was just loaded is in memory. -/
theorem Stored.inMemory (h : Stored ph.vaddr.toNat (ph.image file) s s') (hsep : Separate s.as)
    (hfits : ph.Fits file) (hload : ph.kind = .load) :
  ph.InMemory file s'
  := by
  intro k hk
  have hlen := ph.length_image hfits hload
  rcases hfits.memory with hzero | hend
  · omega
  · obtain ⟨p, hp⟩ := Option.isSome_iff_exists.mp (h.mapped k (by omega))
    rw [userByte, h.as, h.mem, hp, Option.map_some,
      written_at hsep h.mapped (by omega) (by omega) hp, ph.getD_image hfits hload]

/-- A segment that was loaded before stays in memory. -/
theorem Stored.inMemory_of_disjoint (h : Stored ph.vaddr.toNat (ph.image file) s s')
    (hsep : Separate s.as) (hfits : ph.kind = .load → ph.Fits file)
    (hdisjoint : ph.kind = .load → ∀ a, ph'.region.Mem a → ¬ ph.region.Mem a)
    (hfits' : ph'.Fits file) (hmem : ph'.InMemory file s) :
  ph'.InMemory file s'
  := by
  intro k hk
  rw [← hmem k hk]
  have hend' : ph'.vaddr.toNat + k < userTop := by
    rcases hfits'.memory with hzero | hend
    · omega
    · omega
  by_cases hload : ph.kind = .load
  · have hlen := ph.length_image (hfits hload) hload
    apply h.userByte_of_ne hsep _ hend'
    · intro j hj hsame
      have hin : ph'.region.Mem (ph'.vaddr.toNat + k) :=
        ⟨Nat.le_add_right _ _, Nat.add_lt_add_left hk _⟩
      apply hdisjoint hload _ hin
      rw [← hsame]
      have hj' : j < ph.memsz.toNat := by omega
      exact ⟨Nat.le_add_right _ _, Nat.add_lt_add_left hj' _⟩
    · rcases (hfits hload).memory with hzero | hend
      · left
        apply List.eq_nil_of_length_eq_zero
        omega
      · right
        omega
  · have hnil : ph.image file = [] := Phdr.image_of_ne_load hload
    apply h.userByte_of_ne hsep (.inl hnil) hend'
    intro j hj
    rw [hnil] at hj
    exact absurd hj (Nat.not_lt_zero j)

/-- The second loop, in an address space that is set up. -/
theorem loadHeaders_image (h : Conforms file read) (hset : s.as.SetUp)
    (hagrees : Agrees s.as s.tlb) (hsep : Separate s.as) (hplaced : WellPlaced file eh) :
  wp (loop eh.phnum.toNat 0 (fun i _ => loadHeader read eh i) ()) s
    (fun _ s' => s'.as = s.as ∧ Agrees s'.as s'.tlb ∧ Imaged file eh eh.phnum.toNat s')
    (fun e s' => Reliable read → e = .enoexec ∨ Uncopied file eh e s')
  := by
  apply wp_loop_run (fun j (_ : Unit) (s' : Process) =>
    s'.as = s.as ∧ Agrees s'.as s'.tlb ∧ Imaged file eh j s')
  · exact ⟨rfl, hagrees, fun i hi => absurd hi (Nat.not_lt_zero i)⟩
  · rintro j - s' hj ⟨has, hagrees', himaged⟩
    have hsep' : Separate s'.as := by rwa [has]
    apply wp_mono (loadHeader_spec h (by rw [has]; exact hset) hagrees' hj)
    · rintro - s'' ⟨ph, hph, hstored, hfits⟩
      refine ⟨hstored.as.trans has, hstored.agrees, ?_⟩
      intro i hi ph' hph' hload'
      rcases Nat.lt_succ_iff_lt_or_eq.mp hi with hlt | rfl
      · -- a segment from before
        obtain ⟨hfits', hmem⟩ := himaged i hlt ph' hph' hload'
        refine ⟨hfits', hstored.inMemory_of_disjoint hsep' hfits ?_ hfits' hmem⟩
        intro hload
        exact hplaced.disjoint i (by omega) j hj (Nat.ne_of_lt hlt) ph' ph hph' hph hload' hload
      · obtain rfl : ph' = ph := Option.some.inj (hph'.symm.trans hph)
        exact ⟨hfits hload', hstored.inMemory hsep' (hfits hload') hload'⟩
    · intro e _ he hreliable
      exact he hreliable (hplaced.phdrOffset j hj) (hplaced.fileOffset j hj)

/-- Empty segments are in any memory. -/
theorem EmptyBefore.imaged (h : EmptyBefore file eh n) (s : Process) :
  Imaged file eh n s
  := by
  intro i hi ph hph hload
  have hzero := h i hi ph hph hload
  have hloadsz : ph.loadsz = 0 := by
    rw [Phdr.loadsz, hzero, Nat.min_zero]
  refine ⟨⟨?_, .inl hzero⟩, ?_⟩
  · rw [hloadsz, requested_eq_nil_iff.mpr (.inl rfl)]
    rfl
  · intro k hk
    omega

/-- The second loop of `load_elf`. -/
theorem loadHeaders_spec (h : Conforms file read) (hinvalid : Invalid s.tlb)
    (hsep : Separate s.as) (hplaced : WellPlaced file eh) :
  wlp (fun _ => True) (loop eh.phnum.toNat 0 (fun i _ => loadHeader read eh i) ()) s
    (fun _ s' => Imaged file eh eh.phnum.toNat s')
    (fun e s' => Reliable read → e = .enoexec ∨ Uncopied file eh e s')
  := by
  by_cases hset : s.as.SetUp
  · apply wlp_imp (wlp_of_wp (loadHeaders_image h hset (hinvalid.agrees s.as) hsep hplaced))
    rintro - s' ⟨-, -, himaged⟩
    exact himaged
  · apply wlp_weaken (loadHeaders_stalls h hset hinvalid)
    · exact fun _ _ => trivial
    · rintro - s' ⟨-, -, hempty⟩
      exact hempty.imaged s'
    · rintro e _ ⟨he, -⟩ hreliable
      exact he hreliable hplaced.phdrOffset hplaced.fileOffset

/-- The regions of segments in user memory are not too large. -/
theorem npages_le_of_define {as as' : AddrSpace} (hn₁ : as.npages1 ≤ maxPages)
    (hn₂ : as.npages2 ≤ maxPages) (hsz : ph.kind = .load → ph.memsz.toNat ≤ userTop)
    (h : define as ph = .ok as') :
  as'.npages1 ≤ maxPages ∧ as'.npages2 ≤ maxPages
  := by
  rw [define] at h
  split at h
  · obtain rfl := Except.ok.inj h
    exact ⟨hn₁, hn₂⟩
  · cases h
  next hkind =>
    have hle : (u32 (u32 (ph.memsz.toNat + (ph.vaddr.toNat &&& pageOffset)) + pageSize - 1)
        &&& pageFrame) / pageSize ≤ maxPages := by
      have hsz := hsz hkind
      have htop := userTop_eq
      rw [and_pageFrame, and_pageOffset]
      simp only [u32, pageSize, maxPages]
      omega
    simp only [Dumbvm.asDefineRegion] at h
    split at h
    · obtain rfl := Except.ok.inj h
      exact ⟨hle, hn₂⟩
    · split at h
      · obtain rfl := Except.ok.inj h
        exact ⟨hn₁, hle⟩
      · cases h

theorem npages_le_of_defined {as : AddrSpace} (hplaced : WellPlaced file eh)
    (h : defined file eh n = some as) (hn : n ≤ eh.phnum.toNat) :
  as.npages1 ≤ maxPages ∧ as.npages2 ≤ maxPages
  := by
  induction n generalizing as with
  | zero =>
    obtain rfl := Option.some.inj h
    exact ⟨Nat.zero_le _, Nat.zero_le _⟩
  | succ n ih =>
    obtain ⟨as₀, ph, has₀, hph, hdefine⟩ := defined_succ h
    obtain ⟨hn₁, hn₂⟩ := ih has₀ (by omega)
    apply npages_le_of_define hn₁ hn₂ _ hdefine
    intro hload
    rcases Nat.eq_zero_or_pos ph.memsz.toNat with hzero | hpos
    · omega
    · -- the last address of the segment
      have hlast := hplaced.user n (by omega) ph hph hload (ph.vaddr.toNat + (ph.memsz.toNat - 1))
        ⟨Nat.le_add_right _ _, Nat.add_lt_add_left (Nat.sub_one_lt hpos.ne') _⟩
      omega

/-- Why `load_elf` may fail on a file other than for its contents: `as_define_region` has no place
for another region, there is no memory, or a byte of a segment cannot be stored in the memory that
`load_elf` leaves as `s`. -/
def Preempted (file : List UInt8) (r : Ram) (e : Errno) (s : Process) : Prop :=
  ∃ eh, ehdrOf file = some eh
    ∧ ((∃ j < eh.phnum.toNat, ∃ as ph, defined file eh j = some as ∧ phdrAt file eh j = some ph
        ∧ ph.kind = .load ∧ define as ph = .error e)
      ∨ ∃ as, defined file eh eh.phnum.toNat = some as
        ∧ (prepared r as = none ∧ e = .enomem ∨ prepared r as ≠ none ∧ Uncopied file eh e s))

/-- The first loop fails because of the contents of the file, or there is no place for a region. -/
theorem Rejects.preempted {j : ℕ} {as : AddrSpace} {e : Errno} {r : Ram}
    (h : Rejects file eh j as e) (heh : ehdrOf file = some eh) (hj : j < eh.phnum.toNat)
    (has : defined file eh j = some as) (hnonneg : 0 ≤ eh.phdrOffset j) :
  e = .enoexec ∨ Preempted file r e s
  := by
  rcases h with ⟨-, he⟩ | ⟨ph, hph, hdefine⟩
  · exact .inl (he hnonneg)
  · cases hkind : ph.kind with
    | skip =>
      rw [define, hkind] at hdefine
      cases hdefine
    | unknown =>
      rw [define, hkind] at hdefine
      exact .inl (Except.error.inj hdefine).symm
    | load => exact .inr ⟨eh, heh, .inl ⟨j, hj, as, ph, has, hph, hkind, hdefine⟩⟩

/-- `load_elf`, in a fresh address space. -/
theorem loadElf_spec (h : Conforms file read) (hfresh : s.as = Dumbvm.fresh)
    (hinvalid : Invalid s.tlb) (hram : Booted s.ram)
    (hplaced : ∀ eh, ehdrOf file = some eh → WellPlaced file eh) :
  wlp (fun _ => True) (loadElf read) s
    (fun entry s' => ∃ eh as, ehdrOf file = some eh ∧ entry = eh.entry.toNat
      ∧ defined file eh eh.phnum.toNat = some as ∧ Imaged file eh eh.phnum.toNat s')
    (fun e s' => Reliable read → e = .enoexec ∨ Preempted file s.ram e s')
  := by
  apply wlp_loadElf h hfresh
  · intro e _ he hreliable
    exact .inl (he hreliable).2
  · exact fun _ _ _ _ _ => .inl rfl
  · intro eh e _ heh he hreliable
    obtain ⟨j, hj, as, has, hrejects⟩ := he hreliable
    exact hrejects.preempted heh hj has ((hplaced eh heh).phdrOffset j hj)
  · intro eh as _ heh hdefined hnone _
    exact .inr ⟨eh, heh, .inr ⟨as, hdefined, .inl ⟨hnone, rfl⟩⟩⟩
  · intro eh as as' r' calls heh _ hdefined hprepared
    have hplaced := hplaced eh heh
    obtain ⟨hn₁, hn₂⟩ := npages_le_of_defined hplaced hdefined (Nat.le_refl _)
    have hpaged := paged_prepared (unprepared_defined hdefined) hn₁ hn₂ hram hprepared
    apply wlp_mono (loadHeaders_spec h (by exact hinvalid) (by exact hpaged.separate) hplaced)
    · intro _ s' himaged
      exact ⟨eh, as, heh, rfl, hdefined, himaged⟩
    · intro e _ he hreliable
      rcases he hreliable with he | he
      · exact .inl he
      · refine .inr ⟨eh, heh, .inr ⟨as, hdefined, .inr ⟨?_, he⟩⟩⟩
        rw [hprepared]
        exact nofun

/-- The file ends before its header, a program header or the data of a segment. -/
def TooShort (file : List UInt8) : Prop :=
  file.length < Ehdr.size
    ∨ ∃ eh, ehdrOf file = some eh ∧ ∃ i < eh.phnum.toNat,
      file.length < (eh.phdrOffset i).toNat + Phdr.size
        ∨ ∃ ph, phdrAt file eh i = some ph ∧ ph.kind = .load ∧ 0 < ph.loadsz
          ∧ file.length < ph.fileOffset.toNat + ph.loadsz

/-- `load_elf` builds the memory image that the file describes.  A file that is too short is
refused with `ENOEXEC`, unless something else fails first or the file hits the assertions of
`vm_fault`. -/
theorem loadElf_image (h : Conforms file read) (hfresh : s.as = Dumbvm.fresh)
    (hinvalid : Invalid s.tlb) (hram : Booted s.ram)
    (hplaced : ∀ eh, ehdrOf file = some eh → WellPlaced file eh) :
  (∀ entry s', loadElf read s = .ok entry s' → ¬ TooShort file
      ∧ ∃ eh, ehdrOf file = some eh ∧ entry = eh.entry.toNat
        ∧ ∀ i < eh.phnum.toNat, ∀ ph, phdrAt file eh i = some ph → ph.kind = .load →
          ∀ k < ph.memsz.toNat, userByte s' (ph.vaddr.toNat + k)
            = some (if k < min ph.filesz.toNat ph.memsz.toNat
                then file.getD (ph.fileOffset.toNat + k) 0 else 0))
    ∧ (∀ e s', loadElf read s = .err e s' → Reliable read →
      e = .enoexec ∨ Preempted file s.ram e s')
    ∧ (∀ q, loadElf read s = .panic q → Hits file s.ram)
    ∧ (TooShort file → Reliable read → ¬ Hits file s.ram →
      ∃ e s', loadElf read s = .err e s' ∧ (e = .enoexec ∨ Preempted file s.ram e s'))
  := by
  have hspec := loadElf_spec h hfresh hinvalid hram hplaced
  have hlong : ∀ entry s', loadElf read s = .ok entry s' → ¬ TooShort file := by
    intro entry s' hok
    obtain ⟨eh, as, heh, -, hdefined, himaged⟩ := wlp_ok hspec hok
    rintro (hshort | ⟨eh', heh', i, hi, hshort | ⟨ph, hph, hload, hpos, hshort⟩⟩)
    · obtain ⟨f, hf, -⟩ := Option.map_eq_some_iff.mp heh
      have hin := (of_headerAt hf).2
      rw [Int.toNat_zero, Nat.zero_add] at hin
      exact Nat.not_le_of_lt hshort hin
    · obtain rfl : eh = eh' := Option.some.inj (heh.symm.trans heh')
      obtain ⟨ph, hph, -⟩ := known_of_defined hdefined hi
      obtain ⟨f, hf, -⟩ := Option.map_eq_some_iff.mp hph
      exact Nat.not_le_of_lt hshort (of_headerAt hf).2
    · obtain rfl : eh = eh' := Option.some.inj (heh.symm.trans heh')
      have hfits := (himaged i hi ph hph hload).1
      exact Nat.not_le_of_lt hshort (of_length_requested hpos hfits.data).2
  have hpanics : ∀ q, loadElf read s = .panic q → Hits file s.ram := by
    intro q hpanic
    by_contra hnot
    have haligned : PageAligned s.ram := by
      have hfree := hram.free
      have hlast := hram.last
      exact ⟨hram.aligned, by omega⟩
    exact wp_not_panic (loadElf_returns h hfresh hinvalid haligned hnot) hpanic
  refine ⟨?_, fun e s' herr => wlp_err hspec herr, hpanics, ?_⟩
  · intro entry s' hok
    obtain ⟨eh, as, heh, hentry, -, himaged⟩ := wlp_ok hspec hok
    refine ⟨hlong entry s' hok, eh, heh, hentry, ?_⟩
    intro i hi ph hph hload
    exact (himaged i hi ph hph hload).2
  · intro hshort hreliable hnot
    cases hrun : loadElf read s with
    | ok entry s' => exact absurd hshort (hlong entry s' hrun)
    | err e s' => exact ⟨e, s', rfl, wlp_err hspec hrun hreliable⟩
    | panic q => exact absurd (hpanics q hrun) hnot

/-- The first program header of the file with code and data. -/
def codePhdr : Phdr := ⟨1, 116, 0x400000, 2, 2, 5⟩

/-- The second program header of the file with code and data. -/
def dataPhdr : Phdr := ⟨1, 118, 0x10000000, 1, 20, 6⟩

theorem phdrAt_codeAndData (heh : ehdrOf codeAndDataFile = some eh) :
  eh.phnum = 2 ∧ phdrAt codeAndDataFile eh 0 = some codePhdr
    ∧ phdrAt codeAndDataFile eh 1 = some dataPhdr ∧ eh.phdrOffset 0 = 52 ∧ eh.phdrOffset 1 = 84
  := by
  have hall : (ehdrOf codeAndDataFile).all (fun eh => decide (eh.phnum = 2
      ∧ phdrAt codeAndDataFile eh 0 = some codePhdr
      ∧ phdrAt codeAndDataFile eh 1 = some dataPhdr
      ∧ eh.phdrOffset 0 = 52 ∧ eh.phdrOffset 1 = 84)) = true := by
    decide +kernel
  rw [heh] at hall
  exact of_decide_eq_true hall

theorem wellPlaced_codeAndData (heh : ehdrOf codeAndDataFile = some eh) :
  WellPlaced codeAndDataFile eh
  := by
  obtain ⟨hphnum, h₀, h₁, hoffset₀, hoffset₁⟩ := phdrAt_codeAndData heh
  have hindex : ∀ i < eh.phnum.toNat, i = 0 ∨ i = 1 := by
    intro i hi
    rw [hphnum] at hi
    change i < 2 at hi
    omega
  have hcases : ∀ {i ph}, i < eh.phnum.toNat → phdrAt codeAndDataFile eh i = some ph →
      i = 0 ∧ ph = codePhdr ∨ i = 1 ∧ ph = dataPhdr := by
    intro i ph hi hph
    rcases hindex i hi with rfl | rfl
    · exact .inl ⟨rfl, Option.some.inj (hph.symm.trans h₀)⟩
    · exact .inr ⟨rfl, Option.some.inj (hph.symm.trans h₁)⟩
  have hcode : ∀ a, codePhdr.region.Mem a ↔ 0x400000 ≤ a ∧ a < 0x400002 := fun _ => Iff.rfl
  have hdata : ∀ a, dataPhdr.region.Mem a ↔ 0x10000000 ≤ a ∧ a < 0x10000014 := fun _ => Iff.rfl
  have htop := userTop_eq
  constructor
  · intro i hi ph hph _ a ha
    rcases hcases hi hph with ⟨-, rfl⟩ | ⟨-, rfl⟩
    all_goals
      simp only [hcode, hdata] at ha
      omega
  · intro i hi j hj hne ph ph' hph hph' _ _ a ha ha'
    rcases hcases hi hph with ⟨rfl, rfl⟩ | ⟨rfl, rfl⟩
    all_goals
      rcases hcases hj hph' with ⟨rfl, rfl⟩ | ⟨rfl, rfl⟩
      all_goals
        simp only [hcode, hdata] at ha ha'
        omega
  · intro i hi
    rcases hindex i hi with rfl | rfl
    · rw [hoffset₀]
      decide
    · rw [hoffset₁]
      decide
  · intro i hi ph hph _
    rcases hcases hi hph with ⟨-, rfl⟩ | ⟨-, rfl⟩
    · decide
    · decide

/-- The image of a program with code and data; the data is followed by zeros. -/
theorem loadElf_image_codeAndData :
  ∃ s', loadElf (straight codeAndDataFile) started = .ok 0x400000 s'
    ∧ userByte s' 0x400001 = some 2 ∧ userByte s' 0x10000000 = some 3
    ∧ userByte s' 0x10000013 = some 0
  := by
  obtain ⟨s', hok⟩ : ∃ s', loadElf (straight codeAndDataFile) started = .ok 0x400000 s' := by
    decide +kernel
  obtain ⟨-, eh, heh, -, himage⟩ := (loadElf_image (conforms_straight codeAndDataFile) rfl
    invalid_invalidTlb ⟨by decide, by decide, by decide, by decide⟩
    fun _ => wellPlaced_codeAndData).1 _ s' hok
  obtain ⟨hphnum, h₀, h₁, -, -⟩ := phdrAt_codeAndData heh
  have hcode := himage 0 (by rw [hphnum]; decide) codePhdr h₀ (by decide)
  have hdata := himage 1 (by rw [hphnum]; decide) dataPhdr h₁ (by decide)
  have hlast : (if 1 < min codePhdr.filesz.toNat codePhdr.memsz.toNat
      then codeAndDataFile.getD (codePhdr.fileOffset.toNat + 1) 0 else 0) = 2 := by
    decide +kernel
  have hfirst : (if 0 < min dataPhdr.filesz.toNat dataPhdr.memsz.toNat
      then codeAndDataFile.getD (dataPhdr.fileOffset.toNat + 0) 0 else 0) = 3 := by
    decide +kernel
  refine ⟨s', hok, ?_, ?_, ?_⟩
  · rw [← hlast]
    exact hcode 1 (by decide)
  · rw [← hfirst]
    exact hdata 0 (by decide)
  · exact hdata 19 (by decide)

end Images

end Userprog
