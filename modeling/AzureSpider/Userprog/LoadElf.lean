import AzureSpider.Lib.Codec
import AzureSpider.Userprog.UserMemory
import Mathlib.Data.List.GetD

/-!
# Loading programs

`load_elf`: the headers of an executable file are read twice, first to define the regions of the
address space and then, when the address space has its pages, to load the segments.

The file is behind `VOP_READ`, which is a parameter: what a call moves into its region, in pieces
of any size, and what it returns.  `Conforms` is what a call may do for a file with given
contents.
-/

open Machine Routine

namespace Userprog

/-! ### Files -/

/-- What a call of `VOP_READ` moves into the region, piece by piece, and the error that it returns
after that. -/
structure Answer where
  pieces : List (List UInt8)
  result : Option Errno

/-- `VOP_READ` on the program: its answer to each call, for the offset and the residue of the
region. -/
abbrev FileRead : Type := (call : ℕ) → (offset : ℤ) → (resid : ℕ) → Answer

/-- Move pieces of data into the region. -/
def uiomoves : List (List UInt8) → URun Unit
  | [] => pure ()
  | data :: rest => do
      uiomove data
      uiomoves rest

/-- `VOP_READ`. -/
def vopRead (read : FileRead) : URun Unit := do
  let (s, u) ← get
  onFst (modify fun s => { s with calls := s.calls + 1 })
  let answer := read s.calls u.offset u.resid
  uiomoves answer.pieces
  match answer.result with
  | none => pure ()
  | some e => fail e

/-- The bytes of a file that a request is for. -/
def requested (file : List UInt8) (offset : ℤ) (resid : ℕ) : List UInt8 :=
  if 0 ≤ offset then (file.drop offset.toNat).take resid else []

/-- The calls read the file: what they move are the bytes of the file, and all of them if no error
is returned.  There is no data before the start of a file. -/
structure Conforms (file : List UInt8) (read : FileRead) : Prop where
  pieces : ∀ n offset resid,
    (read n offset resid).pieces.flatten <+: requested file offset resid
  complete : ∀ n offset resid, (read n offset resid).result = none →
    (read n offset resid).pieces.flatten = requested file offset resid

/-- A routine on a region of its own. -/
def withRegion {α : Type} (u : Uio) (m : URun α) : Run α := do
  let (result, _) ← withState u m
  match result with
  | .ok a => pure a
  | .error e => fail e

/-! ### Headers -/

/-- The parts of an `Elf_Ehdr` that `load_elf` looks at. -/
structure Ehdr where
  ident : Buf 16 UInt8
  type : UInt16
  machine : UInt16
  version : UInt32
  entry : UInt32
  phoff : UInt32
  phentsize : UInt16
  phnum : UInt16

namespace Ehdr

/-- `sizeof(Elf_Ehdr)`. -/
def size : ℕ := 52

/-- The header that bytes make. -/
def decode (f : ℕ → UInt8) : Ehdr where
  ident := Buf.ofFn f
  type := Codec.word16 fun k => f (16 + k)
  machine := Codec.word16 fun k => f (18 + k)
  version := Codec.word32 fun k => f (20 + k)
  entry := Codec.word32 fun k => f (24 + k)
  phoff := Codec.word32 fun k => f (28 + k)
  phentsize := Codec.word16 fun k => f (42 + k)
  phnum := Codec.word16 fun k => f (44 + k)

/-- A 32-bit executable of version 1 for the MIPS, in big-endian order. -/
def Accepted (eh : Ehdr) : Prop :=
  eh.ident.get 0 = 0x7f ∧ eh.ident.get 1 = 69 ∧ eh.ident.get 2 = 76 ∧ eh.ident.get 3 = 70
    ∧ eh.ident.get 4 = 1 ∧ eh.ident.get 5 = 2 ∧ eh.ident.get 6 = 1
    ∧ eh.version = 1 ∧ eh.type = 2 ∧ eh.machine = 8

instance (eh : Ehdr) : Decidable eh.Accepted :=
  inferInstanceAs (Decidable (_ ∧ _))

/-- The offset of a program header. -/
def phdrOffset (eh : Ehdr) (i : ℕ) : ℤ := i32 (eh.phoff.toNat + i * eh.phentsize.toNat)

end Ehdr

/-- What `load_elf` does with a segment. -/
inductive SegmentKind where
  /-- `PT_NULL`, `PT_PHDR` and `PT_MIPS_REGINFO`. -/
  | skip
  /-- `PT_LOAD`. -/
  | load
  | unknown
  deriving DecidableEq, Repr

/-- The parts of an `Elf_Phdr` that `load_elf` looks at. -/
structure Phdr where
  type : UInt32
  offset : UInt32
  vaddr : UInt32
  filesz : UInt32
  memsz : UInt32
  flags : UInt32
  deriving DecidableEq, Repr

namespace Phdr

/-- `sizeof(Elf_Phdr)`. -/
def size : ℕ := 32

/-- The header that bytes make. -/
def decode (f : ℕ → UInt8) : Phdr where
  type := Codec.word32 fun k => f k
  offset := Codec.word32 fun k => f (4 + k)
  vaddr := Codec.word32 fun k => f (8 + k)
  filesz := Codec.word32 fun k => f (16 + k)
  memsz := Codec.word32 fun k => f (20 + k)
  flags := Codec.word32 fun k => f (24 + k)

/-- The `switch` over `p_type`. -/
def kind (ph : Phdr) : SegmentKind :=
  if ph.type = 0 ∨ ph.type = 6 ∨ ph.type = 0x70000000 then .skip
  else if ph.type = 1 then .load
  else .unknown

/-- `p_flags & PF_X`. -/
def executable (ph : Phdr) : Bool := ph.flags &&& 1 ≠ 0

/-- `p_offset` as an `off_t`. -/
def fileOffset (ph : Phdr) : ℤ := i32 ph.offset.toNat

/-- The number of bytes of the segment that are in the file. -/
def loadsz (ph : Phdr) : ℕ := min ph.filesz.toNat ph.memsz.toNat

end Phdr

/-! ### Loading -/

/-- Read a header of `len` bytes into kernel memory. -/
def readHeader (read : FileRead) (len : ℕ) (offset : ℤ) : Run (ℕ → UInt8) :=
  withRegion (Uio.mkKuio (Buf.ofFn fun _ => 0 : Buf len UInt8) len offset .read) do
    vopRead read
    let (_, u) ← get
    if u.resid ≠ 0 then fail .enoexec else pure u.mem

/-- The region of `load_segment`. -/
def segmentRegion (offset : ℤ) (vaddr memsize filesize : ℕ) (executable : Bool) : Uio where
  mem := fun _ => 0
  base := vaddr
  iovLen := memsize
  offset := offset
  resid := filesize
  segflg := if executable then .userispace else .userspace
  rw := .read
  space := true
  faults := []

/-- The end of `load_segment`: fill the rest of the memory with zeros. -/
def zeroFill (fillamt : ℕ) : URun Unit :=
  if 0 < fillamt then do
    onSnd (modify fun u => { u with resid := u32 (u.resid + fillamt) })
    uiomovezeros fillamt
  else
    pure ()

/-- `load_segment`. -/
def loadSegment (read : FileRead) (offset : ℤ) (vaddr memsize filesize : ℕ) (executable : Bool) :
    Run Unit :=
  let filesize := if filesize > memsize then memsize else filesize
  withRegion (segmentRegion offset vaddr memsize filesize executable) do
    vopRead read
    let (_, u) ← get
    if u.resid ≠ 0 then fail .enoexec else zeroFill (memsize - filesize)

/-- A round of the first loop of `load_elf`. -/
def defineSegment (read : FileRead) (eh : Ehdr) (i : ℕ) : Run Unit := do
  let f ← readHeader read Phdr.size (eh.phdrOffset i)
  let ph := Phdr.decode f
  match ph.kind with
  | .skip => pure ()
  | .unknown => fail .enoexec
  | .load => do
      let s ← get
      match Dumbvm.asDefineRegion s.as ph.vaddr.toNat ph.memsz.toNat with
      | .error e => fail e
      | .ok as => modify fun s => { s with as := as }

/-- `getppages`, for the process. -/
def getppages (npages : ℕ) : Run ℕ := do
  let s ← get
  modify fun s => { s with ram := (s.ram.getppages npages).2 }
  pure (s.ram.getppages npages).1

/-- A part of `as_prepare_load`: pages for a region, or for the stack. -/
def preparePart (npages : ℕ) (put : ℕ → AddrSpace → AddrSpace) : Run Unit := do
  let pbase ← getppages npages
  modify fun s => { s with as := put pbase s.as }
  if pbase = 0 then fail .enomem else pure ()

/-- `as_prepare_load`. -/
def prepareLoad : Run Unit := do
  let s ← get
  assert (s.as.pbase1 = 0) (.vm .preparePbase1)
  assert (s.as.pbase2 = 0) (.vm .preparePbase2)
  assert (s.as.stackpbase = 0) (.vm .prepareStackpbase)
  preparePart s.as.npages1 fun p as => { as with pbase1 := p }
  preparePart s.as.npages2 fun p as => { as with pbase2 := p }
  preparePart stackPages fun p as => { as with stackpbase := p }

/-- A round of the second loop of `load_elf`. -/
def loadHeader (read : FileRead) (eh : Ehdr) (i : ℕ) : Run Unit := do
  let f ← readHeader read Phdr.size (eh.phdrOffset i)
  let ph := Phdr.decode f
  match ph.kind with
  | .skip => pure ()
  | .unknown => fail .enoexec
  | .load =>
    loadSegment read ph.fileOffset ph.vaddr.toNat ph.memsz.toNat ph.filesz.toNat
      ph.executable

/-- `load_elf`: the entry point. -/
def loadElf (read : FileRead) : Run ℕ := do
  let f ← readHeader read Ehdr.size 0
  let eh := Ehdr.decode f
  if ¬ eh.Accepted then fail .enoexec
  else do
    loop eh.phnum.toNat 0 (fun i _ => defineSegment read eh i) ()
    prepareLoad
    loop eh.phnum.toNat 0 (fun i _ => loadHeader read eh i) ()
    pure eh.entry.toNat

/-! ### Reading the file -/

section Reading

variable {s : Process} {u : Uio} {file : List UInt8} {read : FileRead}

theorem wp_withRegion {α : Type} {m : URun α} {Q : α → Process → Prop}
    {E : Errno → Process → Prop} :
  wp (withRegion u m) s Q E
    ↔ wp m (s, u) (fun a su => Q a su.1) (fun e su => E e su.1)
  := by
  simp only [withRegion, wp_bind, wp_withState, wp_pure, wp_fail]

variable {pieces : List (List UInt8)}

/-- Pieces without data leave everything as it is. -/
theorem uiomoves_nil (hspace : u.space = true) (h : pieces.flatten = []) :
  uiomoves pieces (s, u) = .ok () (s, u)
  := by
  induction pieces with
  | nil => rfl
  | cons data rest ih =>
    rw [List.flatten_cons, List.append_eq_nil_iff] at h
    obtain ⟨rfl, hrest⟩ := h
    rw [uiomoves, bind_ok (uiomove_nil hspace)]
    exact ih hrest

theorem uiomoves_kernel (hu : u.Backed) (hseg : u.segflg = .sysspace)
    (hlen : pieces.flatten.length ≤ u.resid) :
  wp (uiomoves pieces) (s, u)
    (fun _ su => su.1 = s
      ∧ Uio.Given u su.2 pieces.flatten.length fun k => pieces.flatten.getD k 0)
  := by
  induction pieces generalizing u with
  | nil =>
    rw [uiomoves, wp_pure]
    exact ⟨rfl, hu.taken_zero.given _⟩
  | cons data rest ih =>
    rw [List.flatten_cons, List.length_append] at hlen
    simp only [uiomoves, wp_bind, List.flatten_cons, List.length_append]
    apply wp_imp (uiomove_kernel hu hseg (by omega))
    rintro - ⟨s₁, u₁⟩ ⟨hs, hgiven⟩
    simp only at hs hgiven
    subst hs
    have hresid := hgiven.resid
    apply wp_imp (ih (hgiven.backed hu) (hgiven.segflg.trans hseg) (by omega))
    rintro - ⟨s₂, u₂⟩ ⟨hs, hgiven'⟩
    refine ⟨hs, Uio.Given.trans (hgiven.congr ?_) (hgiven'.congr ?_)⟩
    · intro j hj
      rw [List.getD_append _ _ _ _ hj]
    · intro j _
      rw [List.getD_append_right _ _ _ _ (Nat.le_add_right _ _), Nat.add_sub_cancel_left]

theorem uiomoves_user (hset : s.as.SetUp) (hagrees : Agrees s.as s.tlb) (hu : u.Backed)
    (hseg : u.segflg ≠ .sysspace) (hlen : pieces.flatten.length ≤ u.resid) :
  wp (uiomoves pieces) (s, u)
    (fun _ su => Stored u.base pieces.flatten s su.1 ∧ Uio.After u su.2 pieces.flatten.length
      ∧ (pieces.flatten = [] ∨ u.base + pieces.flatten.length ≤ userTop))
    (fun e su => e = .efault ∧ Faulted u.base pieces.flatten.length su.1)
  := by
  induction pieces generalizing s u with
  | nil =>
    rw [uiomoves, wp_pure]
    exact ⟨Stored.nil hagrees u.base, hu.after_zero, .inl rfl⟩
  | cons data rest ih =>
    rw [List.flatten_cons, List.length_append] at hlen
    simp only [uiomoves, wp_bind, List.flatten_cons, List.length_append]
    apply wp_mono (uiomove_user hset hagrees hu hseg (by omega))
    · rintro - ⟨s₁, u₁⟩ ⟨hstored, hafter, hend⟩
      simp only at hstored hafter hend
      have hresid := hafter.resid
      have hbase := hafter.base
      apply wp_mono (ih (by rw [hstored.as]; exact hset) hstored.agrees
        (hafter.backed hu) (by rw [hafter.segflg]; exact hseg) (by omega))
      · rintro - ⟨s₂, u₂⟩ ⟨hstored', hafter', hend'⟩
        simp only [hbase] at hstored' hafter' hend' ⊢
        refine ⟨hstored.append hstored', hafter.trans hafter', ?_⟩
        rcases hend' with hnil | hend'
        · rw [hnil, List.append_nil, List.length_nil, Nat.add_zero]
          exact hend
        · right
          omega
      · rintro e su ⟨he, hfault⟩
        rw [hbase] at hfault
        exact ⟨he, hfault.of_part (Nat.le_refl _)⟩
    · rintro e su ⟨he, hfault⟩
      exact ⟨he, Faulted.of_part (d := 0) hfault (by omega)⟩

theorem length_requested (file : List UInt8) (offset : ℤ) (resid : ℕ) :
  (requested file offset resid).length ≤ resid
  := by
  rw [requested]
  split
  · rw [List.length_take]
    omega
  · exact Nat.zero_le _

variable {offset : ℤ}

theorem length_requested_eq {resid : ℕ} (hnonneg : 0 ≤ offset)
    (hle : offset.toNat + resid ≤ file.length) :
  (requested file offset resid).length = resid
  := by
  rw [requested, if_pos hnonneg, List.length_take, List.length_drop]
  omega

/-- A request that is met in full is for bytes of the file. -/
theorem of_length_requested {resid : ℕ} (hpos : 0 < resid)
    (h : (requested file offset resid).length = resid) :
  0 ≤ offset ∧ offset.toNat + resid ≤ file.length
  := by
  rw [requested] at h
  split_ifs at h with hnonneg
  · rw [List.length_take, List.length_drop] at h
    exact ⟨hnonneg, by omega⟩
  · rw [List.length_nil] at h
    omega

theorem getD_requested {resid k : ℕ} (hnonneg : 0 ≤ offset) (hk : k < resid) :
  (requested file offset resid).getD k 0 = file.getD (offset.toNat + k) 0
  := by
  rw [requested, if_pos hnonneg, List.getD_eq_getElem?_getD, List.getElem?_take, if_pos hk,
    List.getElem?_drop, List.getD_eq_getElem?_getD]

/-- What a call moves fits into the region. -/
theorem Conforms.length_le (h : Conforms file read) (n : ℕ) (offset : ℤ) (resid : ℕ) :
  (read n offset resid).pieces.flatten.length ≤ resid
  := Nat.le_trans (h.pieces n offset resid).length_le (length_requested file offset resid)

/-- The process after a call of `VOP_READ` that has not touched its memory. -/
def Process.called (s : Process) : Process := { s with calls := s.calls + 1 }

/-- `VOP_READ`, by what its pieces do. -/
theorem wp_vopRead (h : wp (uiomoves (read s.calls u.offset u.resid).pieces) (s.called, u)
      (fun _ su => ((read s.calls u.offset u.resid).result = none → Q () su)
        ∧ ∀ e, (read s.calls u.offset u.resid).result = some e → E e su) E) :
  wp (vopRead read) (s, u) Q E
  := by
  simp only [vopRead, wp_bind, wp_get, wp_onFst, wp_modify]
  apply wp_imp h
  rintro - su ⟨hnone, hsome⟩
  cases hresult : (read s.calls u.offset u.resid).result with
  | none =>
    rw [wp_pure]
    exact hnone hresult
  | some e =>
    rw [wp_fail]
    exact hsome e hresult

/-- The calls return no error, except before the start of the file. -/
def Reliable (read : FileRead) : Prop :=
  ∀ n offset resid, 0 ≤ offset → (read n offset resid).result = none

/-- A header of `len` bytes in a file. -/
def headerAt (file : List UInt8) (len : ℕ) (offset : ℤ) : Option (ℕ → UInt8) :=
  if 0 ≤ offset ∧ offset.toNat + len ≤ file.length then
    some fun k => file.getD (offset.toNat + k) 0
  else
    none

theorem of_headerAt {len : ℕ} {f : ℕ → UInt8} (h : headerAt file len offset = some f) :
  0 ≤ offset ∧ offset.toNat + len ≤ file.length
  := by
  rw [headerAt] at h
  split at h
  · next hin => exact hin
  · cases h

/-- A header that was read is that of the file; if none was read from a file that can be read,
there is none. -/
theorem readHeader_spec {len : ℕ} (h : Conforms file read) (hpos : 0 < len)
    (hlen : len < 2 ^ 32) (hge : -2 ^ 31 ≤ offset) (hlt : offset < 2 ^ 31) :
  wp (readHeader read len offset) s
    (fun f s' => s' = s.called ∧ ∃ g, headerAt file len offset = some g ∧ ∀ k < len, f k = g k)
    (fun e s' => s' = s.called ∧ (Reliable read → headerAt file len offset = none
      ∧ (0 ≤ offset → e = .enoexec)))
  := by
  rw [readHeader, wp_withRegion, wp_bind]
  apply wp_vopRead
  have hu : (Uio.mkKuio (Buf.ofFn fun _ => 0 : Buf len UInt8) len offset .read).Backed :=
    ⟨rfl, Nat.le_refl _, hlen, hge, hlt⟩
  apply wp_sure (uiomoves_kernel hu rfl (h.length_le _ _ _))
  rintro - ⟨s', u⟩ ⟨hs, hgiven⟩
  simp only at hs hgiven
  subst hs
  have hresid := hgiven.resid
  have hmem := hgiven.mem
  have hbase : (Uio.mkKuio (Buf.ofFn fun _ => 0 : Buf len UInt8) len offset .read).base = 0 := rfl
  have hoffset : (Uio.mkKuio (Buf.ofFn fun _ => 0 : Buf len UInt8) len offset .read).offset
    = offset := rfl
  have hall : (Uio.mkKuio (Buf.ofFn fun _ => 0 : Buf len UInt8) len offset .read).resid = len := rfl
  rw [hoffset, hall] at hresid hmem ⊢
  constructor
  · intro hnone
    rw [h.complete _ _ _ hnone] at hresid hmem
    simp only [wp_bind, wp_get, wp_ite, wp_fail, wp_pure]
    constructor
    · intro hne
      refine ⟨trivial, fun _ => ⟨?_, fun _ => trivial⟩⟩
      apply if_neg
      rintro ⟨hnonneg, hle⟩
      rw [length_requested_eq hnonneg hle] at hresid
      omega
    · intro hzero
      rw [not_not] at hzero
      have hfull : (requested file offset len).length = len := by omega
      obtain ⟨hnonneg, hle⟩ := of_length_requested hpos hfull
      refine ⟨trivial, _, if_pos ⟨hnonneg, hle⟩, ?_⟩
      intro k hk
      rw [hmem k, hbase, if_pos (by omega), Nat.sub_zero, getD_requested hnonneg hk]
  · intro e hsome
    refine ⟨rfl, fun hreliable => ?_⟩
    have hneg : ¬ 0 ≤ offset := by
      intro hnonneg
      rw [hreliable _ _ _ hnonneg] at hsome
      cases hsome
    exact ⟨if_neg fun hin => hneg hin.1, fun hnonneg => absurd hnonneg hneg⟩

end Reading

/-! ### Defining the regions -/

section Defining

variable {s : Process} {file : List UInt8} {read : FileRead} {eh : Ehdr}

/-- The header of a file. -/
def ehdrOf (file : List UInt8) : Option Ehdr := (headerAt file Ehdr.size 0).map Ehdr.decode

/-- A program header of a file. -/
def phdrAt (file : List UInt8) (eh : Ehdr) (i : ℕ) : Option Phdr :=
  (headerAt file Phdr.size (eh.phdrOffset i)).map Phdr.decode

theorem Ehdr.decode_congr {f g : ℕ → UInt8} (h : ∀ k < Ehdr.size, f k = g k) :
  Ehdr.decode f = Ehdr.decode g
  := by
  have hident : (Buf.ofFn f : Buf 16 UInt8) = Buf.ofFn g := by
    funext i
    exact h i (Nat.lt_trans i.isLt (by decide))
  simp (disch := decide) only [decode, hident, Codec.word16, Codec.word32, h]

theorem Phdr.decode_congr {f g : ℕ → UInt8} (h : ∀ k < Phdr.size, f k = g k) :
  Phdr.decode f = Phdr.decode g
  := by
  simp (disch := decide) only [decode, Codec.word32, h]

/-- What a program header does to the regions. -/
def define (as : AddrSpace) (ph : Phdr) : Except Errno AddrSpace :=
  match ph.kind with
  | .skip => .ok as
  | .unknown => .error .enoexec
  | .load => Dumbvm.asDefineRegion as ph.vaddr.toNat ph.memsz.toNat

/-- Why a program header ends the first loop of `load_elf`. -/
def Rejects (file : List UInt8) (eh : Ehdr) (i : ℕ) (as : AddrSpace) (e : Errno) : Prop :=
  phdrAt file eh i = none ∧ (0 ≤ eh.phdrOffset i → e = .enoexec)
    ∨ ∃ ph, phdrAt file eh i = some ph ∧ define as ph = .error e

/-- A program header is read the same way in both loops of `load_elf`. -/
theorem readPhdr_spec (h : Conforms file read) (eh : Ehdr) (i : ℕ) :
  wp (readHeader read Phdr.size (eh.phdrOffset i)) s
    (fun f s' => s' = s.called ∧ phdrAt file eh i = some (Phdr.decode f))
    (fun e s' => s' = s.called ∧ (Reliable read → phdrAt file eh i = none
      ∧ (0 ≤ eh.phdrOffset i → e = .enoexec)))
  := by
  have hge : -2 ^ 31 ≤ eh.phdrOffset i := le_i32 _
  have hlt : eh.phdrOffset i < 2 ^ 31 := i32_lt _
  apply wp_mono (readHeader_spec h (by decide) (by decide) hge hlt)
  · rintro f s' ⟨rfl, g, hg, hfg⟩
    refine ⟨rfl, ?_⟩
    rw [phdrAt, hg, Phdr.decode_congr hfg]
    rfl
  · rintro e s' ⟨rfl, hnone⟩
    refine ⟨rfl, fun hreliable => ?_⟩
    obtain ⟨hat, he⟩ := hnone hreliable
    refine ⟨?_, he⟩
    rw [phdrAt, hat]
    rfl

theorem defineSegment_spec (h : Conforms file read) (eh : Ehdr) (i : ℕ) :
  wp (defineSegment read eh i) s
    (fun _ s' => ∃ ph as, phdrAt file eh i = some ph ∧ define s.as ph = .ok as
      ∧ s' = { s.called with as := as })
    (fun e _ => Reliable read → Rejects file eh i s.as e)
  := by
  rw [defineSegment, wp_bind]
  apply wp_mono (readPhdr_spec h eh i)
  · rintro f s' ⟨rfl, hph⟩
    simp only
    cases hkind : (Phdr.decode f).kind with
    | skip =>
      rw [wp_pure]
      refine ⟨_, s.as, hph, ?_, rfl⟩
      rw [define, hkind]
    | unknown =>
      rw [wp_fail]
      refine fun _ => .inr ⟨_, hph, ?_⟩
      rw [define, hkind]
    | load =>
      simp only [wp_bind, wp_get]
      have hdefine : define s.as (Phdr.decode f)
          = Dumbvm.asDefineRegion s.as (Phdr.decode f).vaddr.toNat
            (Phdr.decode f).memsz.toNat := by
        rw [define, hkind]
      have has : s.called.as = s.as := rfl
      rw [has]
      cases hregion : Dumbvm.asDefineRegion s.as (Phdr.decode f).vaddr.toNat
          (Phdr.decode f).memsz.toNat with
      | error e =>
        rw [wp_fail]
        exact fun _ => .inr ⟨_, hph, hdefine.trans hregion⟩
      | ok as =>
        rw [wp_modify]
        exact ⟨_, as, hph, hdefine.trans hregion, rfl⟩
  · rintro e s' ⟨-, hnone⟩ hreliable
    exact .inl (hnone hreliable)

/-- The address space after the first `j` program headers. -/
def defined (file : List UInt8) (eh : Ehdr) : ℕ → Option AddrSpace
  | 0 => some Dumbvm.fresh
  | j + 1 => do
      let as ← defined file eh j
      let ph ← phdrAt file eh j
      (define as ph).toOption

/-- The first loop of `load_elf`. -/
theorem defineSegments_spec (h : Conforms file read) (hfresh : s.as = Dumbvm.fresh) (eh : Ehdr)
    (n : ℕ) :
  wp (loop n 0 (fun i _ => defineSegment read eh i) ()) s
    (fun _ s' => ∃ as calls, defined file eh n = some as
      ∧ s' = { s with as := as, calls := calls })
    (fun e _ => Reliable read →
      ∃ j < n, ∃ as, defined file eh j = some as ∧ Rejects file eh j as e)
  := by
  apply wp_loop_run (fun j (_ : Unit) (s' : Process) =>
    ∃ as calls, defined file eh j = some as ∧ s' = { s with as := as, calls := calls })
  · exact ⟨Dumbvm.fresh, s.calls, rfl, by rw [← hfresh]⟩
  · rintro j - s' hj ⟨as, calls, hdefined, rfl⟩
    apply wp_mono (defineSegment_spec h eh j)
    · rintro - s'' ⟨ph, as', hph, hdefine, rfl⟩
      refine ⟨as', calls + 1, ?_, rfl⟩
      simp only [defined, hdefined, hph, Option.bind_eq_bind, Option.bind_some]
      rw [hdefine]
      rfl
    · intro e s'' hrejects hreliable
      exact ⟨j, hj, as, hdefined, hrejects hreliable⟩

/-- An address space with regions that have no pages yet. -/
structure Unprepared (as : AddrSpace) : Prop where
  pbase1 : as.pbase1 = 0
  pbase2 : as.pbase2 = 0
  stackpbase : as.stackpbase = 0
  vbase1_frame : as.vbase1 &&& pageFrame = as.vbase1
  vbase2_frame : as.vbase2 &&& pageFrame = as.vbase2

theorem Unprepared.define {as as' : AddrSpace} {ph : Phdr} (h : Unprepared as)
    (hdefine : define as ph = .ok as') :
  Unprepared as'
  := by
  have hframe := AddrSpace.pageFrame_idem ph.vaddr.toNat
  rw [Userprog.define] at hdefine
  split at hdefine
  · obtain rfl := Except.ok.inj hdefine
    exact h
  · cases hdefine
  · simp only [Dumbvm.asDefineRegion] at hdefine
    split at hdefine
    · obtain rfl := Except.ok.inj hdefine
      exact { h with vbase1_frame := hframe }
    · split at hdefine
      · obtain rfl := Except.ok.inj hdefine
        exact { h with vbase2_frame := hframe }
      · cases hdefine

variable {as : AddrSpace}

theorem defined_succ {j : ℕ} (h : defined file eh (j + 1) = some as) :
  ∃ as₀ ph, defined file eh j = some as₀ ∧ phdrAt file eh j = some ph ∧ define as₀ ph = .ok as
  := by
  simp only [defined, Option.bind_eq_bind, Option.bind_eq_some_iff] at h
  obtain ⟨as₀, has₀, ph, hph, hdefine⟩ := h
  refine ⟨as₀, ph, has₀, hph, ?_⟩
  cases hcase : define as₀ ph with
  | error e =>
    rw [hcase] at hdefine
    cases hdefine
  | ok as' =>
    rw [hcase] at hdefine
    rw [Option.some.inj hdefine]

theorem unprepared_defined {j : ℕ} (h : defined file eh j = some as) :
  Unprepared as
  := by
  induction j generalizing as with
  | zero =>
    obtain rfl := Option.some.inj h
    exact ⟨rfl, rfl, rfl, rfl, rfl⟩
  | succ j ih =>
    obtain ⟨as₀, ph, has₀, -, hdefine⟩ := defined_succ h
    exact (ih has₀).define hdefine

/-- A program header that was not rejected is there. -/
theorem defined_mono {j n : ℕ} (h : defined file eh n = some as) (hj : j ≤ n) :
  ∃ as₀, defined file eh j = some as₀
  := by
  induction n generalizing as with
  | zero =>
    obtain rfl : j = 0 := Nat.le_zero.mp hj
    exact ⟨as, h⟩
  | succ n ih =>
    obtain ⟨as₀, ph, has₀, -, -⟩ := defined_succ h
    rcases Nat.lt_or_eq_of_le hj with hlt | rfl
    · exact ih has₀ (Nat.lt_succ_iff.mp hlt)
    · exact ⟨as, h⟩

theorem Rejects.not_defined {i n : ℕ} {e : Errno}
    (h : Rejects file eh i as e) (has : defined file eh i = some as) (hi : i < n) :
  defined file eh n = none
  := by
  cases hn : defined file eh n with
  | none => rfl
  | some as' =>
    obtain ⟨as₁, hsucc⟩ := defined_mono hn (Nat.succ_le_of_lt hi)
    obtain ⟨as₀, ph, has₀, hph, hdefine⟩ := defined_succ hsucc
    obtain rfl : as = as₀ := Option.some.inj (has.symm.trans has₀)
    rcases h with ⟨hnone, -⟩ | ⟨ph', hph', herror⟩
    · rw [hnone] at hph
      cases hph
    · obtain rfl : ph' = ph := Option.some.inj (hph'.symm.trans hph)
      rw [hdefine] at herror
      cases herror

end Defining

/-! ### Getting the pages -/

section Preparing

variable {s : Process} {as as' : AddrSpace} {r r' : Ram}

/-- The address space with the pages that three calls of `getppages` have answered, and what is
left, if no answer is 0. -/
def granted (as : AddrSpace) (g₁ g₂ g₃ : ℕ × Ram) : Option (AddrSpace × Ram) :=
  if g₁.1 = 0 ∨ g₂.1 = 0 ∨ g₃.1 = 0 then none
  else some ({ as with pbase1 := g₁.1, pbase2 := g₂.1, stackpbase := g₃.1 }, g₃.2)

variable {g₁ g₂ g₃ : ℕ × Ram}

theorem granted_of_zero (h : g₁.1 = 0 ∨ g₂.1 = 0 ∨ g₃.1 = 0) :
  granted as g₁ g₂ g₃ = none
  := if_pos h

theorem granted_of_ne_zero (h₁ : g₁.1 ≠ 0) (h₂ : g₂.1 ≠ 0) (h₃ : g₃.1 ≠ 0) :
  granted as g₁ g₂ g₃
    = some ({ as with pbase1 := g₁.1, pbase2 := g₂.1, stackpbase := g₃.1 }, g₃.2)
  := by
  apply if_neg
  rintro (hzero | hzero | hzero)
  · exact h₁ hzero
  · exact h₂ hzero
  · exact h₃ hzero

/-- The address space with its pages, and what is left, if there are enough. -/
def prepared (r : Ram) (as : AddrSpace) : Option (AddrSpace × Ram) :=
  let g₁ := r.getppages as.npages1
  let g₂ := g₁.2.getppages as.npages2
  let g₃ := g₂.2.getppages stackPages
  granted as g₁ g₂ g₃

theorem wp_preparePart {npages : ℕ} {put : ℕ → AddrSpace → AddrSpace}
    (hzero : (s.ram.getppages npages).1 = 0 → ∀ s', E .enomem s')
    (hQ : (s.ram.getppages npages).1 ≠ 0 →
      Q () { s with
        ram := (s.ram.getppages npages).2, as := put (s.ram.getppages npages).1 s.as }) :
  wp (preparePart npages put) s Q E
  := by
  simp only [preparePart, getppages, wp_bind, wp_get, wp_modify, wp_pure, wp_ite, wp_fail]
  exact ⟨fun h => hzero h _, hQ⟩

theorem prepareLoad_spec (h : Unprepared s.as) :
  wp prepareLoad s
    (fun _ s' => ∃ as r, prepared s.ram s.as = some (as, r) ∧ s' = { s with as := as, ram := r })
    (fun e _ => e = .enomem ∧ prepared s.ram s.as = none)
  := by
  simp only [prepareLoad, wp_bind, wp_get, wp_assert]
  refine ⟨h.pbase1, h.pbase2, h.stackpbase, ?_⟩
  apply wp_preparePart
  · intro hzero _
    exact ⟨rfl, granted_of_zero (.inl hzero)⟩
  intro hne₁
  apply wp_preparePart
  · intro hzero _
    exact ⟨rfl, granted_of_zero (.inr (.inl hzero))⟩
  intro hne₂
  apply wp_preparePart
  · intro hzero _
    exact ⟨rfl, granted_of_zero (.inr (.inr hzero))⟩
  intro hne₃
  exact ⟨_, _, granted_of_ne_zero hne₁ hne₂ hne₃, rfl⟩

/-- Pages are handed out from a page boundary on. -/
def PageAligned (r : Ram) : Prop := r.firstpaddr % pageSize = 0 ∧ r.firstpaddr < 2 ^ 32

theorem PageAligned.getppages (h : PageAligned r) (npages : ℕ) :
  (r.getppages npages).1 &&& pageFrame = (r.getppages npages).1
    ∧ PageAligned (r.getppages npages).2
  := by
  obtain ⟨hmod, hlt⟩ := h
  simp only [Ram.getppages, Ram.stealmem]
  split
  · exact ⟨Nat.zero_and _, hmod, hlt⟩
  · refine ⟨(and_pageFrame_eq_self hlt).mpr hmod, ?_, u32_lt _⟩
    simp only [pageSize, u32] at hmod ⊢
    omega

/-- Both places for regions are taken, by regions that are not empty. -/
def Filled (as : AddrSpace) : Prop :=
  as.vbase1 ≠ 0 ∧ as.npages1 ≠ 0 ∧ as.vbase2 ≠ 0 ∧ as.npages2 ≠ 0

instance (as : AddrSpace) : Decidable (Filled as) :=
  inferInstanceAs (Decidable (_ ∧ _))

theorem setUp_granted (h : Unprepared as) (hframe₁ : g₁.1 &&& pageFrame = g₁.1)
    (hframe₂ : g₂.1 &&& pageFrame = g₂.1) (hframe₃ : g₃.1 &&& pageFrame = g₃.1)
    (hg : granted as g₁ g₂ g₃ = some (as', r')) :
  as'.SetUp ↔ Filled as
  := by
  rw [granted] at hg
  split at hg
  · cases hg
  next hne =>
    obtain ⟨rfl, -⟩ := Prod.mk.inj (Option.some.inj hg)
    rw [not_or, not_or] at hne
    obtain ⟨hne₁, hne₂, hne₃⟩ := hne
    constructor
    · intro hset
      exact ⟨hset.vbase1, hset.npages1, hset.vbase2, hset.npages2⟩
    · rintro ⟨hv₁, hn₁, hv₂, hn₂⟩
      exact ⟨⟨hne₁, hne₂, hne₃⟩, hv₁, hn₁, hv₂, hn₂, h.vbase1_frame, hframe₁, h.vbase2_frame,
        hframe₂, hframe₃⟩

/-- `as_prepare_load` sets up an address space exactly when both regions are there. -/
theorem setUp_prepared (h : Unprepared as) (hr : PageAligned r)
    (hp : prepared r as = some (as', r')) :
  as'.SetUp ↔ Filled as
  := by
  obtain ⟨hframe₁, hr₁⟩ := hr.getppages as.npages1
  obtain ⟨hframe₂, hr₂⟩ := hr₁.getppages as.npages2
  obtain ⟨hframe₃, -⟩ := hr₂.getppages stackPages
  exact setUp_granted h hframe₁ hframe₂ hframe₃ hp

end Preparing

/-! ### Loading a segment -/

section Loading

variable {s : Process} {u : Uio} {file : List UInt8} {read : FileRead} {offset : ℤ}
  {vaddr memsize filesize : ℕ} {executable : Bool}

/-- The contents of a segment: the part that is in the file, and zeros. -/
def segment (file : List UInt8) (offset : ℤ) (memsize filesize : ℕ) : List UInt8 :=
  requested file offset (min filesize memsize)
    ++ List.replicate (memsize - min filesize memsize) 0

/-- `load_segment` clips the part of the segment that is in the file. -/
theorem loadSegment_eq :
  loadSegment read offset vaddr memsize filesize executable
    = withRegion (segmentRegion offset vaddr memsize (min filesize memsize) executable) (do
        vopRead read
        let (_, u) ← get
        if u.resid ≠ 0 then fail .enoexec
        else zeroFill (memsize - min filesize memsize))
  := by
  have hclip : (if filesize > memsize then memsize else filesize) = min filesize memsize := by
    split
    · omega
    · omega
  rw [loadSegment, hclip]

theorem segmentRegion_backed {resid : ℕ} (hge : -2 ^ 31 ≤ offset) (hlt : offset < 2 ^ 31)
    (hle : resid ≤ memsize) (hmem : memsize < 2 ^ 32) :
  (segmentRegion offset vaddr memsize resid executable).Backed
  := ⟨rfl, hle, Nat.lt_of_le_of_lt hle hmem, hge, hlt⟩

theorem segmentRegion_segflg (offset : ℤ) (vaddr memsize resid : ℕ) (executable : Bool) :
  (segmentRegion offset vaddr memsize resid executable).segflg ≠ .sysspace
  := by
  cases executable with
  | false | true => exact nofun

/-- The rest of a segment is filled with zeros. -/
theorem zeroFill_spec {n : ℕ} (hset : s.as.SetUp) (hagrees : Agrees s.as s.tlb) (hu : u.Backed)
    (hseg : u.segflg ≠ .sysspace) (hrw : u.rw = .read) (hzero : u.resid = 0)
    (hn : n ≤ u.iovLen) (hlt : n < 2 ^ 32) :
  wp (zeroFill n) (s, u)
    (fun _ su => Stored u.base (List.replicate n 0) s su.1
      ∧ (n = 0 ∨ u.base + n ≤ userTop))
    (fun e su => e = .efault ∧ Faulted u.base n su.1)
  := by
  rw [zeroFill, wp_ite]
  constructor
  · intro _
    simp only [wp_bind, wp_onSnd, wp_modify]
    have hresid : u32 (u.resid + n) = n := by
      rw [hzero, Nat.zero_add, u32_of_lt hlt]
    rw [hresid]
    simp only [uiomovezeros, wp_bind, wp_get, wp_assert]
    use hrw
    apply wp_imp (uiomovezerosFrom_user hset hagrees (u := { u with resid := n })
      ⟨hu.space, hn, hlt, hu.offset_ge, hu.offset_lt⟩ hseg (Nat.le_refl n) (Nat.le_refl n))
    rintro - su ⟨hstored, -, hend⟩
    exact ⟨hstored, hend⟩
  · intro hnot
    obtain rfl : n = 0 := by omega
    rw [wp_pure]
    exact ⟨Stored.nil hagrees u.base, .inl rfl⟩

/-- A segment that was loaded is in memory, as the file describes it. -/
theorem loadSegment_spec (h : Conforms file read) (hset : s.as.SetUp)
    (hagrees : Agrees s.as s.tlb) (hge : -2 ^ 31 ≤ offset) (hlt : offset < 2 ^ 31)
    (hmem : memsize < 2 ^ 32) :
  wp (loadSegment read offset vaddr memsize filesize executable) s
    (fun _ s' => Stored vaddr (segment file offset memsize filesize) s s'
      ∧ (requested file offset (min filesize memsize)).length = min filesize memsize
      ∧ (memsize = 0 ∨ vaddr + memsize ≤ userTop))
    (fun e s' => Reliable read → 0 ≤ offset →
      e = .enoexec ∨ e = .efault ∧ Faulted vaddr memsize s')
  := by
  rw [loadSegment_eq, wp_withRegion, wp_bind]
  apply wp_vopRead
  generalize hu₀ : segmentRegion offset vaddr memsize (min filesize memsize) executable = u₀
  have hu : u₀.Backed := by
    rw [← hu₀]
    exact segmentRegion_backed hge hlt (Nat.min_le_right _ _) hmem
  have hseg : u₀.segflg ≠ .sysspace := by
    rw [← hu₀]
    apply segmentRegion_segflg
  have hbase : u₀.base = vaddr := by rw [← hu₀]; rfl
  have hoffset : u₀.offset = offset := by rw [← hu₀]; rfl
  have hresid : u₀.resid = min filesize memsize := by rw [← hu₀]; rfl
  have hiov : u₀.iovLen = memsize := by rw [← hu₀]; rfl
  have hrw : u₀.rw = .read := by rw [← hu₀]; rfl
  apply wp_mono (uiomoves_user (s := s.called) hset hagrees hu hseg (h.length_le _ _ _))
  · rintro - ⟨s₁, u₁⟩ ⟨hstored, hafter, hend⟩
    simp only at hstored hafter hend
    rw [hoffset, hresid] at hstored hafter hend ⊢
    constructor
    · intro hnone
      rw [h.complete _ _ _ hnone] at hstored hafter hend
      have hresid₁ := hafter.resid
      have hiov₁ := hafter.iovLen
      have hbase₁ := hafter.base
      simp only [wp_bind, wp_get, wp_ite, wp_fail]
      constructor
      · intro _ _ _
        exact .inl trivial
      · intro hzero
        rw [not_not] at hzero
        have hlen : (requested file offset (min filesize memsize)).length
            = min filesize memsize := by omega
        apply wp_mono (zeroFill_spec (by rw [hstored.as]; exact hset) hstored.agrees
          (hafter.backed hu) (by rw [hafter.segflg]; exact hseg) (hafter.rw.trans hrw) hzero
          (by omega) (by omega))
        · rintro - ⟨s₂, u₂⟩ ⟨hstored₂, hend₂⟩
          rw [hbase₁, hbase] at hstored₂ hend₂
          rw [hbase] at hstored hend
          have hall := hstored.append hstored₂
          refine ⟨{ hall with }, hlen, ?_⟩
          -- the last byte was stored by one of the two transfers, if there is one
          rcases hend₂ with hfull | hend₂
          · rcases hend with hnil | hend
            · left
              rw [hnil, List.length_nil] at hlen
              omega
            · right
              omega
          · right
            omega
        · rintro e _ ⟨he, hfault⟩ _ _
          rw [hbase₁, hbase] at hfault
          exact .inr ⟨he, hfault.of_part (by omega)⟩
    · intro e hsome hreliable hnonneg
      rw [hreliable _ _ _ hnonneg] at hsome
      cases hsome
  · rintro e _ ⟨he, hfault⟩ _ _
    have hle := h.length_le s.calls u₀.offset u₀.resid
    rw [hbase] at hfault
    exact .inr ⟨he, Faulted.of_part (d := 0) hfault (by omega)⟩

/-! An empty segment, and segments in an address space that is not set up. -/

/-- No memory is touched to load an empty segment. -/
theorem loadSegment_empty (h : Conforms file read) :
  wp (loadSegment read offset vaddr 0 filesize executable) s (fun _ s' => s' = s.called)
    (fun e _ => (read s.calls offset 0).result = some e)
  := by
  rw [loadSegment_eq, Nat.min_zero, wp_withRegion, wp_bind]
  apply wp_vopRead
  have hnil : (read s.calls offset 0).pieces.flatten = [] := by
    apply List.eq_nil_of_length_eq_zero
    exact Nat.le_zero.mp (h.length_le s.calls offset 0)
  apply wp_of_ok (uiomoves_nil rfl hnil)
  constructor
  · intro _
    simp only [wp_bind, wp_get, segmentRegion, ne_eq, not_true, if_false, zeroFill,
      Nat.sub_self, Nat.lt_irrefl, wp_pure]
  · intro e hsome
    exact hsome

/-! The second loop of `load_elf`. -/

variable {eh : Ehdr} {i : ℕ}

section Header

variable {Q : Unit → Process → Prop} {E : Errno → Process → Prop} (h : Conforms file read)
  (hread : ∀ e, (Reliable read → phdrAt file eh i = none
    ∧ (0 ≤ eh.phdrOffset i → e = .enoexec)) → E e s.called)
  (hunknown : ∀ ph, phdrAt file eh i = some ph → ph.kind = .unknown → E .enoexec s.called)
  (hskip : ∀ ph, phdrAt file eh i = some ph → ph.kind = .skip → Q () s.called)

include h hread hunknown hskip

/-- A round of the second loop, by what the loading of the segment does. -/
theorem wlp_loadHeader (hload : ∀ ph, phdrAt file eh i = some ph → ph.kind = .load →
      wlp P (loadSegment read ph.fileOffset ph.vaddr.toNat ph.memsz.toNat ph.filesz.toNat
        ph.executable) s.called Q E) :
  wlp P (loadHeader read eh i) s Q E
  := by
  rw [loadHeader, wlp_bind]
  apply wlp_mono (wlp_of_wp (readPhdr_spec h eh i))
  · rintro f s' ⟨rfl, hph⟩
    simp only
    cases hkind : (Phdr.decode f).kind with
    | skip =>
      rw [wlp_pure]
      exact hskip _ hph hkind
    | unknown =>
      rw [wlp_fail]
      exact hunknown _ hph hkind
    | load => exact hload _ hph hkind
  · rintro e s' ⟨rfl, he⟩
    exact hread e he

end Header

/-- What is in memory for a program header that was loaded. -/
def Phdr.image (file : List UInt8) (ph : Phdr) : List UInt8 :=
  match ph.kind with
  | .load => segment file ph.fileOffset ph.memsz.toNat ph.filesz.toNat
  | _ => []

/-- The file has all the data of the segment, and the segment is in user memory. -/
structure Phdr.Fits (file : List UInt8) (ph : Phdr) : Prop where
  data : (requested file ph.fileOffset ph.loadsz).length = ph.loadsz
  memory : ph.memsz.toNat = 0 ∨ ph.vaddr.toNat + ph.memsz.toNat ≤ userTop

/-- A byte of a segment cannot be stored. -/
def Uncopied (file : List UInt8) (eh : Ehdr) (e : Errno) (s : Process) : Prop :=
  e = .efault ∧ ∃ i < eh.phnum.toNat, ∃ ph, phdrAt file eh i = some ph ∧ ph.kind = .load
    ∧ Faulted ph.vaddr.toNat ph.memsz.toNat s

/-- A round of the second loop, in an address space that is set up. -/
theorem loadHeader_spec (h : Conforms file read) (hset : s.as.SetUp) (hagrees : Agrees s.as s.tlb)
    (hi : i < eh.phnum.toNat) :
  wp (loadHeader read eh i) s
    (fun _ s' => ∃ ph, phdrAt file eh i = some ph ∧ Stored ph.vaddr.toNat (ph.image file) s s'
      ∧ (ph.kind = .load → ph.Fits file))
    (fun e s' => Reliable read → 0 ≤ eh.phdrOffset i →
      (∀ ph, phdrAt file eh i = some ph → ph.kind = .load → 0 ≤ ph.fileOffset) →
      e = .enoexec ∨ Uncopied file eh e s')
  := by
  apply wp_iff_wlp.mpr
  apply wlp_loadHeader h
  · intro e he hreliable hnonneg _
    exact .inl ((he hreliable).2 hnonneg)
  · intro ph _ _ _ _ _
    exact .inl rfl
  · intro ph hph hkind
    refine ⟨ph, hph, ?_, fun hload => ?_⟩
    · have himage : ph.image file = [] := by rw [Phdr.image, hkind]
      rw [himage]
      exact ⟨rfl, rfl, hagrees, fun _ hk => absurd hk (Nat.not_lt_zero _), rfl⟩
    · rw [hkind] at hload
      cases hload
  · intro ph hph hkind
    have hge : -2 ^ 31 ≤ ph.fileOffset := le_i32 _
    have hlt : ph.fileOffset < 2 ^ 31 := i32_lt _
    apply wlp_mono (wp_iff_wlp.mp
      (loadSegment_spec (s := s.called) h hset hagrees hge hlt ph.memsz.toNat_lt))
    · rintro - s' ⟨hstored, hdata, hmemory⟩
      refine ⟨ph, hph, ?_, fun _ => ⟨hdata, hmemory⟩⟩
      have himage : ph.image file
          = segment file ph.fileOffset ph.memsz.toNat ph.filesz.toNat := by
        rw [Phdr.image, hkind]
      rw [himage]
      exact { hstored with }
    · intro e _ he hreliable _ hoffset
      rcases he hreliable (hoffset ph hph hkind) with he | ⟨he, hfault⟩
      · exact .inl he
      · exact .inr ⟨he, i, hi, ph, hph, hkind, hfault⟩

/-- The header of the file is read first. -/
theorem readEhdr_spec (h : Conforms file read) :
  wp (readHeader read Ehdr.size 0) s
    (fun f s' => s' = s.called ∧ ehdrOf file = some (Ehdr.decode f))
    (fun e _ => Reliable read → ehdrOf file = none ∧ e = .enoexec)
  := by
  apply wp_mono (readHeader_spec h (by decide) (by decide) (by decide) (by decide))
  · rintro f s' ⟨rfl, g, hg, hfg⟩
    refine ⟨rfl, ?_⟩
    rw [ehdrOf, hg, Ehdr.decode_congr hfg]
    rfl
  · rintro e s' ⟨-, hnone⟩ hreliable
    obtain ⟨hat, he⟩ := hnone hreliable
    refine ⟨?_, he (Int.le_refl 0)⟩
    rw [ehdrOf, hat]
    rfl

end Loading

end Userprog
