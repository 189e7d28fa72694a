import AzureSpider.Lib.Machine
import Mathlib.Data.List.Basic
import Mathlib.Tactic.Ring

/-!
# Physical memory before the VM system

`ram_stealmem` hands out physical pages in increasing order, by moving `firstpaddr`
towards `lastpaddr`; `getppages` and `alloc_kpages` of dumbvm and the large allocations
of `kmalloc` all end there.  The arithmetic is that of 32-bit unsigned words.

A request is served as it should be exactly when the end of its range, computed without
wrapping around, is a 32-bit number, or wraps around to a number above `lastpaddr`; a run
of requests is safe exactly when each of its requests meets this condition.
-/

open Machine

/-- `PAGE_SIZE`. -/
def pageSize : ℕ := 4096

/-- `PAGE_FRAME`. -/
def pageFrame : ℕ := 0xfffff000

/-- `~PAGE_FRAME`. -/
def pageOffset : ℕ := 0xfff

/-- `MIPS_KSEG0`, where the kernel sees physical memory. -/
def kseg0 : ℕ := 0x80000000

/-- `PADDR_TO_KVADDR`. -/
def paddrToKvaddr (pa : ℕ) : ℕ := u32 (kseg0 + pa)

theorem and_pageOffset (x : ℕ) :
  x &&& pageOffset = x % pageSize
  := Nat.and_two_pow_sub_one_eq_mod x 12

theorem and_pageFrame (x : ℕ) :
  x &&& pageFrame = x / pageSize % 2 ^ 20 * pageSize
  := by
  have hdiv : (x &&& pageFrame) / 2 ^ 12 = x / 2 ^ 12 % 2 ^ 20 := by
    rw [Nat.and_div_two_pow]
    apply Nat.and_two_pow_sub_one_eq_mod (x / 2 ^ 12) 20
  have hmod : (x &&& pageFrame) % 2 ^ 12 = 0 := by
    rw [Nat.and_mod_two_pow]
    apply Nat.and_zero
  have hsplit := Nat.div_add_mod (x &&& pageFrame) (2 ^ 12)
  rw [hdiv, hmod] at hsplit
  simp only [pageSize]
  omega

/-- Frames are the multiples of the page size. -/
theorem and_pageFrame_eq_self {p : ℕ} (hp : p < 2 ^ 32) :
  p &&& pageFrame = p ↔ p % pageSize = 0
  := by
  rw [and_pageFrame]
  simp only [pageSize]
  omega

/-- The variables of `ram.c`: the first free physical page, and one past the last. -/
structure Ram where
  firstpaddr : ℕ
  lastpaddr : ℕ
  deriving DecidableEq, Repr

namespace Ram

/-- `ram_stealmem`: the address of `npages` pages, or `0`. -/
def stealmem (r : Ram) (npages : ℕ) : ℕ × Ram :=
  let size := u32 (npages * pageSize)
  if u32 (r.firstpaddr + size) > r.lastpaddr then
    (0, r)
  else
    (r.firstpaddr, { r with firstpaddr := u32 (r.firstpaddr + size) })

/-- `getppages`. -/
def getppages (r : Ram) (npages : ℕ) : ℕ × Ram := r.stealmem npages

/-- `alloc_kpages`; its `int` argument becomes the `unsigned long` of `getppages`. -/
def allocKpages (r : Ram) (npages : ℤ) : ℕ × Ram :=
  let p := r.getppages (toU32 npages)
  if p.1 = 0 then (0, p.2) else (paddrToKvaddr p.1, p.2)

/-- The number of pages `kmalloc` asks `alloc_kpages` for, to get `sz` bytes. -/
def kmallocNpages (sz : ℕ) : ℕ := u32 (sz + pageSize - 1) / pageSize

/-- `kmalloc` on a size of at least `LARGEST_SUBPAGE_SIZE`. -/
def kmallocLarge (r : Ram) (sz : ℕ) : ℕ × Ram :=
  let p := r.allocKpages (i32 (kmallocNpages sz))
  if p.1 = 0 then (0, p.2) else (p.1, p.2)

/-! ### Requests -/

/-- A request that reaches `ram_stealmem`. -/
inductive Request where
  | kmalloc (sz : ℕ)
  | allocKpages (npages : ℤ)
  | getppages (npages : ℕ)
  deriving DecidableEq, Repr

namespace Request

/-- The argument is one the C prototype admits, and `kmalloc` takes its large path. -/
def Valid : Request → Prop
  | kmalloc sz => 2048 ≤ sz ∧ sz < 2 ^ 32
  | allocKpages n => -2 ^ 31 ≤ n ∧ n < 2 ^ 31
  | getppages n => n < 2 ^ 32

/-- The number of pages that reaches `ram_stealmem`. -/
def pages : Request → ℕ
  | kmalloc sz => kmallocNpages sz
  | allocKpages n => toU32 n
  | getppages n => n

/-- The number of bytes the caller asks for. -/
def asked : Request → ℕ
  | kmalloc sz => sz
  | allocKpages n => toU32 n * pageSize
  | getppages n => n * pageSize

/-- The number of bytes the caller asks for, rounded up to whole pages. -/
def need (q : Request) : ℕ := (q.asked + (pageSize - 1)) / pageSize * pageSize

/-- The value the request returns for the physical address `pa`. -/
def handle : Request → ℕ → ℕ
  | kmalloc _, pa => paddrToKvaddr pa
  | allocKpages _, pa => paddrToKvaddr pa
  | getppages _, pa => pa

/-- The physical address that a returned value stands for. -/
def paddr : Request → ℕ → ℕ
  | kmalloc _, a => a - kseg0
  | allocKpages _, a => a - kseg0
  | getppages _, a => a

end Request

/-- The value a request returns, and the variables after it. -/
def serve (r : Ram) : Request → ℕ × Ram
  | .kmalloc sz => r.kmallocLarge sz
  | .allocKpages n => r.allocKpages n
  | .getppages n => r.getppages n

/-- A range of physical memory. -/
structure Range where
  start : ℕ
  len : ℕ
  deriving DecidableEq, Repr

/-- The address `x` lies in the range. -/
def Range.Mem (x : ℕ) (g : Range) : Prop := g.start ≤ x ∧ x < g.start + g.len

/-- The range a request that returned `a` hands out: the pages it took from
`ram_stealmem`. -/
def granted (q : Request) (a : ℕ) : Range := ⟨q.paddr a, q.pages * pageSize⟩

/-- The request `q`, served when the ranges in `given` are handed out already, is served as
it should be: a success hands out a range inside the memory from `lo` to `lastpaddr`,
disjoint from the earlier ones and long enough; a request that does not fit returns `0`
and changes nothing. -/
def ServedRight (lo : ℕ) (given : List Range) (r : Ram) (q : Request) : Prop :=
  ((r.serve q).1 ≠ 0 →
    (∀ x, (granted q (r.serve q).1).Mem x → lo ≤ x ∧ x < r.lastpaddr) ∧
    (∀ g ∈ given, ∀ x, g.Mem x → ¬ (granted q (r.serve q).1).Mem x) ∧
    q.asked ≤ (granted q (r.serve q).1).len) ∧
  (r.lastpaddr < r.firstpaddr + q.need → r.serve q = (0, r))

/-- The ranges handed out after the request `q`. -/
def givenAfter (given : List Range) (r : Ram) (q : Request) : List Range :=
  if (r.serve q).1 = 0 then given else granted q (r.serve q).1 :: given

/-- Every request of a run is served as it should be. -/
def Safe (lo : ℕ) : List Range → Ram → List Request → Prop
  | _, _, [] => True
  | given, r, q :: qs =>
    ServedRight lo given r q ∧ Safe lo (givenAfter given r q) (r.serve q).2 qs

/-- The end of the range the request needs is a 32-bit number, or wraps around to a number
above `lastpaddr`. -/
def EndInRange (r : Ram) (q : Request) : Prop :=
  r.firstpaddr + q.need < 2 ^ 32 ∨ r.lastpaddr < (r.firstpaddr + q.need) % 2 ^ 32

/-- Every request of a run meets `EndInRange` in the state it is made in. -/
def EndsInRange : Ram → List Request → Prop
  | _, [] => True
  | r, q :: qs => EndInRange r q ∧ EndsInRange (r.serve q).2 qs

/-! ### The outcome of a request -/

/-- Modulo the word size, the bytes that `ram_stealmem` takes are those the request needs. -/
theorem pages_mod {q : Request} (hq : q.Valid) :
  q.pages * pageSize % 2 ^ 32 = q.need % 2 ^ 32
  := by
  cases q with
  | kmalloc sz =>
    simp only [Request.Valid] at hq
    simp only [Request.pages, Request.need, Request.asked, kmallocNpages, u32, pageSize]
    omega
  | allocKpages | getppages =>
    simp only [Request.pages, Request.need, Request.asked, pageSize]
    omega

/-- Away from the wrapping sizes of `kmalloc`, the pages taken are the pages needed. -/
theorem pages_eq {q : Request} (hq : q.Valid) (h : q.need < 2 ^ 32) :
  q.pages * pageSize = q.need
  := by
  cases q with
  | kmalloc sz =>
    simp only [Request.Valid] at hq
    simp only [Request.need, Request.asked, pageSize] at h
    simp only [Request.pages, Request.need, Request.asked, kmallocNpages, u32, pageSize]
    omega
  | allocKpages | getppages =>
    simp only [Request.pages, Request.need, Request.asked, pageSize]
    omega

theorem asked_le_need (q : Request) :
  q.asked ≤ q.need
  := by
  simp only [Request.need, pageSize]
  omega

theorem kmallocNpages_lt (sz : ℕ) :
  kmallocNpages sz < 2 ^ 32
  := by
  simp only [kmallocNpages, u32, pageSize]
  omega

/-- The page count of `kmalloc` survives the conversions to `int` and back. -/
theorem toU32_i32 {n : ℕ} (h : n < 2 ^ 32) :
  toU32 (i32 n) = n
  := by
  simp only [toU32, i32]
  omega

/-- The outcome of a request for some bytes that returns `a` if they are there: it fails when the
wrapped end of its range is above `lastpaddr`, and else takes the range up to the wrapped end. -/
def take (r : Ram) (size a : ℕ) : ℕ × Ram :=
  if r.lastpaddr < (r.firstpaddr + size) % 2 ^ 32 then (0, r)
  else (a, { r with firstpaddr := (r.firstpaddr + size) % 2 ^ 32 })

theorem take_congr (r : Ram) {size size' : ℕ} (h : size % 2 ^ 32 = size' % 2 ^ 32) :
  r.take size = r.take size'
  := by
  funext a
  rw [take, take, Nat.add_mod, h, ← Nat.add_mod]

/-- The value that is returned is converted. -/
theorem take_convert (r : Ram) (size : ℕ) {a : ℕ} (ha : a ≠ 0) (f : ℕ → ℕ) :
  (if (r.take size a).1 = 0 then (0, (r.take size a).2)
    else (f (r.take size a).1, (r.take size a).2)) = r.take size (f a)
  := by
  rw [take, take]
  split
  · rfl
  · rfl

theorem stealmem_eq (r : Ram) (npages : ℕ) :
  r.stealmem npages = r.take (npages * pageSize) r.firstpaddr
  := by
  simp only [stealmem, take, u32, Nat.add_mod_mod, gt_iff_lt]

theorem allocKpages_eq {r : Ram} (hpos : 0 < r.firstpaddr) (npages : ℤ) :
  r.allocKpages npages = r.take (toU32 npages * pageSize) (paddrToKvaddr r.firstpaddr)
  := by
  rw [allocKpages, getppages, stealmem_eq]
  exact r.take_convert _ hpos.ne' paddrToKvaddr

theorem kmallocLarge_eq {r : Ram} (hpos : 0 < r.firstpaddr) (hmax : r.firstpaddr < kseg0) (sz : ℕ) :
  r.kmallocLarge sz = r.take (kmallocNpages sz * pageSize) (paddrToKvaddr r.firstpaddr)
  := by
  have hk : paddrToKvaddr r.firstpaddr ≠ 0 := by
    simp only [kseg0] at hmax
    simp only [paddrToKvaddr, kseg0, u32]
    omega
  rw [kmallocLarge, allocKpages_eq hpos, toU32_i32 (kmallocNpages_lt sz)]
  exact r.take_convert _ hk id

theorem serve_eq {r : Ram} {q : Request} (hq : q.Valid) (hpos : 0 < r.firstpaddr)
    (hmax : r.firstpaddr < kseg0) :
  r.serve q = r.take q.need (q.handle r.firstpaddr)
  := by
  rw [← r.take_congr (pages_mod hq)]
  cases q with
  | kmalloc sz => exact kmallocLarge_eq hpos hmax sz
  | allocKpages n => exact allocKpages_eq hpos n
  | getppages n => exact stealmem_eq r n

/-- A physical address below `MIPS_KSEG0` is recovered from the value returned for it. -/
theorem paddr_handle (q : Request) {pa : ℕ} (h : pa < kseg0) :
  q.paddr (q.handle pa) = pa
  := by
  simp only [kseg0] at h
  cases q <;> simp only [Request.paddr, Request.handle, paddrToKvaddr, kseg0, u32]
  · omega
  · omega

theorem handle_ne_zero (q : Request) {pa : ℕ} (hpos : 0 < pa) (h : pa < kseg0) :
  q.handle pa ≠ 0
  := by
  simp only [kseg0] at h
  cases q <;> simp only [Request.handle, paddrToKvaddr, kseg0, u32]
  · omega
  · omega
  · omega

/-! ### Runs -/

/-- What holds between the requests of a run that met the condition so far: the first free
page moved up from `lo`, and the ranges handed out lie below it. -/
structure Between (lo : ℕ) (given : List Range) (r : Ram) : Prop where
  pos : 0 < lo
  lo_le : lo ≤ r.firstpaddr
  le_last : r.firstpaddr ≤ r.lastpaddr
  last_le : r.lastpaddr ≤ 508 * 1024 * 1024
  given_below : ∀ g ∈ given, g.start + g.len ≤ r.firstpaddr

namespace Between

variable {lo : ℕ} {given : List Range} {r : Ram} {q : Request}

variable (hb : Between lo given r)
include hb

theorem firstpaddr_pos :
  0 < r.firstpaddr
  := lt_of_lt_of_le hb.pos hb.lo_le

theorem firstpaddr_lt :
  r.firstpaddr < kseg0
  := by
  have h₁ := hb.le_last
  have h₂ := hb.last_le
  simp only [kseg0]
  omega

theorem serve_eq (hq : q.Valid) :
  r.serve q = r.take q.need (q.handle r.firstpaddr)
  := Ram.serve_eq hq hb.firstpaddr_pos hb.firstpaddr_lt

/-- Under the condition, a request that does not fit is refused. -/
theorem serve_refused (hq : q.Valid) (hc : EndInRange r q)
    (h : r.lastpaddr < r.firstpaddr + q.need) :
  r.serve q = (0, r)
  := by
  rw [hb.serve_eq hq, take, if_pos]
  rcases hc with hlt | hgt
  · rw [Nat.mod_eq_of_lt hlt]
    apply h
  · apply hgt

/-- A request that fits gets its range. -/
theorem serve_granted (hq : q.Valid) (h : r.firstpaddr + q.need ≤ r.lastpaddr) :
  r.serve q = (q.handle r.firstpaddr, { r with firstpaddr := r.firstpaddr + q.need })
  := by
  have hlast := hb.last_le
  have hmod : (r.firstpaddr + q.need) % 2 ^ 32 = r.firstpaddr + q.need := by
    apply Nat.mod_eq_of_lt
    omega
  rw [hb.serve_eq hq, take, hmod, if_neg (Nat.not_lt.mpr h)]

/-- The range handed out to a request that fits. -/
theorem granted_eq (hq : q.Valid) (h : r.firstpaddr + q.need ≤ r.lastpaddr) :
  granted q (q.handle r.firstpaddr) = ⟨r.firstpaddr, q.need⟩
  := by
  have hlast := hb.last_le
  rw [granted, paddr_handle q hb.firstpaddr_lt, pages_eq hq]
  omega

/-- Under the condition a request is served as it should be. -/
theorem servedRight (hq : q.Valid) (hc : EndInRange r q) :
  ServedRight lo given r q
  := by
  rcases Nat.lt_or_ge r.lastpaddr (r.firstpaddr + q.need) with hout | hfits
  · simp [ServedRight, hb.serve_refused hq hc hout]
  · have hbelow := hb.given_below
    have hlo := hb.lo_le
    simp only [ServedRight, hb.serve_granted hq hfits, hb.granted_eq hq hfits, Range.Mem]
    constructor
    · intro _
      constructor
      · intro x hx
        omega
      · constructor
        · intro g hg x hx
          have hg' := hbelow g hg
          omega
        · apply asked_le_need
    · intro hout
      omega

/-- Under the condition a request keeps the invariant. -/
theorem step (hq : q.Valid) (hc : EndInRange r q) :
  Between lo (givenAfter given r q) (r.serve q).2
  := by
  rcases Nat.lt_or_ge r.lastpaddr (r.firstpaddr + q.need) with hout | hfits
  · rw [givenAfter, hb.serve_refused hq hc hout, if_pos rfl]
    apply hb
  · have hne := handle_ne_zero q hb.firstpaddr_pos hb.firstpaddr_lt
    rw [givenAfter, hb.serve_granted hq hfits, if_neg hne, hb.granted_eq hq hfits]
    have hlo := hb.lo_le
    constructor
    · apply hb.pos
    · simp only
      omega
    · apply hfits
    · apply hb.last_le
    · intro g hg
      rcases List.mem_cons.mp hg with rfl | hg
      · rfl
      · have hg' := hb.given_below g hg
        simp only
        omega

/-- A request that is served as it should be meets the condition: a wrapped end at or
below `lastpaddr` makes a request succeed that does not fit. -/
theorem endInRange (hq : q.Valid) (hs : ServedRight lo given r q) :
  EndInRange r q
  := by
  by_contra hc
  simp only [EndInRange, not_or, Nat.not_lt] at hc
  have hlast := hb.last_le
  have hrefused := hs.2 (by omega)
  rw [hb.serve_eq hq, take, if_neg (Nat.not_lt.mpr hc.2)] at hrefused
  apply handle_ne_zero q hb.firstpaddr_pos hb.firstpaddr_lt
  apply congrArg Prod.fst hrefused

/-- From a state between requests, a run is safe exactly when each of its requests meets
the condition. -/
theorem safe_iff {qs : List Request} (hqs : ∀ q ∈ qs, q.Valid) :
  Safe lo given r qs ↔ EndsInRange r qs
  := by
  induction qs generalizing given r with
  | nil => simp [Safe, EndsInRange]
  | cons q qs ih =>
    have hq : q.Valid := hqs q List.mem_cons_self
    have hqs' : ∀ q' ∈ qs, q'.Valid := fun q' h => hqs q' (List.mem_cons_of_mem q h)
    simp only [Safe, EndsInRange]
    constructor
    · rintro ⟨hs, hrest⟩
      have hc := hb.endInRange hq hs
      use hc
      apply (ih (hb.step hq hc) hqs').mp hrest
    · rintro ⟨hc, hrest⟩
      use hb.servedRight hq hc
      apply (ih (hb.step hq hc) hqs').mpr hrest

end Between

/-- From any memory of at most 508 MB, page-aligned or not, a run of requests hands out
ranges inside the memory, disjoint from each other and long enough, and refuses what does not
fit, exactly when the end of each requested range is a 32-bit number or wraps around to
a number above `lastpaddr`. -/
theorem safe_iff_endsInRange (r : Ram) (qs : List Request) (hpos : 0 < r.firstpaddr)
    (hle : r.firstpaddr ≤ r.lastpaddr) (hmax : r.lastpaddr ≤ 508 * 1024 * 1024)
    (hqs : ∀ q ∈ qs, q.Valid) :
  Safe r.firstpaddr [] r qs ↔ EndsInRange r qs
  := by
  apply Between.safe_iff _ hqs
  constructor
  · apply hpos
  · apply le_refl
  · apply hle
  · apply hmax
  · simp

/-- Two requests that fit, and one that does not, on a machine with 512 kB. -/
theorem safe_iff_endsInRange_small :
  Safe 0x20000 [] ⟨0x20000, 0x80000⟩ [.kmalloc 5000, .getppages 3, .allocKpages 1000]
  := by
  apply (safe_iff_endsInRange ⟨0x20000, 0x80000⟩ _ (by decide) (by decide) (by decide)
    (by simp [Request.Valid])).mpr
  simp only [EndsInRange, EndInRange]
  decide

/-- `kmalloc(0xfffff001)` asks `alloc_kpages` for no pages and returns the first free
address, so a machine with 512 kB claims to hand out 4 GB. -/
theorem not_safe_kmalloc_wraps :
  ¬ Safe 0x20000 [] ⟨0x20000, 0x80000⟩ [.kmalloc 0xfffff001]
  := by
  rintro ⟨⟨-, h⟩, -⟩
  have h' := h (by decide)
  revert h'
  decide

end Ram
