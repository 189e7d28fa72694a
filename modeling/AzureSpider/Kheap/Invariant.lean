import AzureSpider.Kheap.Kheap
import Mathlib.Data.List.Pairwise
import Mathlib.Data.List.Perm.Subperm
import Mathlib.Tactic.IntervalCases

/-!
# The invariant of the kernel heap

`Core s live all same free` describes a heap `s` whose callers hold the blocks `live`: the
list `all` links the pagerefs in use, the list `same b` those of block type `b`, and the
list `free i` the free blocks on the page of the pageref `i`.
-/

open Machine

/-! ### Block sizes and packed words -/

theorem sizes_mul_blocks {b : ℕ} (h : b < nsizes) :
  pageSize / sizes b * sizes b = pageSize
  := by
  simp only [nsizes] at h
  interval_cases b <;> rfl

theorem sizes_le {b : ℕ} (h : b < nsizes) :
  16 ≤ sizes b ∧ sizes b ≤ 2048 ∧ sizes b % 16 = 0
  := by
  simp only [nsizes] at h
  interval_cases b <;> decide

theorem blocks_le {b : ℕ} (h : b < nsizes) :
  2 ≤ pageSize / sizes b ∧ pageSize / sizes b ≤ 256
  := by
  simp only [nsizes] at h
  interval_cases b <;> decide

theorem mkpab_eq {a b : ℕ} (ha : pageSize ∣ a) (hlt : a < 2 ^ 32) (hb : b < nsizes) :
  mkpab a b = a + b
  := by
  obtain ⟨q, rfl⟩ := ha
  simp only [nsizes] at hb
  simp only [pageSize] at hlt
  have hframe : pageSize * q &&& pageFrame = 2 ^ 12 * q := by
    rw [and_pageFrame]
    simp only [pageSize]
    omega
  have hoffset : b &&& pageOffset = b := by
    rw [and_pageOffset]
    simp only [pageSize]
    omega
  rw [mkpab, hframe, hoffset, ← Nat.two_pow_add_eq_or_of_lt (by omega)]
  rfl

/-- The page address and the block type are recovered from the word they are packed in. -/
theorem unpack_mkpab {a b : ℕ} (ha : pageSize ∣ a) (hlt : a < 2 ^ 32) (hb : b < nsizes) :
  mkpab a b &&& pageFrame = a ∧ mkpab a b &&& pageOffset = b
  := by
  rw [mkpab_eq ha hlt hb, and_pageFrame, and_pageOffset]
  obtain ⟨q, rfl⟩ := ha
  simp only [pageSize, nsizes] at *
  omega

namespace Kheap

theorem blocktypeFrom_eq_some {sz : ℕ} :
    ∀ {n i b : ℕ}, blocktypeFrom sz n i = some b → sz ≤ sizes b ∧ i ≤ b ∧ b < i + n
  | n + 1, i, b, h => by
      unfold blocktypeFrom at h
      split at h
      next hsz =>
        simp only [Option.some.injEq] at h
        subst h
        use hsz
        omega
      next =>
        obtain ⟨hsz, hle, hlt⟩ := blocktypeFrom_eq_some h
        use hsz
        omega

theorem blocktypeFrom_eq_none {sz : ℕ} :
    ∀ {n i : ℕ}, blocktypeFrom sz n i = none → ∀ j, i ≤ j → j < i + n → sizes j < sz
  | 0, i, _, j, hj, hlt => by omega
  | n + 1, i, h, j, hj, hlt => by
      unfold blocktypeFrom at h
      split at h
      next => simp at h
      next hsz =>
        rcases Nat.eq_or_lt_of_le hj with rfl | hj
        · omega
        · apply blocktypeFrom_eq_none h j hj (by omega)

/-- Every size below the largest one has a block type. -/
theorem exists_blocktype {sz : ℕ} (h : sz < largestSubpageSize) :
  ∃ b, blocktypeFrom sz nsizes 0 = some b
  := by
  cases hb : blocktypeFrom sz nsizes 0 with
  | some b => use b
  | none =>
    have hlast : 2048 < sz := blocktypeFrom_eq_none hb 7 (by decide) (by decide)
    simp only [largestSubpageSize] at h
    omega

/-! ### Blocks -/

/-- A block that a caller got for a request of `sz` bytes. -/
structure Block where
  addr : ℕ
  sz : ℕ
  deriving DecidableEq, Repr

/-- The number of pages `kmalloc` asks for, to get `sz` bytes. -/
def npages (sz : ℕ) : ℕ := (sz + (pageSize - 1)) / pageSize

/-- The number of bytes the heap sets aside for a request of `sz` bytes. -/
def extent (sz : ℕ) : ℕ :=
  if largestSubpageSize ≤ sz then npages sz * pageSize
  else sizes ((blocktypeFrom sz nsizes 0).getD 0)

/-- The address `a` is that of a block on the page of `pr`. -/
def IsSlot (pr : Pageref) (a : ℕ) : Prop :=
  ∃ j < pageSize / sizes pr.blocktype, a = pr.pageaddr + j * sizes pr.blocktype

/-- The block after a free block, on the free list of its page. -/
def nextFree (s : Kheap) (a : ℕ) : Option ℕ := if s.load a = 0 then none else some (s.load a)

/-- The first free block of a page. -/
def firstFree (pr : Pageref) : Option ℕ :=
  if pr.freelistOffset = invalidOffset then none else some (pr.pageaddr + pr.freelistOffset)

/-- A run of pages that `alloc_kpages` may hand out: page-aligned, not empty, and below the
end of the address space, as all pages that the kernel sees in `MIPS_KSEG0` are. -/
structure Proper (p : Pages) : Prop where
  aligned : pageSize ∣ p.addr
  pos : 0 < p.addr
  npages_pos : 0 < p.npages
  end_lt : p.addr + p.npages * pageSize < 2 ^ 32

/-- Two runs of pages have no page in common. -/
def Apart (p q : Pages) : Prop :=
  p.addr + p.npages * pageSize ≤ q.addr ∨ q.addr + q.npages * pageSize ≤ p.addr

instance : Std.Symm Apart where
  symm _ _ := Or.symm

/-- The list `fl` is the free list of the page of the pageref `i`: it holds, once each, the
blocks of the page that no caller has. -/
structure PageOk (s : Kheap) (live : List Block) (fl : List ℕ) (i : ℕ) : Prop where
  blocktype_lt : (s.pagerefs i).blocktype < nsizes
  page_mem : ⟨(s.pagerefs i).pageaddr, 1⟩ ∈ s.pages
  linked : Linked (nextFree s) (firstFree (s.pagerefs i)) fl
  nodup : fl.Nodup
  mem_iff : ∀ a, a ∈ fl ↔ IsSlot (s.pagerefs i) a ∧ ∀ b ∈ live, b.addr ≠ a
  length_eq : fl.length = (s.pagerefs i).nfree

/-- The heap `s`, whose callers hold the blocks `live`. -/
structure Core (s : Kheap) (live : List Block) (all : List ℕ) (same free : ℕ → List ℕ) :
    Prop where
  inuse_length : s.pagerefsInuse.length = 8
  all_linked : Linked (fun i => (s.pagerefs i).nextAll) s.allbase all
  all_nodup : all.Nodup
  mem_all : ∀ i, i ∈ all ↔ BitWords.getBit s.pagerefsInuse i = true
  same_linked : ∀ b < nsizes, Linked (fun i => (s.pagerefs i).nextSamesize) (s.sizebases b) (same b)
  same_nodup : ∀ b < nsizes, (same b).Nodup
  mem_same : ∀ b < nsizes, ∀ i, i ∈ same b ↔ i ∈ all ∧ (s.pagerefs i).blocktype = b
  page : ∀ i ∈ all, PageOk s live (free i) i
  page_inj : ∀ i ∈ all, ∀ j ∈ all, (s.pagerefs i).pageaddr = (s.pagerefs j).pageaddr → i = j
  proper : ∀ p ∈ s.pages, Proper p
  apart : s.pages.Pairwise Apart
  owner : ∀ p ∈ s.pages, (p.npages = 1 ∧ ∃ i ∈ all, (s.pagerefs i).pageaddr = p.addr)
    ∨ ∃ b ∈ live, largestSubpageSize ≤ b.sz ∧ p = ⟨b.addr, npages b.sz⟩
  small : ∀ b ∈ live, b.sz < largestSubpageSize →
    ∃ i ∈ all, IsSlot (s.pagerefs i) b.addr
      ∧ blocktypeFrom b.sz nsizes 0 = some (s.pagerefs i).blocktype
  large : ∀ b ∈ live, largestSubpageSize ≤ b.sz →
    ⟨b.addr, npages b.sz⟩ ∈ s.pages ∧ ∀ i ∈ all, (s.pagerefs i).pageaddr ≠ b.addr
  live_nodup : (live.map Block.addr).Nodup

variable {s s' : Kheap} {live live' : List Block} {all fl : List ℕ} {same free : ℕ → List ℕ}
  {i : ℕ}

/-! ### Slots -/

/-- The word that a page address and a block type are packed in determines the blocks. -/
theorem pab_congr {pr pr' : Pageref} (h : pr'.pageaddrAndBlocktype = pr.pageaddrAndBlocktype) :
  pr'.pageaddr = pr.pageaddr ∧ pr'.blocktype = pr.blocktype ∧ ∀ a, IsSlot pr' a ↔ IsSlot pr a
  := by
  have haddr : pr'.pageaddr = pr.pageaddr := by
    rw [Pageref.pageaddr, h, ← Pageref.pageaddr]
  have htype : pr'.blocktype = pr.blocktype := by
    rw [Pageref.blocktype, h, ← Pageref.blocktype]
  refine ⟨haddr, htype, ?_⟩
  intro a
  rw [IsSlot, haddr, htype, ← IsSlot]

theorem mul_add_le_mul {j k : ℕ} (h : j < k) (size : ℕ) :
  j * size + size ≤ k * size
  := by
  rw [← Nat.succ_mul]
  exact Nat.mul_le_mul_right size h

variable {pr : Pageref} {a : ℕ}

/-- A block lies inside its page. -/
theorem IsSlot.mem_page (h : IsSlot pr a) (hb : pr.blocktype < nsizes) :
  pr.pageaddr ≤ a ∧ a + sizes pr.blocktype ≤ pr.pageaddr + pageSize
  := by
  obtain ⟨j, hj, rfl⟩ := h
  have hle := mul_add_le_mul hj (sizes pr.blocktype)
  rw [sizes_mul_blocks hb] at hle
  omega

/-- Two different blocks of a page have no byte in common. -/
theorem IsSlot.apart {a c : ℕ} (ha : IsSlot pr a) (hc : IsSlot pr c) (hne : a ≠ c) :
  a + sizes pr.blocktype ≤ c ∨ c + sizes pr.blocktype ≤ a
  := by
  obtain ⟨j, -, rfl⟩ := ha
  obtain ⟨k, -, rfl⟩ := hc
  have hjk : j ≠ k := by
    rintro rfl
    apply hne rfl
  rcases Nat.lt_or_gt_of_ne hjk with h | h
  all_goals
    have hle := mul_add_le_mul h (sizes pr.blocktype)
    omega

theorem IsSlot.aligned (h : IsSlot pr a) (hb : pr.blocktype < nsizes)
    (hpage : pageSize ∣ pr.pageaddr) :
  a % 16 = 0
  := by
  obtain ⟨j, -, rfl⟩ := h
  obtain ⟨q, hq⟩ := hpage
  have hsize := (sizes_le hb).2.2
  rw [hq, Nat.add_mod, Nat.mul_mod j, hsize]
  simp only [pageSize]
  omega

/-- The blocks of a page, in the order of their addresses. -/
def slots (pr : Pageref) : List ℕ :=
  (List.range (pageSize / sizes pr.blocktype)).map fun j => pr.pageaddr + j * sizes pr.blocktype

@[simp]
theorem mem_slots :
  a ∈ slots pr ↔ IsSlot pr a
  := by
  simp only [slots, List.mem_map, List.mem_range, IsSlot]
  constructor
  · rintro ⟨j, hj, rfl⟩
    use j
  · rintro ⟨j, hj, rfl⟩
    use j

theorem length_slots (pr : Pageref) :
  (slots pr).length = pageSize / sizes pr.blocktype
  := by
  simp [slots]

theorem nodup_slots (hb : pr.blocktype < nsizes) :
  (slots pr).Nodup
  := by
  have hpos : 0 < sizes pr.blocktype := Nat.lt_of_lt_of_le (by decide) (sizes_le hb).1
  apply List.Nodup.map _ List.nodup_range
  intro j k hjk
  apply Nat.eq_of_mul_eq_mul_right hpos
  apply Nat.add_left_cancel hjk

/-- A page has as many blocks as fit. -/
theorem length_le_blocks (hnodup : fl.Nodup) (hslots : ∀ a ∈ fl, IsSlot pr a) :
  fl.length ≤ pageSize / sizes pr.blocktype
  := by
  rw [← length_slots]
  apply (hnodup.subperm _).length_le
  intro a ha
  rw [mem_slots]
  apply hslots a ha

/-- A list of all blocks of a page has as many as fit. -/
theorem blocks_le_length (hb : pr.blocktype < nsizes) (hslots : ∀ a, IsSlot pr a → a ∈ fl) :
  pageSize / sizes pr.blocktype ≤ fl.length
  := by
  rw [← length_slots]
  apply ((nodup_slots hb).subperm _).length_le
  intro a ha
  apply hslots a (mem_slots.mp ha)

/-! ### Pages -/

namespace PageOk

theorem isSlot (h : PageOk s live fl i) (ha : a ∈ fl) :
  IsSlot (s.pagerefs i) a
  := ((h.mem_iff a).mp ha).1

theorem nfree_le (h : PageOk s live fl i) :
  (s.pagerefs i).nfree ≤ pageSize / sizes (s.pagerefs i).blocktype
  := by
  rw [← h.length_eq]
  apply length_le_blocks h.nodup
  intro a ha
  apply h.isSlot ha

/-- A page stays as it is when its pageref, the words of its free blocks and the callers'
blocks on it do. -/
theorem frame (h : PageOk s live fl i)
    (hpab : (s'.pagerefs i).pageaddrAndBlocktype = (s.pagerefs i).pageaddrAndBlocktype)
    (hoffset : (s'.pagerefs i).freelistOffset = (s.pagerefs i).freelistOffset)
    (hnfree : (s'.pagerefs i).nfree = (s.pagerefs i).nfree)
    (hmem : ∀ a ∈ fl, s'.load a = s.load a)
    (hpages : ⟨(s.pagerefs i).pageaddr, 1⟩ ∈ s'.pages)
    (hlive : ∀ a, IsSlot (s.pagerefs i) a →
      ((∀ b ∈ live', b.addr ≠ a) ↔ ∀ b ∈ live, b.addr ≠ a)) :
  PageOk s' live' fl i
  := by
  obtain ⟨haddr, htype, hslot⟩ := pab_congr hpab
  constructor
  · rw [htype]
    apply h.blocktype_lt
  · rw [haddr]
    apply hpages
  · rw [firstFree, haddr, hoffset, ← firstFree]
    apply h.linked.congr
    intro a ha
    rw [nextFree, hmem a ha, ← nextFree]
  · apply h.nodup
  · intro a
    rw [h.mem_iff, hslot]
    constructor
    · rintro ⟨ha, hb⟩
      exact ⟨ha, (hlive a ha).mpr hb⟩
    · rintro ⟨ha, hb⟩
      exact ⟨ha, (hlive a ha).mp hb⟩
  · rw [h.length_eq, hnfree]

end PageOk

namespace Core

variable (h : Core s live all same free)
include h

theorem lt_npagerefs (hi : i ∈ all) :
  i < npagerefs
  := by
  rw [h.mem_all] at hi
  by_contra hge
  have hfalse : BitWords.getBit s.pagerefsInuse i = false := by
    apply BitWords.getBit_eq_false_of_le (by decide)
    rw [h.inuse_length]
    apply Nat.le_of_not_lt hge
  rw [hi] at hfalse
  contradiction

/-- A list of pagerefs in use, without repetitions, is as long as the array at most. -/
theorem length_le {l : List ℕ} (hnodup : l.Nodup) (hsub : ∀ i ∈ l, i ∈ all) :
  l.length ≤ npagerefs
  := by
  have hrange : l ⊆ List.range npagerefs := by
    intro i hi
    rw [List.mem_range]
    apply h.lt_npagerefs (hsub i hi)
  rw [← List.length_range (n := npagerefs)]
  apply (hnodup.subperm hrange).length_le

theorem page_proper (hi : i ∈ all) :
  Proper ⟨(s.pagerefs i).pageaddr, 1⟩
  := h.proper _ (h.page i hi).page_mem

theorem page_end_lt (hi : i ∈ all) :
  (s.pagerefs i).pageaddr + 4096 < 2 ^ 32
  := by
  have hend := (h.page_proper hi).end_lt
  simp only [pageSize, Nat.one_mul] at hend
  apply hend

/-- A block of a page in use lies in the page, below the end of the address space. -/
theorem slot_bounds (hi : i ∈ all) (ha : IsSlot (s.pagerefs i) a) :
  (s.pagerefs i).pageaddr ≤ a ∧ a + 16 ≤ (s.pagerefs i).pageaddr + 4096 ∧ a + 16 < 2 ^ 32
  := by
  have hpage := ha.mem_page (h.page i hi).blocktype_lt
  have hsize := sizes_le (h.page i hi).blocktype_lt
  have hend := h.page_end_lt hi
  simp only [pageSize] at hpage
  omega

/-- The page of a pageref is apart from pages at another address. -/
theorem apart_page {p : Pages} (hi : i ∈ all) (hp : p ∈ s.pages)
    (hne : (s.pagerefs i).pageaddr ≠ p.addr) :
  (s.pagerefs i).pageaddr + pageSize ≤ p.addr
    ∨ p.addr + p.npages * pageSize ≤ (s.pagerefs i).pageaddr
  := by
  have hapart := h.apart.forall (h.page i hi).page_mem hp (fun heq => hne (congrArg Pages.addr heq))
  simpa [Apart] using hapart

/-- Two different pagerefs in use have different pages. -/
theorem page_apart {j : ℕ} (hi : i ∈ all) (hj : j ∈ all) (hne : i ≠ j) :
  (s.pagerefs i).pageaddr + pageSize ≤ (s.pagerefs j).pageaddr
    ∨ (s.pagerefs j).pageaddr + pageSize ≤ (s.pagerefs i).pageaddr
  := by
  have hapart := h.apart_page hi (h.page j hj).page_mem (fun heq => hne (h.page_inj i hi j hj heq))
  rwa [Nat.one_mul] at hapart

/-- A block is on one page only. -/
theorem slot_unique {j a : ℕ} (hi : i ∈ all) (hj : j ∈ all) (hai : IsSlot (s.pagerefs i) a)
    (haj : IsSlot (s.pagerefs j) a) :
  i = j
  := by
  by_contra hne
  have hapart := h.page_apart hi hj hne
  have hi' := hai.mem_page (h.page i hi).blocktype_lt
  have hj' := haj.mem_page (h.page j hj).blocktype_lt
  have hsi := sizes_le (h.page i hi).blocktype_lt
  have hsj := sizes_le (h.page j hj).blocktype_lt
  omega

/-- A block of whole pages has no page in common with the blocks of a pageref. -/
theorem large_apart {b : Block} (hi : i ∈ all) (hb : b ∈ live) (hsz : largestSubpageSize ≤ b.sz) :
  (s.pagerefs i).pageaddr + pageSize ≤ b.addr
    ∨ b.addr + npages b.sz * pageSize ≤ (s.pagerefs i).pageaddr
  := by
  obtain ⟨hmem, hne⟩ := h.large b hb hsz
  exact h.apart_page hi hmem (hne i hi)

/-- A block that a caller holds is on pages of the heap. -/
theorem live_on {b : Block} (hb : b ∈ live) :
  ∃ p ∈ s.pages, p.addr ≤ b.addr ∧ b.addr < p.addr + p.npages * pageSize
  := by
  by_cases hsz : largestSubpageSize ≤ b.sz
  · obtain ⟨hmem, -⟩ := h.large b hb hsz
    have hpos : 0 < npages b.sz := (h.proper _ hmem).npages_pos
    refine ⟨_, hmem, Nat.le_refl b.addr, ?_⟩
    simp only [pageSize]
    omega
  · obtain ⟨j, hj, hslot, -⟩ := h.small b hb (Nat.lt_of_not_le hsz)
    have hin := h.slot_bounds hj hslot
    refine ⟨_, (h.page j hj).page_mem, hin.1, ?_⟩
    simp only [pageSize]
    omega

end Core

/-- The heap `s'` is `s` but for the memory and the free list of the pageref `i`. -/
def SameRefs (s s' : Kheap) (i : ℕ) : Prop :=
  ∃ offset nfree mem, s' = { s with
    pagerefs := Function.update s.pagerefs i
      { s.pagerefs i with freelistOffset := offset, nfree := nfree }
    mem := mem }

namespace SameRefs

variable (h : SameRefs s s' i)
include h

theorem pages_eq :
  s'.pages = s.pages ∧ s'.freed = s.freed
  := by
  obtain ⟨_, _, _, rfl⟩ := h
  exact ⟨rfl, rfl⟩

theorem pagerefs_eq {j : ℕ} (hj : j ≠ i) :
  s'.pagerefs j = s.pagerefs j
  := by
  obtain ⟨_, _, _, rfl⟩ := h
  exact Function.update_of_ne hj _ _

/-- What does not depend on the free list of a pageref. -/
theorem field_eq {α : Type} (f : Pageref → α)
    (hf : ∀ pr offset nfree, f { pr with freelistOffset := offset, nfree := nfree } = f pr)
    (j : ℕ) :
  f (s'.pagerefs j) = f (s.pagerefs j)
  := by
  by_cases hj : j = i
  · obtain ⟨_, _, _, rfl⟩ := h
    subst hj
    simp only [Function.update_self, hf]
  · rw [h.pagerefs_eq hj]

theorem pageaddr_eq (j : ℕ) :
  (s'.pagerefs j).pageaddr = (s.pagerefs j).pageaddr
  := h.field_eq Pageref.pageaddr (fun _ _ _ => rfl) j

theorem blocktype_eq (j : ℕ) :
  (s'.pagerefs j).blocktype = (s.pagerefs j).blocktype
  := h.field_eq Pageref.blocktype (fun _ _ _ => rfl) j

theorem isSlot_iff (j a : ℕ) :
  IsSlot (s'.pagerefs j) a ↔ IsSlot (s.pagerefs j) a
  := by
  rw [IsSlot, h.pageaddr_eq, h.blocktype_eq, ← IsSlot]

end SameRefs

/-- The invariant is kept when blocks of one page change hands, and that page is in order
afterwards. -/
theorem Core.change_page (h : Core s live all same free) (hi : i ∈ all)
    (hrefs : SameRefs s s' i) (hpage : PageOk s' live' fl i)
    (hmem : ∀ j ∈ all, j ≠ i → ∀ a, IsSlot (s.pagerefs j) a → s'.load a = s.load a)
    (hadd : ∀ b ∈ live', b ∈ live ∨ b.sz < largestSubpageSize
      ∧ IsSlot (s.pagerefs i) b.addr
      ∧ blocktypeFrom b.sz nsizes 0 = some (s.pagerefs i).blocktype)
    (hdrop : ∀ b ∈ live, b ∈ live' ∨ b.sz < largestSubpageSize
      ∧ IsSlot (s.pagerefs i) b.addr)
    (hnodup : (live'.map Block.addr).Nodup) :
  Core s' live' all same (Function.update free i fl)
  := by
  -- the other pages have none of the blocks that change hands
  have hlive : ∀ j ∈ all, j ≠ i → ∀ a, IsSlot (s.pagerefs j) a →
      ((∀ b ∈ live', b.addr ≠ a) ↔ ∀ b ∈ live, b.addr ≠ a) := by
    intro j hj hne a ha
    constructor
    · rintro hall b hb rfl
      rcases hdrop b hb with hb | ⟨-, hslot⟩
      · apply hall b hb rfl
      · apply hne (h.slot_unique hj hi ha hslot)
    · rintro hall b hb rfl
      rcases hadd b hb with hb | ⟨-, hslot, -⟩
      · apply hall b hb rfl
      · apply hne (h.slot_unique hj hi ha hslot)
  have haddr := hrefs.pageaddr_eq
  have htype := hrefs.blocktype_eq
  have hslot := hrefs.isSlot_iff
  have hpab := hrefs.field_eq Pageref.pageaddrAndBlocktype fun _ _ _ => rfl
  have hall := hrefs.field_eq Pageref.nextAll fun _ _ _ => rfl
  have hsize := hrefs.field_eq Pageref.nextSamesize fun _ _ _ => rfl
  have hothers := fun j => hrefs.pagerefs_eq (j := j)
  obtain ⟨_, _, _, rfl⟩ := hrefs
  refine { h with
    all_linked := h.all_linked.congr fun j _ => hall j
    same_linked := fun b hb => (h.same_linked b hb).congr fun j _ => hsize j
    mem_same := ?_, page := ?_, page_inj := ?_, owner := ?_, small := ?_, large := ?_
    live_nodup := hnodup }
  · intro b hb j
    rw [htype]
    apply h.mem_same b hb
  · intro j hj
    by_cases hji : j = i
    · subst hji
      rw [Function.update_self]
      apply hpage
    · rw [Function.update_of_ne hji]
      apply (h.page j hj).frame (hpab j)
      · rw [hothers j hji]
      · rw [hothers j hji]
      · intro a ha
        apply hmem j hj hji a ((h.page j hj).isSlot ha)
      · apply (h.page j hj).page_mem
      · apply hlive j hj hji
  · intro j hj k hk
    rw [haddr, haddr]
    apply h.page_inj j hj k hk
  · intro p hp
    rcases h.owner p hp with ⟨hone, j, hj, hjp⟩ | ⟨b, hb, hsz, heq⟩
    · left
      use hone, j, hj
      rw [haddr, hjp]
    · right
      use b
      rcases hdrop b hb with hb | ⟨hsmall, -⟩
      · use hb
      · omega
  · intro b hb hsz
    simp only [hslot, htype]
    rcases hadd b hb with hb | ⟨-, hon⟩
    · apply h.small b hb hsz
    · exact ⟨i, hi, hon⟩
  · intro b hb hsz
    simp only [haddr]
    rcases hadd b hb with hb | ⟨hsmall, -⟩
    · apply h.large b hb hsz
    · omega

end Kheap
