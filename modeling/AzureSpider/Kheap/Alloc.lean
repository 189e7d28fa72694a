import AzureSpider.Kheap.Invariant

/-!
# Allocation and release keep the invariant

Specifications of the routines of `kheap.c`: none of them panics, and each takes a heap
that satisfies `Core` to one that does.
-/

open Machine Routine

namespace Kheap

variable {s s' : Kheap} {live live' : List Block} {all fl : List ℕ} {same free : ℕ → List ℕ}
  {i : ℕ}

/-! ### Walks along the lists of pagerefs -/

/-- The walk of `subpage_kmalloc` finds a page with a free block, or there is none. -/
theorem findFree_spec {b : ℕ} :
    ∀ {l : List ℕ} {n : ℕ} {p : Option ℕ}, l.length < n →
      Linked (fun i => (s.pagerefs i).nextSamesize) p l →
      (∀ i ∈ l, (s.pagerefs i).blocktype = b) →
      wp (findFree b n p) s
        (fun r s' => s' = s ∧ ∀ i, r = some i → i ∈ l ∧ 0 < (s.pagerefs i).nfree)
  | [], n + 1, p, _, hp, _ => by
      rw [Linked.nil_iff] at hp
      subst hp
      simp [findFree]
  | i :: l, n + 1, p, hn, hp, htype => by
      rw [Linked.cons_iff] at hp
      obtain ⟨rfl, hp⟩ := hp
      rw [List.length_cons] at hn
      simp only [findFree, wp_bind, wp_get, wp_assert, wp_ite, wp_pure]
      use htype i List.mem_cons_self
      constructor
      · intro hfree
        simp [hfree]
      · intro _
        have htype' : ∀ j ∈ l, (s.pagerefs j).blocktype = b := by
          intro j hj
          apply htype j (List.mem_cons_of_mem i hj)
        apply wp_imp (findFree_spec (by omega) hp htype')
        rintro r s' ⟨rfl, hr⟩
        use rfl
        intro j hj
        exact ⟨List.mem_cons_of_mem i (hr j hj).1, (hr j hj).2⟩

/-- The walk of `subpage_kfree` finds the page that an address is on, or there is none. -/
theorem findPage_spec {ptr : ℕ} :
    ∀ {l : List ℕ} {n : ℕ} {p : Option ℕ}, l.length < n →
      Linked (fun i => (s.pagerefs i).nextAll) p l →
      (∀ i ∈ l, (s.pagerefs i).blocktype < nsizes
        ∧ (s.pagerefs i).pageaddr + pageSize < 2 ^ 32) →
      wp (findPage ptr n p) s
        (fun r s' => s' = s ∧ match r with
          | none => ∀ i ∈ l,
              ¬ ((s.pagerefs i).pageaddr ≤ ptr ∧ ptr < (s.pagerefs i).pageaddr + pageSize)
          | some i => i ∈ l ∧ (s.pagerefs i).pageaddr ≤ ptr
              ∧ ptr < (s.pagerefs i).pageaddr + pageSize)
  | [], n + 1, p, _, hp, _ => by
      rw [Linked.nil_iff] at hp
      subst hp
      simp [findPage]
  | i :: l, n + 1, p, hn, hp, hok => by
      rw [Linked.cons_iff] at hp
      obtain ⟨rfl, hp⟩ := hp
      rw [List.length_cons] at hn
      obtain ⟨htype, hend⟩ := hok i List.mem_cons_self
      simp only [findPage, wp_bind, wp_get, wp_assert, wp_ite, wp_pure, u32_of_lt hend]
      use htype
      constructor
      · intro hon
        simp [hon]
      · intro hoff
        have hok' : ∀ j ∈ l, (s.pagerefs j).blocktype < nsizes
            ∧ (s.pagerefs j).pageaddr + pageSize < 2 ^ 32 := by
          intro j hj
          apply hok j (List.mem_cons_of_mem i hj)
        apply wp_imp (findPage_spec (by omega) hp hok')
        rintro r s' ⟨rfl, hr⟩
        use rfl
        cases r with
        | none =>
          intro j hj
          rcases List.mem_cons.mp hj with rfl | hj
          · apply hoff
          · apply hr j hj
        | some j => exact ⟨List.mem_cons_of_mem i hr.1, hr.2⟩

/-! ### Taking a block -/

@[simp]
theorem setPageref_load (f : Pageref → Pageref) (a : ℕ) :
  (setPageref i f s).load a = s.load a
  := rfl

@[simp]
theorem setPageref_pagerefs_self (f : Pageref → Pageref) :
  (setPageref i f s).pagerefs i = f (s.pagerefs i)
  := Function.update_self i _ s.pagerefs

@[simp]
theorem setPageref_setPageref (f g : Pageref → Pageref) :
  setPageref i f (setPageref i g s) = setPageref i (fun pr => f (g pr)) s
  := by
  simp [setPageref]

/-- The offset of the first free block leads to it. -/
theorem offset_of_firstFree {pr : Pageref} {a : ℕ} (h : firstFree pr = some a) :
  a = pr.pageaddr + pr.freelistOffset
  := by
  simp only [firstFree] at h
  split at h
  · simp at h
  · simp only [Option.some.injEq] at h
    rw [h]

theorem firstFree_eq_some {pr : Pageref} {a : ℕ} (page : ℕ) (hpage : pr.pageaddr = page)
    (hle : page ≤ a) (hlt : a - page < 2 ^ 12) (hoffset : pr.freelistOffset = a - page) :
  firstFree pr = some a
  := by
  have hvalid : pr.freelistOffset ≠ invalidOffset := by
    simp only [invalidOffset]
    omega
  rw [firstFree, if_neg hvalid, hpage, hoffset, Nat.add_sub_cancel' hle]

/-- The heap `s'` is `s` but for the free list of the pageref `i`, which lost its first
block `a`. -/
structure Popped (s s' : Kheap) (i a : ℕ) : Prop where
  refs : SameRefs s s' i
  mem : s'.mem = s.mem
  nfree : (s'.pagerefs i).nfree + 1 = (s.pagerefs i).nfree
  first : firstFree (s'.pagerefs i) = nextFree s a

/-- `doalloc` returns the first free block, and takes it off the free list. -/
theorem doalloc_popped {a : ℕ} {rest : List ℕ} (h : Core s live all same free) (hi : i ∈ all)
    (hfree : free i = a :: rest) :
  wp (doalloc i) s (fun r s' => r = a ∧ Popped s s' i a)
  := by
  have hpage := h.page i hi
  have hnfree := hpage.nfree_le
  have hblocks := (blocks_le hpage.blocktype_lt).2
  have hlen := hpage.length_eq
  have hlinked := hpage.linked
  rw [hfree, Linked.cons_iff] at hlinked
  obtain ⟨hfirst, hrest⟩ := hlinked
  have ha := offset_of_firstFree hfirst
  have hain := h.slot_bounds hi (hpage.isSlot (a := a) (by simp [hfree]))
  rw [hfree, List.length_cons] at hlen
  have hret : u32 ((s.pagerefs i).pageaddr + (s.pagerefs i).freelistOffset) = a := by
    rw [← ha]
    apply u32_of_lt
    omega
  have hdec : u16 ((s.pagerefs i).nfree + (2 ^ 16 - 1)) = rest.length := by
    simp only [u16]
    omega
  have hoffset : (s.pagerefs i).freelistOffset < pageSize := by
    simp only [pageSize]
    omega
  simp only [doalloc, wp_bind, wp_get, wp_assert, wp_modify,
    wp_ite, wp_pure, hret, hdec, setPageref_setPageref]
  use hoffset
  constructor
  · -- a block follows: it is the new first one
    intro hfl
    cases rest with
    | nil => simp [nextFree, hfl] at hrest
    | cons c rest =>
      rw [Linked.cons_iff, nextFree, if_neg hfl, Option.some.injEq] at hrest
      obtain ⟨hc, -⟩ := hrest
      have hcin := h.slot_bounds hi (hpage.isSlot (a := c) (by simp [hfree]))
      have hoff : toU32 ((s.load a : ℤ) - (s.pagerefs i).pageaddr)
          = c - (s.pagerefs i).pageaddr := by
        rw [hc, toU32]
        omega
      have hu16 : u16 (c - (s.pagerefs i).pageaddr) = c - (s.pagerefs i).pageaddr := by
        apply u16_of_lt
        omega
      rw [List.length_cons] at hlen
      rw [hoff, hu16]
      use by simp, by simp only [pageSize]; omega, trivial
      constructor
      · exact ⟨_, _, s.mem, rfl⟩
      · rfl
      · rw [setPageref_pagerefs_self, List.length_cons]
        omega
      · rw [setPageref_pagerefs_self, nextFree, if_neg hfl, hc]
        exact firstFree_eq_some (s.pagerefs i).pageaddr rfl hcin.1 (by omega) rfl
  · -- the list is empty now
    intro hfl
    simp only [ne_eq, not_not] at hfl
    cases rest with
    | nil =>
      use rfl, trivial
      constructor
      · exact ⟨_, _, s.mem, rfl⟩
      · rfl
      · rw [setPageref_pagerefs_self, ← hlen]
      · rw [setPageref_pagerefs_self, nextFree, if_pos hfl, firstFree, if_pos rfl]
    | cons c rest => simp [nextFree, hfl] at hrest

/-- A caller gets the first free block of a page. -/
theorem Popped.core {a sz : ℕ} {rest : List ℕ} (hpop : Popped s s' i a)
    (h : Core s live all same free) (hi : i ∈ all) (hfree : free i = a :: rest)
    (hsz : sz < largestSubpageSize)
    (htype : blocktypeFrom sz nsizes 0 = some (s.pagerefs i).blocktype) :
  Core s' (⟨a, sz⟩ :: live) all same (Function.update free i rest)
  := by
  have hpage := h.page i hi
  have hload : ∀ x, s'.load x = s.load x := by
    intro x
    rw [load, hpop.mem, ← load]
  obtain ⟨haslot, halive⟩ := (hpage.mem_iff a).mp (by simp [hfree])
  have hnodup := hpage.nodup
  rw [hfree, List.nodup_cons] at hnodup
  apply h.change_page hi hpop.refs
  · constructor
    · rw [hpop.refs.blocktype_eq]
      apply hpage.blocktype_lt
    · rw [hpop.refs.pageaddr_eq, hpop.refs.pages_eq.1]
      apply hpage.page_mem
    · have hlinked := hpage.linked
      rw [hfree, Linked.cons_iff] at hlinked
      rw [hpop.first]
      apply hlinked.2.congr
      intro x _
      rw [nextFree, hload, ← nextFree]
    · apply hnodup.2
    · intro x
      have hx := hpage.mem_iff x
      rw [hfree, List.mem_cons] at hx
      rw [hpop.refs.isSlot_iff, List.forall_mem_cons]
      constructor
      · intro hmem
        obtain ⟨hslot, hlive⟩ := hx.mp (.inr hmem)
        refine ⟨hslot, ?_, hlive⟩
        rintro rfl
        apply hnodup.1 hmem
      · rintro ⟨hslot, hne, hlive⟩
        rcases hx.mpr ⟨hslot, hlive⟩ with rfl | hmem
        · exact absurd rfl hne
        · apply hmem
    · have hlen := hpage.length_eq
      rw [hfree, List.length_cons, ← hpop.nfree] at hlen
      omega
  · intro j _ _ x _
    apply hload
  · intro b hb
    rcases List.mem_cons.mp hb with rfl | hb
    · right
      exact ⟨hsz, haslot, htype⟩
    · left
      apply hb
  · intro b hb
    left
    apply List.mem_cons_of_mem _ hb
  · rw [List.map_cons, List.nodup_cons]
    use by
      rw [List.mem_map]
      rintro ⟨b, hb, hba⟩
      apply halive b hb hba
    apply h.live_nodup

/-! ### Filling a fresh page -/

theorem load_store_of_ne {a c v : ℕ} (h : a / 4 ≠ c / 4) :
  (store c v s).load a = s.load a
  := by
  simp [load, store, h]

@[simp]
theorem load_store_self (c v : ℕ) :
  (store c v s).load c = v
  := by
  simp [load, store]

/-- The loop links each block to the one before it, and writes to no other word. -/
theorem linkBlocks_spec {fla size : ℕ} (hsize : 16 ≤ size) :
    ∀ {n i : ℕ} {s : Kheap}, 1 ≤ i → fla + (i + n) * size < 2 ^ 32 + size →
      wp (linkBlocks fla size n i) s
        (fun _ s' => (∃ mem, s' = { s with mem := mem })
          ∧ (∀ j, i ≤ j → j < i + n → s'.load (fla + j * size) = fla + (j - 1) * size)
          ∧ ∀ a, (∀ j, i ≤ j → j < i + n → a / 4 ≠ (fla + j * size) / 4) →
              s'.load a = s.load a)
  | 0, i, s, hi, hend => by
      simp only [linkBlocks, wp_pure]
      use ⟨s.mem, rfl⟩
      constructor
      · intro j hj hlt
        omega
      · intro a _
        trivial
  | n + 1, i, s, hi, hend => by
      have hprev : (i - 1) * size + size = i * size := by
        rw [← Nat.succ_mul, Nat.succ_eq_add_one, Nat.sub_add_cancel hi]
      have hnext : (i + (n + 1)) * size = i * size + n * size + size := by
        rw [← Nat.add_assoc, Nat.add_mul, Nat.one_mul, Nat.add_mul]
      have hfl : u32 (fla + i * size) = fla + i * size := by
        apply u32_of_lt
        omega
      have hval : u32 (fla + (i - 1) * size) = fla + (i - 1) * size := by
        apply u32_of_lt
        omega
      have hend' : fla + (i + 1 + n) * size < 2 ^ 32 + size := by
        rw [Nat.add_assoc, Nat.add_comm 1 n]
        apply hend
      simp only [linkBlocks, wp_bind, wp_modify, wp_get, wp_assert, hfl, hval, load_store_self]
      use by omega
      apply wp_imp (linkBlocks_spec hsize (by omega) hend')
      rintro _ s' ⟨⟨mem, rfl⟩, hlinks, hother⟩
      use ⟨mem, rfl⟩
      constructor
      · intro j hj hlt
        rcases Nat.eq_or_lt_of_le hj with rfl | hj
        · -- the later blocks do not overwrite this one
          rw [hother, load_store_self]
          intro k hk _
          have hmul := mul_add_le_mul hk size
          omega
        · apply hlinks j hj (by omega)
      · intro a ha
        rw [hother, load_store_of_ne (ha i (Nat.le_refl i) (by omega))]
        intro j hj hlt
        apply ha j (by omega) (by omega)

/-- The heap `s'` is `s` with the page at `page` filled with free blocks, and its pageref
on the two lists. -/
structure Filled (s s' : Kheap) (i page b : ℕ) : Prop where
  ref : s'.pagerefs i
    = ⟨s.sizebases b, s.allbase, mkpab page b, (pageSize / sizes b - 1) * sizes b,
        pageSize / sizes b⟩
  pagerefs : ∀ j, j ≠ i → s'.pagerefs j = s.pagerefs j
  pagerefsInuse : s'.pagerefsInuse = s.pagerefsInuse
  sizebases : s'.sizebases = Function.update s.sizebases b (some i)
  allbase : s'.allbase = some i
  pages : s'.pages = s.pages
  freed : s'.freed = s.freed
  first : s'.load page = 0
  links : ∀ j, 1 ≤ j → j < pageSize / sizes b →
    s'.load (page + j * sizes b) = page + (j - 1) * sizes b
  mem : ∀ a, a < page ∨ page + pageSize ≤ a → s'.load a = s.load a

theorem fillPage_spec {page b : ℕ} (hb : b < nsizes) (hpage : Proper ⟨page, 1⟩) :
  wp (fillPage i page b) s (fun _ s' => Filled s s' i page b)
  := by
  have hsize := sizes_le hb
  have hblocks := blocks_le hb
  have hmul := sizes_mul_blocks hb
  have hend := hpage.end_lt
  obtain ⟨q, hq⟩ := hpage.aligned
  generalize hn : pageSize / sizes b = n at *
  simp only [pageSize, Nat.one_mul] at hend hq hmul
  have hlast : (n - 1) * sizes b + sizes b = n * sizes b := by
    rw [← Nat.succ_mul, Nat.succ_eq_add_one, Nat.sub_add_cancel (by omega)]
  have hnfree : u16 n = n := u16_of_lt (by omega)
  have hfla : u32 (page + (n - 1) * sizes b) = page + (n - 1) * sizes b := by
    apply u32_of_lt
    omega
  have hoffset : u16 (toU32 (((page + (n - 1) * sizes b : ℕ) : ℤ) - page))
      = (n - 1) * sizes b := by
    simp only [toU32, u16]
    omega
  have hloop : page + (1 + (n - 1)) * sizes b < 2 ^ 32 + sizes b := by
    rw [Nat.add_comm 1, Nat.sub_add_cancel (by omega)]
    omega
  simp only [fillPage, hn, wp_bind, wp_modify, hnfree, hfla, hoffset, wp_assert]
  apply wp_imp (linkBlocks_spec hsize.1 (Nat.le_refl 1) hloop)
  rintro _ _ ⟨⟨mem, rfl⟩, hlinks, hother⟩
  use trivial
  constructor
  · simp [setPageref, store, hn]
  · intro j hj
    simp [setPageref, store, hj]
  · rfl
  · rfl
  · rfl
  · rfl
  · rfl
  · apply (hother page _).trans (load_store_self page 0)
    intro j hj _
    have hle : 1 * sizes b ≤ j * sizes b := Nat.mul_le_mul_right _ hj
    omega
  · intro j hj hlt
    apply hlinks j hj
    omega
  · intro a ha
    simp only [pageSize] at ha
    apply (hother a _).trans
    · apply load_store_of_ne
      omega
    · intro j hj hlt
      have hle := mul_add_le_mul (show j < n by omega) (sizes b)
      omega

/-- A block that a caller holds is not on a page that is apart from the heap's. -/
theorem Core.live_off (h : Core s live all same free) {p : Pages} {b : Block}
    (hp : ∀ q ∈ s.pages, Apart p q) (hb : b ∈ live) :
  b.addr < p.addr ∨ p.addr + p.npages * pageSize ≤ b.addr
  := by
  obtain ⟨q, hq, hle, hlt⟩ := h.live_on hb
  rcases hp q hq with hbelow | habove
  · right
    exact Nat.le_trans hbelow hle
  · left
    exact Nat.lt_of_lt_of_le hlt habove

section Fresh

variable {s₀ : Kheap} {page b : ℕ}

/-- The heap before `fillPage` is `s` with a pageref and a page that it just got. -/
structure Got (s s₀ : Kheap) (i page : ℕ) : Prop where
  clear : BitWords.getBit s.pagerefsInuse i = false
  lt : i < npagerefs
  proper : Proper ⟨page, 1⟩
  apart : ∀ p ∈ s.pages, Apart ⟨page, 1⟩ p
  eq : s₀ = { s with
    pagerefsInuse := BitWords.setBit s.pagerefsInuse i
    pages := ⟨page, 1⟩ :: s.pages }

namespace Filled

variable (hfill : Filled s₀ s' i page b)
include hfill

theorem pageaddr_self (hb : b < nsizes) (hpage : Proper ⟨page, 1⟩) :
  (s'.pagerefs i).pageaddr = page ∧ (s'.pagerefs i).blocktype = b
  := by
  have hlt : page < 2 ^ 32 := Nat.lt_of_le_of_lt (Nat.le_add_right _ _) hpage.end_lt
  rw [hfill.ref]
  apply unpack_mkpab hpage.aligned hlt hb

/-- The free list of a page that was just filled has all its blocks, the last one first. -/
theorem pageOk (hb : b < nsizes) (hpage : Proper ⟨page, 1⟩) (hmem : ⟨page, 1⟩ ∈ s'.pages)
    (hoff : ∀ c ∈ live, c.addr < page ∨ page + pageSize ≤ c.addr) :
  PageOk s' live (slots (s'.pagerefs i)).reverse i
  := by
  obtain ⟨haddr, htype⟩ := hfill.pageaddr_self hb hpage
  have hblocks := blocks_le hb
  have hpos := hpage.pos
  simp only at hpos
  constructor
  · rw [htype]
    apply hb
  · rw [haddr]
    apply hmem
  · have hlast := sizes_mul_blocks hb
    have hsize := sizes_le hb
    have hpred : pageSize / sizes b - 1 + 1 = pageSize / sizes b :=
      Nat.sub_add_cancel (by omega)
    rw [← hpred, Nat.add_mul, Nat.one_mul] at hlast
    simp only [pageSize] at hlast
    have hfirst : firstFree (s'.pagerefs i)
        = some (page + (pageSize / sizes b - 1) * sizes b) := by
      apply firstFree_eq_some page haddr (Nat.le_add_right _ _)
      · rw [Nat.add_sub_cancel_left]
        simp only [pageSize]
        omega
      · rw [hfill.ref, Nat.add_sub_cancel_left]
    rw [hfirst, slots, haddr, htype, ← hpred]
    apply Linked.reverse_range (f := fun j => page + j * sizes b)
    · simp [nextFree, hfill.first]
    · intro j hj
      have hload := hfill.links (j + 1) (by omega) (by omega)
      rw [nextFree, hload, Nat.add_sub_cancel, if_neg (by omega)]
  · rw [List.nodup_reverse]
    apply nodup_slots
    rw [htype]
    apply hb
  · intro a
    rw [List.mem_reverse, mem_slots]
    constructor
    · intro ha
      use ha
      rintro c hc rfl
      have hin := ha.mem_page (htype ▸ hb)
      have hsize := sizes_le (htype ▸ hb : (s'.pagerefs i).blocktype < nsizes)
      rw [haddr] at hin
      rcases hoff c hc with h | h
      · omega
      · omega
    · rintro ⟨ha, -⟩
      apply ha
  · rw [List.length_reverse, length_slots, htype, hfill.ref]

theorem pagerefs_of_mem (hgot : Got s s₀ i page) (h : Core s live all same free) {j : ℕ}
    (hj : j ∈ all) :
  j ≠ i ∧ s'.pagerefs j = s.pagerefs j
  := by
  have hne : j ≠ i := by
    rintro rfl
    have hset := (h.mem_all j).mp hj
    rw [hgot.clear] at hset
    contradiction
  use hne
  rw [hfill.pagerefs j hne, hgot.eq]

/-- The heap is in order after it got a page for blocks of the type `b` and filled it. -/
theorem core (hgot : Got s s₀ i page) (hb : b < nsizes) (h : Core s live all same free) :
  Core s' live (i :: all) (Function.update same b (i :: same b))
    (Function.update free i (slots (s'.pagerefs i)).reverse)
  := by
  obtain ⟨haddr, htype⟩ := hfill.pageaddr_self hb hgot.proper
  have hold : ∀ {j}, j ∈ all → j ≠ i ∧ s'.pagerefs j = s.pagerefs j :=
    fun hj => hfill.pagerefs_of_mem hgot h hj
  have hnew : i ∉ all := fun hi => (hold hi).1 rfl
  have hoff : ∀ c ∈ live, c.addr < page ∨ page + pageSize ≤ c.addr := by
    intro c hc
    have hc' := h.live_off hgot.apart hc
    simpa using hc'
  have hok := fun hmem => hfill.pageOk hb hgot.proper hmem hoff
  obtain ⟨refs, _, _, _, _, _, _⟩ := s'
  obtain ⟨-, hlt, hproper, hapart, rfl⟩ := hgot
  obtain ⟨href, -, rfl, rfl, rfl, rfl, rfl, -, -, hmem⟩ := hfill
  constructor
  · rw [BitWords.length_setBit]
    apply h.inuse_length
  · rw [Linked.cons_iff]
    use rfl
    rw [href]
    apply h.all_linked.congr
    intro j hj
    rw [(hold hj).2]
  · rw [List.nodup_cons]
    exact ⟨hnew, h.all_nodup⟩
  · intro j
    have hlt : i < 32 * s.pagerefsInuse.length := by
      rw [h.inuse_length]
      apply hlt
    rw [BitWords.getBit_setBit (by decide) hlt, List.mem_cons, h.mem_all]
    simp only [Bool.or_eq_true, decide_eq_true_eq]
    rw [or_comm, eq_comm (a := i)]
  · intro c hc
    have hsame : ∀ j ∈ same c, (refs j).nextSamesize = (s.pagerefs j).nextSamesize := by
      intro j hj
      exact congrArg Pageref.nextSamesize (hold ((h.mem_same c hc j).mp hj).1).2
    dsimp only at href ⊢
    by_cases hcb : c = b
    · subst hcb
      rw [Function.update_self, Function.update_self, Linked.cons_iff]
      use rfl
      rw [href]
      apply (h.same_linked c hc).congr hsame
    · rw [Function.update_of_ne hcb, Function.update_of_ne hcb]
      apply (h.same_linked c hc).congr hsame
  · intro c hc
    by_cases hcb : c = b
    · subst hcb
      rw [Function.update_self, List.nodup_cons]
      use fun hi => hnew ((h.mem_same c hc i).mp hi).1
      apply h.same_nodup c hc
    · rw [Function.update_of_ne hcb]
      apply h.same_nodup c hc
  · intro c hc j
    by_cases hji : j = i
    · subst hji
      rw [htype]
      by_cases hcb : c = b
      · subst hcb
        simp
      · rw [Function.update_of_ne hcb, h.mem_same c hc]
        simp [hnew, Ne.symm hcb]
    · have hmem : j ∈ Function.update same b (i :: same b) c ↔ j ∈ same c := by
        by_cases hcb : c = b
        · subst hcb
          simp [hji]
        · rw [Function.update_of_ne hcb]
      rw [hmem, h.mem_same c hc, List.mem_cons, or_iff_right hji]
      constructor
      · rintro ⟨hj, hjc⟩
        use hj
        rw [(hold hj).2, hjc]
      · rintro ⟨hj, hjc⟩
        use hj
        rw [← (hold hj).2, hjc]
  · intro j hj
    by_cases hji : j = i
    · subst hji
      rw [Function.update_self]
      apply hok List.mem_cons_self
    · rw [Function.update_of_ne hji]
      replace hj := List.mem_of_ne_of_mem hji hj
      have hapart := hapart _ (h.page j hj).page_mem
      simp only [Apart, pageSize] at hapart
      apply (h.page j hj).frame
      · rw [(hold hj).2]
      · rw [(hold hj).2]
      · rw [(hold hj).2]
      · intro a ha
        have hin := h.slot_bounds hj ((h.page j hj).isSlot ha)
        apply hmem
        simp only [pageSize]
        omega
      · apply List.mem_cons_of_mem _ (h.page j hj).page_mem
      · intro a _
        rfl
  · intro j hj k hk
    have hne : ∀ l ∈ all, (s.pagerefs l).pageaddr ≠ page := by
      rintro l hl rfl
      have hapart := hapart _ (h.page l hl).page_mem
      simp only [Apart, pageSize] at hapart
      omega
    rcases List.mem_cons.mp hj with rfl | hj'
    · rcases List.mem_cons.mp hk with rfl | hk'
      · intro _
        rfl
      · rw [haddr, (hold hk').2]
        intro heq
        exact absurd heq.symm (hne k hk')
    · rcases List.mem_cons.mp hk with rfl | hk'
      · rw [haddr, (hold hj').2]
        intro heq
        exact absurd heq (hne j hj')
      · rw [(hold hj').2, (hold hk').2]
        apply h.page_inj j hj' k hk'
  · rw [List.forall_mem_cons]
    exact ⟨hproper, h.proper⟩
  · rw [List.pairwise_cons]
    exact ⟨hapart, h.apart⟩
  · rw [List.forall_mem_cons]
    constructor
    · left
      use rfl, i, List.mem_cons_self
    · intro p hp
      rcases h.owner p hp with ⟨hone, j, hj, hjp⟩ | hlarge
      · left
        use hone, j, List.mem_cons_of_mem i hj
        rw [(hold hj).2, hjp]
      · right
        apply hlarge
  · intro c hc hsz
    obtain ⟨j, hj, hslot, hjtype⟩ := h.small c hc hsz
    use j, List.mem_cons_of_mem i hj
    rw [(hold hj).2]
    exact ⟨hslot, hjtype⟩
  · intro c hc hsz
    obtain ⟨hmem, hne⟩ := h.large c hc hsz
    constructor
    · apply List.mem_cons_of_mem _ hmem
    · rw [List.forall_mem_cons]
      constructor
      · rw [haddr]
        have hpos : 0 < pageSize := by decide
        rcases hoff c hc with hlt | hle
        · omega
        · omega
      · intro j hj
        rw [(hold hj).2]
        apply hne j hj
  · apply h.live_nodup

end Filled

end Fresh

/-! ### `kmalloc` -/

/-- Every page of the heap has a block that a caller holds. -/
def NoneEmpty (s : Kheap) (all : List ℕ) : Prop :=
  ∀ i ∈ all, (s.pagerefs i).nfree < pageSize / sizes (s.pagerefs i).blocktype

/-- The invariant of the heap between two calls. -/
def Inv (s : Kheap) (live : List Block) : Prop :=
  ∃ all same free, Core s live all same free ∧ NoneEmpty s all

/-- The answers of `alloc_kpages`: nothing, or pages apart from those the heap has. -/
def FreshAnswer (s : Kheap) (answer : ℕ → ℕ) : Prop :=
  ∀ n, 0 < n → answer n = 0
    ∨ Proper ⟨answer n, n⟩ ∧ ∀ p ∈ s.pages, Apart ⟨answer n, n⟩ p

/-- What `kmalloc` leaves behind: no page is given back, and the caller has the block, if
there is one. -/
structure Allocated (s : Kheap) (live : List Block) (sz r : ℕ) (s' : Kheap) : Prop where
  none : r = 0 → Inv s' live
  some : r ≠ 0 → Inv s' (⟨r, sz⟩ :: live)
  pages : ∀ p ∈ s.pages, p ∈ s'.pages
  freed : s'.freed = s.freed

theorem Inv.allocated (h : Inv s live) (sz : ℕ) :
  Allocated s live sz 0 s
  := ⟨fun _ => h, fun hne => absurd rfl hne, fun _ hp => hp, rfl⟩

section

variable (h : Core s live all same free)
include h

/-- Only the set that the words `pagerefs_inuse` stand for matters. -/
theorem Core.change_inuse {ws : List (BitVec 32)} (hlen : ws.length = 8)
    (hbits : ∀ j, BitWords.getBit ws j = BitWords.getBit s.pagerefsInuse j) :
  Core { s with pagerefsInuse := ws } live all same free
  := by
  refine { h with inuse_length := hlen, mem_all := ?_, page := ?_ }
  · intro j
    rw [hbits]
    apply h.mem_all
  · intro j hj
    exact (h.page j hj).frame rfl rfl rfl (fun _ _ => rfl) (h.page j hj).page_mem
      (fun _ _ => Iff.rfl)

/-- A caller gets the first free block of a page, and every page has a block in use
afterwards if the other pages had one before. -/
theorem doalloc_spec {sz a : ℕ} {rest : List ℕ} (hi : i ∈ all) (hfree : free i = a :: rest)
    (hsz : sz < largestSubpageSize)
    (htype : blocktypeFrom sz nsizes 0 = some (s.pagerefs i).blocktype)
    (hothers : ∀ j ∈ all, j ≠ i →
      (s.pagerefs j).nfree < pageSize / sizes (s.pagerefs j).blocktype) :
  wp (doalloc i) s (fun r s' => Allocated s live sz r s')
  := by
  apply wp_imp (doalloc_popped h hi hfree)
  rintro r s' ⟨rfl, hpop⟩
  have hslot := (h.page i hi).isSlot (a := r) (by simp [hfree])
  have hpos := (h.page_proper hi).pos
  have hin := h.slot_bounds hi hslot
  simp only at hpos
  constructor
  · intro hr
    omega
  · intro _
    refine ⟨all, same, _, hpop.core h hi hfree hsz htype, ?_⟩
    intro j hj
    rw [hpop.refs.blocktype_eq]
    by_cases hji : j = i
    · subst hji
      have hle := (h.page j hj).nfree_le
      have hnfree := hpop.nfree
      omega
    · rw [hpop.refs.pagerefs_eq hji]
      apply hothers j hj hji
  · intro p hp
    rw [hpop.refs.pages_eq.1]
    apply hp
  · apply hpop.refs.pages_eq.2

theorem allocpageref_spec :
  wp allocpageref s
    (fun r s' => match r with
      | none => s' = s
      | some i => BitWords.getBit s.pagerefsInuse i = false ∧ i < npagerefs
          ∧ s' = { s with pagerefsInuse := BitWords.setBit s.pagerefsInuse i })
  := by
  simp only [allocpageref, wp_bind, wp_get]
  cases hfind : BitWords.findClear s.pagerefsInuse 0 with
  | full => simp
  | stuck => exact absurd hfind (BitWords.findClear_ne_stuck _ _)
  | found i =>
    obtain ⟨k, hk, hlt, hclear, -⟩ := BitWords.findClear_found (by decide) hfind
    rw [Nat.zero_add] at hk
    subst hk
    rw [h.inuse_length] at hlt
    simp only [wp_bind, wp_modify, wp_pure]
    exact ⟨hclear, hlt, trivial⟩

/-- The pageref that was taken for a page that could not be had is put back. -/
theorem freepageref_spec (hclear : BitWords.getBit s.pagerefsInuse i = false)
    (hlt : i < npagerefs) :
  wp (freepageref i) { s with pagerefsInuse := BitWords.setBit s.pagerefsInuse i }
    (fun _ s' => Core s' live all same free ∧ s'.pagerefs = s.pagerefs
      ∧ s'.pages = s.pages ∧ s'.freed = s.freed)
  := by
  have hlen : i < 32 * s.pagerefsInuse.length := by
    rw [h.inuse_length]
    apply hlt
  have hset : ∀ j, BitWords.getBit (BitWords.setBit s.pagerefsInuse i) j
      = (BitWords.getBit s.pagerefsInuse j || decide (i = j)) :=
    BitWords.getBit_setBit (by decide) hlen
  simp only [freepageref, wp_bind, wp_assert, wp_get, wp_modify]
  use hlt
  use by simp [hset]
  refine ⟨h.change_inuse ?_ ?_, trivial, trivial, trivial⟩
  · simp [h.inuse_length]
  · intro j
    rw [BitWords.getBit_clearBit (by decide), hset]
    by_cases hij : i = j
    · subst hij
      simp [hclear]
    · simp [hij]

/-- The path through a fresh page. -/
theorem fillPage_doalloc_spec {s₀ : Kheap} {page b sz : ℕ} (hnone : NoneEmpty s all)
    (hgot : Got s s₀ i page) (hsz : sz < largestSubpageSize)
    (hb : blocktypeFrom sz nsizes 0 = some b) (hbn : b < nsizes) :
  wp (fillPage i page b >>= fun _ => doalloc i) s₀
    (fun r s' => Allocated s live sz r s')
  := by
  rw [wp_bind]
  apply wp_imp (fillPage_spec hbn hgot.proper)
  intro _ s₁ hfill
  obtain ⟨-, htype⟩ := hfill.pageaddr_self hbn hgot.proper
  have hcore := hfill.core hgot hbn h
  have hlength : (slots (s₁.pagerefs i)).reverse.length = pageSize / sizes b := by
    rw [List.length_reverse, length_slots, htype]
  cases hlist : (slots (s₁.pagerefs i)).reverse with
  | nil =>
    have hblocks := blocks_le hbn
    rw [hlist, List.length_nil] at hlength
    omega
  | cons a rest =>
    have hothers : ∀ j ∈ i :: all, j ≠ i →
        (s₁.pagerefs j).nfree < pageSize / sizes (s₁.pagerefs j).blocktype := by
      intro j hj hji
      replace hj := List.mem_of_ne_of_mem hji hj
      rw [(hfill.pagerefs_of_mem hgot h hj).2]
      apply hnone j hj
    rw [← htype] at hb
    apply wp_imp
      (doalloc_spec hcore List.mem_cons_self ((Function.update_self ..).trans hlist) hsz hb
        hothers)
    intro r s' hr
    constructor
    · apply hr.none
    · apply hr.some
    · intro p hp
      apply hr.pages
      rw [hfill.pages, hgot.eq]
      apply List.mem_cons_of_mem _ hp
    · rw [hr.freed, hfill.freed, hgot.eq]

end

/-- `subpage_kmalloc` keeps the invariant. -/
theorem subpageKmalloc_spec {answer : ℕ → ℕ} {sz : ℕ} (h : Inv s live)
    (hanswer : FreshAnswer s answer) (hsz : sz < largestSubpageSize) :
  wp (subpageKmalloc answer sz) s (fun r s' => Allocated s live sz r s')
  := by
  have hunchanged := h.allocated sz
  obtain ⟨all, same, free, hcore, hnone⟩ := h
  obtain ⟨b, hb⟩ := exists_blocktype hsz
  have hbn : b < nsizes := by
    have hlt := (blocktypeFrom_eq_some hb).2.2
    omega
  have hsame : ∀ i ∈ same b, i ∈ all ∧ (s.pagerefs i).blocktype = b :=
    fun i hi => (hcore.mem_same b hbn i).mp hi
  have hlen : (same b).length < npagerefs + 1 := by
    apply Nat.lt_succ_of_le
    apply hcore.length_le (hcore.same_nodup b hbn)
    intro i hi
    apply (hsame i hi).1
  simp only [subpageKmalloc, blocktype, hb, wp_bind, wp_pure, wp_get]
  apply wp_imp (findFree_spec hlen (hcore.same_linked b hbn) (fun i hi => (hsame i hi).2))
  rintro r s' ⟨rfl, hr⟩
  cases r with
  | some i =>
    obtain ⟨hi, hfree⟩ := hr i rfl
    obtain ⟨hall, htype⟩ := hsame i hi
    have hlength := (hcore.page i hall).length_eq
    cases hlist : free i with
    | nil =>
      rw [hlist, List.length_nil] at hlength
      omega
    | cons a rest =>
      rw [← htype] at hb
      apply doalloc_spec hcore hall hlist hsz hb
      intro j hj _
      apply hnone j hj
  | none =>
    simp only [wp_bind]
    apply wp_imp (allocpageref_spec hcore)
    intro r s₁ hr
    cases r with
    | none =>
      rw [wp_pure, hr]
      exact hunchanged
    | some i =>
      obtain ⟨hclear, hlt, rfl⟩ := hr
      simp only [allocKpages, wp_bind, wp_ite, wp_pure, wp_modify]
      constructor
      · intro hzero
        simp only [forall_const, not_true_eq_false, false_implies, and_true]
        apply wp_imp (freepageref_spec hcore hclear hlt)
        rintro _ s₂ ⟨hcore₂, hrefs, hpages, hfreed⟩
        constructor
        · intro _
          refine ⟨all, same, free, hcore₂, ?_⟩
          intro j hj
          rw [hrefs]
          apply hnone j hj
        · intro hne
          exact absurd rfl hne
        · intro p hp
          rw [hpages]
          apply hp
        · apply hfreed
      · intro hpage
        obtain hzero | ⟨hproper, hapart⟩ := hanswer 1 (by decide)
        · exact absurd hzero hpage
        use fun hzero => absurd hzero hpage
        intro _
        apply wp_bind (fun _ => doalloc i) |>.mp
        apply fillPage_doalloc_spec hcore hnone _ hsz hb hbn
        exact ⟨hclear, hlt, hproper, hapart, rfl⟩

/-- A caller gets a run of pages. -/
theorem Core.add_large {a sz : ℕ} (h : Core s live all same free)
    (hsz : largestSubpageSize ≤ sz) (hproper : Proper ⟨a, npages sz⟩)
    (hapart : ∀ p ∈ s.pages, Apart ⟨a, npages sz⟩ p) :
  Core { s with pages := ⟨a, npages sz⟩ :: s.pages } (⟨a, sz⟩ :: live) all same free
  := by
  have hpos := hproper.npages_pos
  simp only at hpos
  -- no block of a pageref is at the new address
  have hne : ∀ i ∈ all, ∀ c, IsSlot (s.pagerefs i) c → a ≠ c := by
    rintro i hi c hc rfl
    have hin := h.slot_bounds hi hc
    have hi' := hapart _ (h.page i hi).page_mem
    simp only [Apart, pageSize] at hi'
    omega
  refine { h with
    page := ?_, proper := ?_, apart := ?_, owner := ?_, small := ?_, large := ?_, live_nodup := ?_ }
  · intro j hj
    refine (h.page j hj).frame rfl rfl rfl (fun _ _ => rfl) ?_ ?_
    · apply List.mem_cons_of_mem _ (h.page j hj).page_mem
    · intro c hc
      rw [List.forall_mem_cons]
      constructor
      · rintro ⟨-, hlive⟩
        apply hlive
      · intro hlive
        exact ⟨hne j hj c hc, hlive⟩
  · rw [List.forall_mem_cons]
    exact ⟨hproper, h.proper⟩
  · rw [List.pairwise_cons]
    exact ⟨hapart, h.apart⟩
  · rw [List.forall_mem_cons]
    constructor
    · right
      use ⟨a, sz⟩, List.mem_cons_self
    · intro p hp
      rcases h.owner p hp with hpage | ⟨b, hb, hbsz⟩
      · left
        apply hpage
      · right
        use b, List.mem_cons_of_mem _ hb
  · intro b hb hbsz
    rcases List.mem_cons.mp hb with rfl | hb
    · simp only at hbsz
      omega
    · apply h.small b hb hbsz
  · intro b hb hbsz
    rcases List.mem_cons.mp hb with rfl | hb
    · use List.mem_cons_self
      intro i hi heq
      have hi' := hapart _ (h.page i hi).page_mem
      simp only [Apart, pageSize] at hi'
      simp only at heq
      omega
    · obtain ⟨hmem, hoff⟩ := h.large b hb hbsz
      exact ⟨List.mem_cons_of_mem _ hmem, hoff⟩
  · rw [List.map_cons, List.nodup_cons]
    constructor
    · rw [List.mem_map]
      rintro ⟨b, hb, heq⟩
      have hoff := h.live_off hapart hb
      simp only [pageSize] at hoff heq
      omega
    · apply h.live_nodup

theorem npages_of_lt {sz : ℕ} (h : sz < 2 ^ 32 - 4096) :
  u32 (sz + pageSize - 1) / pageSize = npages sz
  := by
  simp only [npages, pageSize]
  rw [u32_of_lt (by omega)]
  rfl

/-- `kmalloc` does not panic, and keeps the invariant. -/
theorem kmalloc_spec {answer : ℕ → ℕ} {sz : ℕ} (h : Inv s live)
    (hanswer : FreshAnswer s answer) (hsz : sz < 2 ^ 32 - 4096) :
  wp (kmalloc answer sz) s (fun r s' => Allocated s live sz r s')
  := by
  rw [kmalloc, wp_ite]
  constructor
  · intro hlarge
    have hpos : 0 < npages sz := by
      simp only [largestSubpageSize] at hlarge
      simp only [npages, pageSize]
      omega
    rw [npages_of_lt hsz, allocKpages, wp_ite]
    constructor
    · intro hzero
      rw [wp_pure]
      exact h.allocated sz
    · intro hne
      simp only [wp_bind, wp_modify, wp_pure]
      obtain hzero | ⟨hproper, hapart⟩ := hanswer (npages sz) hpos
      · exact absurd hzero hne
      · obtain ⟨all, same, free, hcore, hnone⟩ := h
        constructor
        · intro hzero
          exact absurd hzero hne
        · intro _
          exact ⟨all, same, free, hcore.add_large hlarge hproper hapart, hnone⟩
        · intro p hp
          apply List.mem_cons_of_mem _ hp
        · rfl
  · intro hsmall
    apply subpageKmalloc_spec h hanswer (Nat.lt_of_not_le hsmall)

end Kheap
