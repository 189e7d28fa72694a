import AzureSpider.Kheap.Release

/-!
# Safety of the kernel heap

A session is a heap with the blocks that callers of `kmalloc` hold.  It goes on with calls
of `kmalloc`, with calls of `kfree` on `NULL` or on a block that is held, and with writes by
the callers to the blocks they hold and to memory that the heap does not have.  In every
session that starts with the empty heap, blocks that are held do not overlap, the lists of
the heap are what they should be, no call panics, and a page is given back exactly when the
last block on it is.
-/

open Machine Routine

namespace Kheap

variable {s s' : Kheap} {live : List Block} {all : List ℕ} {same free : ℕ → List ℕ} {i : ℕ}

/-- The address `x` lies in the block that is set aside for a caller. -/
def Block.Mem (x : ℕ) (b : Block) : Prop := b.addr ≤ x ∧ x < b.addr + extent b.sz

/-- Two blocks have no byte in common. -/
def Block.Disjoint (b c : Block) : Prop := ∀ x, b.Mem x → ¬ c.Mem x

/-- A heap, and the blocks that callers hold. -/
structure Session where
  heap : Kheap
  live : List Block

/-- The variables of `kheap.c` as they are initialised, with any memory. -/
def empty (mem : ℕ → ℕ) : Kheap where
  pagerefs _ := ⟨none, none, 0, 0, 0⟩
  pagerefsInuse := List.replicate 8 0
  sizebases _ := none
  allbase := none
  mem := mem
  pages := []
  freed := []

/-- How a session goes on. -/
inductive Step : Session → Session → Prop
  | kmalloc {h : Session} {s' : Kheap} (answer : ℕ → ℕ) (sz r : ℕ)
      (hsz : sz < 2 ^ 32 - 4096) (hanswer : FreshAnswer h.heap answer)
      (hrun : kmalloc answer sz h.heap = .ok r s') :
      Step h ⟨s', if r = 0 then h.live else ⟨r, sz⟩ :: h.live⟩
  | kfree {h : Session} {s' : Kheap} (ptr : ℕ) (hptr : ptr = 0 ∨ ∃ b ∈ h.live, b.addr = ptr)
      (hrun : kfree ptr h.heap = .ok () s') :
      Step h ⟨s', h.live.filter fun b => b.addr ≠ ptr⟩
  | write {h : Session} (mem : ℕ → ℕ)
      (hmem : ∀ w, mem w ≠ h.heap.mem w →
        (∃ b ∈ h.live, b.Mem (4 * w)) ∨ ∀ p ∈ h.heap.pages, ¬ OnPages (4 * w) p) :
      Step h ⟨{ h.heap with mem := mem }, h.live⟩

/-- The sessions that start with the empty heap. -/
def Reach (h : Session) : Prop :=
  ∃ mem, Relation.ReflTransGen Step ⟨empty mem, []⟩ h

/-! ### What sessions keep -/

theorem extent_of_small {b : Block} {t : ℕ} (hsz : b.sz < largestSubpageSize)
    (ht : blocktypeFrom b.sz nsizes 0 = some t) :
  extent b.sz = sizes t
  := by
  rw [extent, if_neg (Nat.not_le.mpr hsz), ht, Option.getD_some]

theorem extent_of_large {b : Block} (hsz : largestSubpageSize ≤ b.sz) :
  extent b.sz = npages b.sz * pageSize
  := if_pos hsz

theorem le_extent (sz : ℕ) :
  sz ≤ extent sz
  := by
  by_cases hsz : largestSubpageSize ≤ sz
  · rw [extent, if_pos hsz]
    simp only [npages, pageSize]
    omega
  · obtain ⟨t, ht⟩ := exists_blocktype (Nat.lt_of_not_le hsz)
    rw [extent, if_neg hsz, ht]
    apply (blocktypeFrom_eq_some ht).1

namespace Core

variable (h : Core s live all same free)
include h

/-- A block of a page does not overlap with the blocks elsewhere that callers hold. -/
theorem slot_apart (hi : i ∈ all) {a : ℕ} (ha : IsSlot (s.pagerefs i) a) {b : Block} (hb : b ∈ live)
    (hne : b.addr ≠ a) :
  a + sizes (s.pagerefs i).blocktype ≤ b.addr ∨ b.addr + extent b.sz ≤ a
  := by
  have hin := ha.mem_page (h.page i hi).blocktype_lt
  simp only [pageSize] at hin
  by_cases hsz : largestSubpageSize ≤ b.sz
  · have hapart := h.large_apart hi hb hsz
    rw [extent_of_large hsz]
    simp only [pageSize] at hapart ⊢
    omega
  · have hsmall := Nat.lt_of_not_le hsz
    obtain ⟨j, hj, hslot, htype⟩ := h.small b hb hsmall
    rw [extent_of_small hsmall htype]
    by_cases hij : i = j
    · subst hij
      apply ha.apart hslot hne.symm
    · have hapart := h.page_apart hi hj hij
      have hinb := hslot.mem_page (h.page j hj).blocktype_lt
      simp only [pageSize] at hapart hinb
      omega

theorem disjoint {b c : Block} (hb : b ∈ live) (hc : c ∈ live) (hne : b.addr ≠ c.addr) :
  b.Disjoint c
  := by
  intro x hx hx'
  simp only [Block.Mem] at hx hx'
  by_cases hsz : largestSubpageSize ≤ b.sz
  · by_cases hcsz : largestSubpageSize ≤ c.sz
    · have hapart := h.apart.forall (h.large b hb hsz).1 (h.large c hc hcsz).1
        (fun heq => hne (congrArg Pages.addr heq))
      rw [extent_of_large hsz] at hx
      rw [extent_of_large hcsz] at hx'
      simp only [Apart] at hapart
      omega
    · have hsmall := Nat.lt_of_not_le hcsz
      obtain ⟨j, hj, hslot, htype⟩ := h.small c hc hsmall
      have hapart := h.slot_apart hj hslot hb hne
      rw [extent_of_small hsmall htype] at hx'
      omega
  · have hsmall := Nat.lt_of_not_le hsz
    obtain ⟨i, hi, hslot, htype⟩ := h.small b hb hsmall
    have hapart := h.slot_apart hi hslot hc hne.symm
    rw [extent_of_small hsmall htype] at hx
    omega

theorem addr_pos {b : Block} (hb : b ∈ live) :
  0 < b.addr
  := by
  obtain ⟨p, hp, hle, -⟩ := h.live_on hb
  exact Nat.lt_of_lt_of_le (h.proper p hp).pos hle

/-- The callers' writes do not reach the free blocks. -/
theorem write {mem : ℕ → ℕ}
    (hmem : ∀ w, mem w ≠ s.mem w →
      (∃ b ∈ live, b.Mem (4 * w)) ∨ ∀ p ∈ s.pages, ¬ OnPages (4 * w) p) :
  Core { s with mem := mem } live all same free
  := by
  refine { h with page := ?_ }
  intro j hj
  have hpage := h.page j hj
  refine hpage.frame rfl rfl rfl ?_ hpage.page_mem (fun _ _ => Iff.rfl)
  intro a ha
  obtain ⟨hslot, hfree⟩ := (hpage.mem_iff a).mp ha
  have haligned := hslot.aligned hpage.blocktype_lt (h.page_proper hj).aligned
  have hin := h.slot_bounds hj hslot
  have hword : 4 * (a / 4) = a := by omega
  by_contra hne
  rcases hmem (a / 4) hne with ⟨b, hb, hmemb⟩ | hoff
  · have hapart := h.slot_apart hj hslot hb (hfree b hb)
    have hsize := sizes_le hpage.blocktype_lt
    rw [hword, Block.Mem] at hmemb
    omega
  · apply hoff _ hpage.page_mem
    rw [hword]
    simp only [OnPages, pageSize]
    omega

end Core

theorem inv_empty (mem : ℕ → ℕ) :
  Inv (empty mem) []
  := by
  refine ⟨[], fun _ => [], fun _ => [], ?_, by simp [NoneEmpty]⟩
  constructor
  · rfl
  · rw [Linked.nil_iff]
    rfl
  · apply List.nodup_nil
  · intro i
    rw [empty, BitWords.getBit_replicate_zero]
    simp
  · intro b _
    rw [Linked.nil_iff]
    rfl
  · intro b _
    apply List.nodup_nil
  · simp
  · simp
  · simp
  · simp [empty]
  · simp [empty]
  · simp [empty]
  · simp
  · simp
  · simp

theorem Step.inv {h h' : Session} (hstep : Step h h') (hinv : Inv h.heap h.live) :
  Inv h'.heap h'.live
  := by
  cases hstep with
  | kmalloc answer sz r hsz hanswer hrun =>
    have halloc := wp_ok (kmalloc_spec hinv hanswer hsz) hrun
    simp only
    split
    next hr => apply halloc.none hr
    next hr => apply halloc.some hr
  | kfree ptr hptr hrun =>
    rcases hptr with rfl | ⟨b, hb, rfl⟩
    · simp only [Kheap.kfree, if_true, pure_eq_ok, true_and] at hrun
      subst hrun
      obtain ⟨all, same, free, hcore, hnone⟩ := hinv
      have hfilter : h.live.filter (fun b => b.addr ≠ 0) = h.live := by
        rw [List.filter_eq_self]
        intro b hb
        rw [decide_eq_true_eq]
        apply (hcore.addr_pos hb).ne'
      rw [hfilter]
      exact ⟨all, same, free, hcore, hnone⟩
    · apply (wp_ok (kfree_spec hinv hb) hrun).inv
  | write mem hmem =>
    obtain ⟨all, same, free, hcore, hnone⟩ := hinv
    exact ⟨all, same, free, hcore.write hmem, hnone⟩

variable {h : Session}

theorem Reach.inv (hreach : Reach h) :
  Inv h.heap h.live
  := by
  obtain ⟨mem, hreach⟩ := hreach
  induction hreach with
  | refl => apply inv_empty
  | tail _ hstep ih => apply hstep.inv ih

/-! ### Safety -/

/-- The state of a session is as it should be. -/
structure Safe (h : Session) : Prop where
  sized : ∀ b ∈ h.live, 0 < b.addr ∧ b.sz ≤ extent b.sz
  disjoint : h.live.Pairwise Block.Disjoint
  freelist : ∀ i, BitWords.getBit h.heap.pagerefsInuse i = true →
    ∃ fl, PageOk h.heap h.live fl i
  all : ∃ l, Linked (fun i => (h.heap.pagerefs i).nextAll) h.heap.allbase l ∧ l.Nodup
    ∧ ∀ i, i ∈ l ↔ BitWords.getBit h.heap.pagerefsInuse i = true
  samesize : ∀ b < nsizes,
    ∃ l, Linked (fun i => (h.heap.pagerefs i).nextSamesize) (h.heap.sizebases b) l ∧ l.Nodup
      ∧ ∀ i, i ∈ l ↔ BitWords.getBit h.heap.pagerefsInuse i = true
        ∧ (h.heap.pagerefs i).blocktype = b

/-- A call of `kmalloc` goes well: it returns, what it returns is `NULL` or a block apart
from those that are held, and no page is given back. -/
def KmallocRight (h : Session) (answer : ℕ → ℕ) (sz : ℕ) : Prop :=
  ∃ r s', kmalloc answer sz h.heap = .ok r s'
    ∧ (r ≠ 0 → ∀ b ∈ h.live, Block.Disjoint ⟨r, sz⟩ b)
    ∧ (∀ p ∈ h.heap.pages, p ∈ s'.pages) ∧ s'.freed = h.heap.freed

/-- A call of `kfree` on a block that is held goes well: it returns, and the pages that the
block is on are given back exactly when no other block on them is held. -/
def KfreeRight (h : Session) (ptr : ℕ) : Prop :=
  ∃ s', kfree ptr h.heap = .ok () s' ∧ ∃ p ∈ h.heap.pages, OnPages ptr p
    ∧ GivenBackIf (∀ c ∈ h.live, c.addr ≠ ptr → ¬ OnPages c.addr p) p.addr h.heap s'

theorem Inv.safe (hinv : Inv h.heap h.live) :
  Safe h
  := by
  obtain ⟨all, same, free, hcore, -⟩ := hinv
  constructor
  · intro b hb
    exact ⟨hcore.addr_pos hb, le_extent b.sz⟩
  · have hnodup := hcore.live_nodup
    rw [List.Nodup, List.pairwise_map] at hnodup
    apply hnodup.imp_of_mem
    intro b c hb hc hne
    apply hcore.disjoint hb hc hne
  · intro i hi
    use free i
    apply hcore.page i ((hcore.mem_all i).mpr hi)
  · use all
    exact ⟨hcore.all_linked, hcore.all_nodup, hcore.mem_all⟩
  · intro b hb
    use same b
    refine ⟨hcore.same_linked b hb, hcore.same_nodup b hb, ?_⟩
    intro i
    rw [hcore.mem_same b hb, hcore.mem_all]

theorem Inv.kmallocRight {answer : ℕ → ℕ} {sz : ℕ} (hinv : Inv h.heap h.live)
    (hanswer : FreshAnswer h.heap answer) (hsz : sz < 2 ^ 32 - 4096) :
  KmallocRight h answer sz
  := by
  obtain ⟨r, s', hrun, halloc⟩ := exists_ok (kmalloc_spec hinv hanswer hsz)
  refine ⟨r, s', hrun, ?_, halloc.pages, halloc.freed⟩
  intro hr b hb
  obtain ⟨all, same, free, hcore, -⟩ := halloc.some hr
  have hnodup := hcore.live_nodup
  rw [List.map_cons, List.nodup_cons] at hnodup
  apply hcore.disjoint List.mem_cons_self (List.mem_cons_of_mem _ hb)
  intro heq
  apply hnodup.1
  simp only at heq ⊢
  rw [heq]
  apply List.mem_map_of_mem hb

/-- In every session, blocks that are held have the size that was asked for and do not
overlap; the free list of each page in use has no cycle and holds exactly the blocks of the
page that nobody holds, `nfree` of them; the lists `allbase` and `sizebases` hold exactly
the pagerefs in use; no call of `kmalloc` or `kfree` panics; and `kfree` gives the pages of
a block back exactly when no other block on them is held. -/
theorem heap_safe (hreach : Reach h) :
  Safe h
    ∧ (∀ answer sz, FreshAnswer h.heap answer → sz < 2 ^ 32 - 4096 →
        KmallocRight h answer sz)
    ∧ (∀ b ∈ h.live, KfreeRight h b.addr)
    ∧ kfree 0 h.heap = .ok () h.heap
  := by
  have hinv := hreach.inv
  refine ⟨hinv.safe, ?_, ?_, rfl⟩
  · intro answer sz hanswer hsz
    apply hinv.kmallocRight hanswer hsz
  · intro b hb
    obtain ⟨_, s', hrun, hrel⟩ := exists_ok (kfree_spec hinv hb)
    exact ⟨s', hrun, hrel.pages⟩

/-- A session in which 2000 bytes are asked for, with one fresh page, and then 1500 bytes. -/
theorem heap_safe_two_blocks :
  ∃ h : Session, h.live = [⟨0x80001000, 1500⟩, ⟨0x80001800, 2000⟩] ∧ Safe h
    ∧ KfreeRight h 0x80001000
  := by
  have hanswer : FreshAnswer (empty fun _ => 0) (fun n => if n = 1 then 0x80001000 else 0) := by
    intro n hn
    by_cases hone : n = 1
    · right
      subst hone
      exact ⟨⟨by decide, by decide, by decide, by decide⟩, by simp [empty]⟩
    · left
      simp [hone]
  obtain ⟨s, hrun⟩ : ∃ s, kmalloc (fun n => if n = 1 then 0x80001000 else 0) 2000
      (empty fun _ => 0) = .ok 0x80001800 s := by decide
  obtain ⟨s', hrun'⟩ : ∃ s', (kmalloc (fun n => if n = 1 then 0x80001000 else 0) 2000
      >>= fun _ => kmalloc (fun _ => 0) 1500) (empty fun _ => 0) = .ok 0x80001000 s' := by decide
  rw [bind_ok hrun] at hrun'
  have hreach : Reach ⟨s', [⟨0x80001000, 1500⟩, ⟨0x80001800, 2000⟩]⟩ := by
    use fun _ => 0
    apply Relation.ReflTransGen.tail
    · exact .tail .refl (.kmalloc _ 2000 0x80001800 (by decide) hanswer hrun)
    · exact .kmalloc _ 1500 0x80001000 (by decide) (fun _ _ => .inl rfl) hrun'
  obtain ⟨hsafe, -, hfree, -⟩ := heap_safe hreach
  exact ⟨_, rfl, hsafe, hfree _ List.mem_cons_self⟩

end Kheap
