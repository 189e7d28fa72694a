import AzureSpider.Kheap.Alloc

/-!
# Release keeps the invariant

`kfree` puts a block back on the free list of its page, and gives the page back when all of
its blocks are free; a block of whole pages is given back at once.
-/

open Machine Routine

namespace Kheap

variable {s s' : Kheap} {live live' : List Block} {all fl : List ℕ} {same free : ℕ → List ℕ}
  {i : ℕ}

/-! ### Putting a block back -/

theorem fillDeadbeef_spec :
    ∀ {n a : ℕ} {s : Kheap}, a % 4 = 0 →
      (∃ mem, fillDeadbeef n a s = { s with mem := mem })
        ∧ ∀ x, x < a ∨ a + 4 * n ≤ x → (fillDeadbeef n a s).load x = s.load x
  | 0, a, s, _ => by
      use ⟨s.mem, rfl⟩
      intro x _
      rfl
  | n + 1, a, s, ha => by
      obtain ⟨hsame, hmem⟩ := fillDeadbeef_spec (n := n) (a := a + 4) (s := store a 0xdeadbeef s)
        (by omega)
      use hsame
      intro x hx
      rw [fillDeadbeef, hmem x (by omega), load_store_of_ne (by omega)]

/-- The heap `s'` is `s` with the block `a` put on the free list of the pageref `i`. -/
structure Pushed (s s' : Kheap) (i a : ℕ) : Prop where
  refs : SameRefs s s' i
  nfree : (s'.pagerefs i).nfree = (s.pagerefs i).nfree + 1
  first : firstFree (s'.pagerefs i) = some a
  next : nextFree s' a = firstFree (s.pagerefs i)
  mem : ∀ x, x < a ∨ a + sizes (s.pagerefs i).blocktype ≤ x → s'.load x = s.load x

/-- The word that `subpage_kfree` writes leads to the block that was the first one. -/
theorem pushed_of_store {a v : ℕ} {mem : ℕ → ℕ}
    (hmem : ∀ x, x < a ∨ a + sizes (s.pagerefs i).blocktype ≤ x →
      load { s with mem := mem } x = s.load x)
    (hsize : 16 ≤ sizes (s.pagerefs i).blocktype) (ha : a % 16 = 0)
    (hle : (s.pagerefs i).pageaddr ≤ a) (hlt : a < (s.pagerefs i).pageaddr + 4096)
    (hnfree : (s.pagerefs i).nfree < 2 ^ 16 - 1)
    (hv : (if v = 0 then none else some v) = firstFree (s.pagerefs i)) :
  Pushed s
    (setPageref i
      (fun pr => { pr with
        freelistOffset := u16 (a - (s.pagerefs i).pageaddr), nfree := u16 (pr.nfree + 1) })
      (store a v { s with mem := mem })) i a
  := by
  constructor
  · exact ⟨_, _, _, rfl⟩
  · rw [setPageref_pagerefs_self]
    apply u16_of_lt
    exact Nat.add_lt_of_lt_sub hnfree
  · rw [setPageref_pagerefs_self]
    exact firstFree_eq_some (s.pagerefs i).pageaddr rfl hle (by omega) (u16_of_lt (by omega))
  · rw [nextFree, setPageref_load, load_store_self, hv]
  · intro x hx
    rw [setPageref_load, load_store_of_ne (by omega), hmem x hx]

theorem putBack_spec {a : ℕ} (h : Core s live all same free) (hi : i ∈ all)
    (ha : IsSlot (s.pagerefs i) a) :
  wp (putBack i (a - (s.pagerefs i).pageaddr)) s (fun _ s' => Pushed s s' i a)
  := by
  have hpage := h.page i hi
  have hsize := sizes_le hpage.blocktype_lt
  have hblocks := blocks_le hpage.blocktype_lt
  have hnfree := hpage.nfree_le
  have hin := h.slot_bounds hi ha
  have hpos := (h.page_proper hi).pos
  have haligned := ha.aligned hpage.blocktype_lt (h.page_proper hi).aligned
  simp only at hpos
  have hfla : u32 ((s.pagerefs i).pageaddr + (a - (s.pagerefs i).pageaddr)) = a := by
    rw [Nat.add_sub_cancel' hin.1]
    apply u32_of_lt
    omega
  obtain ⟨⟨mem, hsame⟩, hmem⟩ :=
    fillDeadbeef_spec (n := sizes (s.pagerefs i).blocktype / 4) (a := a) (s := s) (by omega)
  have hmem' : ∀ x, x < a ∨ a + sizes (s.pagerefs i).blocktype ≤ x →
      load { s with mem := mem } x = s.load x := by
    intro x hx
    rw [← hsame]
    apply hmem x
    omega
  simp only [putBack, wp_bind, wp_get, wp_modify, wp_ite, hfla, hsame]
  constructor
  · intro hinvalid
    apply pushed_of_store hmem' hsize.1 haligned hin.1 (by omega) (by omega)
    rw [firstFree, if_pos hinvalid, if_pos rfl]
  · intro hvalid
    have hfirst : firstFree (s.pagerefs i)
        = some ((s.pagerefs i).pageaddr + (s.pagerefs i).freelistOffset) := if_neg hvalid
    have hhead : (s.pagerefs i).pageaddr + (s.pagerefs i).freelistOffset < 2 ^ 32 := by
      have hlinked := hpage.linked
      rw [hfirst] at hlinked
      cases hlist : free i with
      | nil => simp [hlist] at hlinked
      | cons c rest =>
        rw [hlist, Linked.cons_iff, Option.some.injEq] at hlinked
        have hc := h.slot_bounds hi (hpage.isSlot (a := c) (by simp [hlist]))
        omega
    apply pushed_of_store hmem' hsize.1 haligned hin.1 (by omega) (by omega)
    rw [u32_of_lt hhead, hfirst, if_neg (by omega)]

variable {b : Block}

/-- A caller gives a block of a page back. -/
theorem Pushed.core (hpush : Pushed s s' i b.addr) (h : Core s live all same free) (hi : i ∈ all)
    (hb : b ∈ live) (hsz : b.sz < largestSubpageSize) (ha : IsSlot (s.pagerefs i) b.addr) :
  Core s' (live.filter fun c => c.addr ≠ b.addr) all same
    (Function.update free i (b.addr :: free i))
  := by
  have hpage := h.page i hi
  have htype := hpage.blocktype_lt
  have hnotfree : b.addr ∉ free i := by
    intro hmem
    apply ((hpage.mem_iff b.addr).mp hmem).2 b hb rfl
  apply h.change_page hi hpush.refs
  · constructor
    · rw [hpush.refs.blocktype_eq]
      apply htype
    · rw [hpush.refs.pageaddr_eq, hpush.refs.pages_eq.1]
      apply hpage.page_mem
    · rw [Linked.cons_iff, hpush.next]
      use hpush.first
      apply hpage.linked.congr
      intro x hx
      have hne : x ≠ b.addr := by
        rintro rfl
        apply hnotfree hx
      have hapart := (hpage.isSlot hx).apart ha hne
      rw [nextFree, hpush.mem x (by omega), ← nextFree]
    · rw [List.nodup_cons]
      exact ⟨hnotfree, hpage.nodup⟩
    · intro x
      rw [List.mem_cons, hpage.mem_iff, hpush.refs.isSlot_iff]
      simp only [List.mem_filter, decide_eq_true_eq]
      constructor
      · rintro (rfl | ⟨hslot, hlive⟩)
        · use ha
          intro c hc
          apply hc.2
        · use hslot
          intro c hc
          apply hlive c hc.1
      · rintro ⟨hslot, hlive⟩
        by_cases hx : x = b.addr
        · left
          apply hx
        · right
          use hslot
          rintro c hc rfl
          exact hlive c ⟨hc, hx⟩ rfl
    · rw [List.length_cons, hpush.nfree, hpage.length_eq]
  · intro j hj hji x hx
    have hapart := h.page_apart hj hi hji
    have hinx := h.slot_bounds hj hx
    have hin := ha.mem_page htype
    simp only [pageSize] at hapart hin
    apply hpush.mem x
    omega
  · intro c hc
    left
    apply (List.mem_filter.mp hc).1
  · intro c hc
    by_cases heq : c.addr = b.addr
    · right
      rw [List.inj_on_of_nodup_map h.live_nodup hc hb heq]
      exact ⟨hsz, ha⟩
    · left
      rw [List.mem_filter]
      exact ⟨hc, by simpa using heq⟩
  · apply List.Nodup.sublist _ h.live_nodup
    apply List.filter_sublist.map

/-! ### Giving a page back -/

/-- The heap with other links between its pagerefs. -/
def relinked (s : Kheap) (bases : ℕ → Option ℕ) (base : Option ℕ) (next nextAll : ℕ → Option ℕ) :
    Kheap :=
  { s with
    sizebases := bases
    allbase := base
    pagerefs := fun j => { s.pagerefs j with nextSamesize := next j, nextAll := nextAll j } }

/-- A loop of `remove_lists` takes the pageref `i` off its list. -/
theorem unlink_erase {base : Option ℕ} {next : ℕ → Option ℕ} {l : List ℕ} (hi : i ∈ l)
    (hlinked : Linked next base l) (hnodup : l.Nodup) (hlen : l.length ≤ npagerefs) :
  ∃ base' next', Place.unlink i base next (npagerefs + 1) .base = some (base', next')
    ∧ Linked next' base' (l.erase i) ∧ ∀ j ∉ l, next' j = next j
  := by
  obtain ⟨l₁, l₂, rfl⟩ := List.append_of_mem hi
  have hnot : i ∉ l₁ := by
    intro hmem
    apply (List.nodup_append.mp hnodup).2.2 i hmem i List.mem_cons_self rfl
  have hfuel : l₁.length < npagerefs + 1 := by
    rw [List.length_append] at hlen
    omega
  obtain ⟨base', next', hrun, hchain, hframe, -⟩ :=
    Place.unlink_spec l₁ (npagerefs + 1) .base hfuel hlinked hnodup (by simp)
  use base', next', hrun
  rw [List.erase_append_right _ hnot, List.erase_cons_head]
  exact ⟨hchain, fun j hj => hframe j (fun hj' => hj (List.mem_append_left _ hj')) (by simp)⟩

/-- `remove_lists` takes a pageref off its lists. -/
theorem removeLists_spec (h : Core s live all same free) (hi : i ∈ all) :
  wp (removeLists i (s.pagerefs i).blocktype) s
    (fun _ s' => ∃ bases base next nextAll, s' = s.relinked bases base next nextAll
      ∧ Linked nextAll base (all.erase i)
      ∧ ∀ b < nsizes, Linked next (bases b) ((same b).erase i))
  := by
  have hb := (h.page i hi).blocktype_lt
  generalize hbi : (s.pagerefs i).blocktype = b at *
  have hsame : i ∈ same b := (h.mem_same b hb i).mpr ⟨hi, hbi⟩
  have hsub : ∀ j ∈ same b, j ∈ all := fun j hj => ((h.mem_same b hb j).mp hj).1
  obtain ⟨base₁, next₁, hrun₁, hlinked₁, hnext₁⟩ := unlink_erase hsame (h.same_linked b hb)
    (h.same_nodup b hb) (h.length_le (h.same_nodup b hb) hsub)
  obtain ⟨base₂, next₂, hrun₂, hlinked₂, -⟩ := unlink_erase hi h.all_linked h.all_nodup
    (h.length_le h.all_nodup fun _ hj => hj)
  simp only [removeLists, removeSamesize, removeAll, wp_bind, wp_assert, wp_get, hrun₁, wp_modify,
    hrun₂]
  refine ⟨hb, _, _, _, _, rfl, hlinked₂, ?_⟩
  intro c hc
  by_cases hcb : c = b
  · subst hcb
    rw [Function.update_self]
    exact hlinked₁
  · -- a pageref of another type is not on the list that changed
    have hother : ∀ j ∈ same c, j ∉ same b := by
      intro j hj hj'
      apply hcb
      rw [← ((h.mem_same c hc j).mp hj).2, ((h.mem_same b hb j).mp hj').2]
    rw [List.erase_of_not_mem (fun hic => hother i hic hsame), Function.update_of_ne hcb]
    apply (h.same_linked c hc).congr
    intro j hj
    exact hnext₁ j (hother j hj)

/-- The heap is in order after a page none of whose blocks is in use was given back. -/
theorem Core.unlinked {bases : ℕ → Option ℕ} {base : Option ℕ} {next nextAll : ℕ → Option ℕ}
    (h : Core s live all same free) (hi : i ∈ all)
    (hunused : ∀ b ∈ live, ¬ IsSlot (s.pagerefs i) b.addr)
    (hall : Linked nextAll base (all.erase i))
    (hsame : ∀ b < nsizes, Linked next (bases b) ((same b).erase i)) :
  Core
    { s.relinked bases base next nextAll with
      pages := s.pages.filter fun p => p.addr ≠ (s.pagerefs i).pageaddr
      freed := (s.pagerefs i).pageaddr :: s.freed
      pagerefsInuse := BitWords.clearBit s.pagerefsInuse i }
    live (all.erase i) (fun b => (same b).erase i) free
  := by
  have herase : ∀ {j}, j ∈ all.erase i ↔ j ≠ i ∧ j ∈ all := h.all_nodup.mem_erase_iff
  have hkept : ∀ {p}, p ∈ s.pages.filter (fun p => p.addr ≠ (s.pagerefs i).pageaddr)
      ↔ p ∈ s.pages ∧ p.addr ≠ (s.pagerefs i).pageaddr := by
    intro p
    rw [List.mem_filter, decide_eq_true_eq]
  constructor
  · rw [BitWords.length_clearBit]
    apply h.inuse_length
  · apply hall
  · apply h.all_nodup.erase
  · intro j
    rw [herase, BitWords.getBit_clearBit (by decide), h.mem_all]
    simp only [Bool.and_eq_true, decide_eq_true_eq]
    rw [and_comm, ne_comm]
  · apply hsame
  · intro b hb
    apply (h.same_nodup b hb).erase
  · intro b hb j
    rw [(h.same_nodup b hb).mem_erase_iff, h.mem_same b hb, herase, and_assoc]
    rfl
  · intro j hj
    obtain ⟨hji, hj⟩ := herase.mp hj
    refine (h.page j hj).frame rfl rfl rfl (fun _ _ => rfl) ?_ fun _ _ => Iff.rfl
    rw [hkept]
    use (h.page j hj).page_mem
    intro heq
    apply hji (h.page_inj j hj i hi heq)
  · intro j hj k hk
    apply h.page_inj j (herase.mp hj).2 k (herase.mp hk).2
  · intro p hp
    apply h.proper p (hkept.mp hp).1
  · apply h.apart.filter
  · intro p hp
    obtain ⟨hp, hpi⟩ := hkept.mp hp
    rcases h.owner p hp with ⟨hone, j, hj, hjp⟩ | hlarge
    · left
      use hone, j
      rw [herase]
      refine ⟨⟨?_, hj⟩, hjp⟩
      rintro rfl
      apply hpi hjp.symm
    · right
      apply hlarge
  · intro b hb hsz
    obtain ⟨j, hj, hbslot, hbtype⟩ := h.small b hb hsz
    use j
    rw [herase]
    refine ⟨⟨?_, hj⟩, hbslot, hbtype⟩
    rintro rfl
    apply hunused b hb hbslot
  · intro b hb hsz
    obtain ⟨hmem, hne⟩ := h.large b hb hsz
    constructor
    · rw [hkept]
      use hmem
      apply (hne i hi).symm
    · intro j hj
      apply hne j (herase.mp hj).2
  · apply h.live_nodup

/-- The pages at `addr` are given back by one call of `free_kpages` if `unused` holds, and
nothing is given back else. -/
def GivenBackIf (unused : Prop) (addr : ℕ) (s s' : Kheap) : Prop :=
  (unused → s'.pages = s.pages.filter (fun p => p.addr ≠ addr) ∧ s'.freed = addr :: s.freed)
    ∧ (¬ unused → s'.pages = s.pages ∧ s'.freed = s.freed)

/-- All blocks of a page are free exactly when no caller has one. -/
theorem PageOk.nfree_eq_iff (h : PageOk s live fl i) :
  (s.pagerefs i).nfree = pageSize / sizes (s.pagerefs i).blocktype
    ↔ ∀ b ∈ live, ¬ IsSlot (s.pagerefs i) b.addr
  := by
  constructor
  · intro heq b hb hslot
    have hnot : b.addr ∉ fl := fun hmem => ((h.mem_iff b.addr).mp hmem).2 b hb rfl
    have hle : (b.addr :: fl).length ≤ pageSize / sizes (s.pagerefs i).blocktype := by
      apply length_le_blocks (List.nodup_cons.mpr ⟨hnot, h.nodup⟩)
      rw [List.forall_mem_cons]
      exact ⟨hslot, fun a ha => h.isSlot ha⟩
    rw [List.length_cons, h.length_eq] at hle
    omega
  · intro hunused
    apply Nat.le_antisymm h.nfree_le
    rw [← h.length_eq]
    apply blocks_le_length h.blocktype_lt
    intro a ha
    rw [h.mem_iff]
    use ha
    rintro b hb rfl
    apply hunused b hb ha

/-- A page is given back exactly when no caller has a block of it. -/
theorem releasePage_spec (h : Core s live all same free) (hi : i ∈ all)
    (hothers : ∀ j ∈ all, j ≠ i →
      (s.pagerefs j).nfree < pageSize / sizes (s.pagerefs j).blocktype) :
  wp (releasePage i) s
    (fun _ s' => Inv s' live
      ∧ GivenBackIf (∀ b ∈ live, ¬ IsSlot (s.pagerefs i) b.addr) (s.pagerefs i).pageaddr s s')
  := by
  have hpage := h.page i hi
  have hiff := hpage.nfree_eq_iff
  have hle := hpage.nfree_le
  simp only [releasePage, wp_bind, wp_get, wp_assert, wp_ite, wp_pure]
  use hle
  constructor
  · intro hfull
    have hunused := hiff.mp hfull
    apply wp_imp (removeLists_spec h hi)
    rintro _ _ ⟨bases, base, next, nextAll, rfl, hall, hsame⟩
    have hbit := (h.mem_all i).mp hi
    simp only [freeKpages, freepageref, wp_bind, wp_modify, wp_assert, wp_get]
    refine ⟨h.lt_npagerefs hi, hbit, ⟨_, _, free, h.unlinked hi hunused hall hsame, ?_⟩, ?_, ?_⟩
    · intro j hj
      obtain ⟨hji, hj⟩ := h.all_nodup.mem_erase_iff.mp hj
      apply hothers j hj hji
    · intro _
      exact ⟨rfl, rfl⟩
    · intro hused
      exact absurd hunused hused
  · intro hnot
    refine ⟨⟨all, same, free, h, ?_⟩, ?_, ?_⟩
    · intro j hj
      by_cases hji : j = i
      · subst hji
        omega
      · apply hothers j hj hji
    · intro hunused
      exact absurd (hiff.mpr hunused) hnot
    · intro _
      exact ⟨rfl, rfl⟩

/-! ### `kfree` -/

/-- The address `x` is on the run of pages. -/
def OnPages (x : ℕ) (p : Pages) : Prop := p.addr ≤ x ∧ x < p.addr + p.npages * pageSize

/-- What `kfree` leaves behind: the caller does not have the block any more, and the pages
that it is on are given back exactly when no caller has another block on them. -/
structure Released (s : Kheap) (live : List Block) (ptr : ℕ) (s' : Kheap) : Prop where
  inv : Inv s' (live.filter fun c => c.addr ≠ ptr)
  pages : ∃ p ∈ s.pages, OnPages ptr p
    ∧ GivenBackIf (∀ c ∈ live, c.addr ≠ ptr → ¬ OnPages c.addr p) p.addr s s'

section

variable (h : Core s live all same free)
include h

/-- Of the blocks that callers hold, those on the page of a pageref are blocks of it. -/
theorem Core.onPages_iff (hi : i ∈ all) (hb : b ∈ live) :
  OnPages b.addr ⟨(s.pagerefs i).pageaddr, 1⟩ ↔ IsSlot (s.pagerefs i) b.addr
  := by
  simp only [OnPages, pageSize]
  constructor
  · intro hon
    by_cases hsz : largestSubpageSize ≤ b.sz
    · have hapart := h.large_apart hi hb hsz
      have hpos := (h.proper _ (h.large b hb hsz).1).npages_pos
      simp only [pageSize] at hapart hpos
      omega
    · obtain ⟨j, hj, hslot, -⟩ := h.small b hb (Nat.lt_of_not_le hsz)
      have hin := h.slot_bounds hj hslot
      have hij : i = j := by
        by_contra hne
        have hapart := h.page_apart hi hj hne
        simp only [pageSize] at hapart
        omega
      rw [hij]
      apply hslot
  · intro hslot
    have hin := h.slot_bounds hi hslot
    omega

/-- The search of `subpage_kfree` goes through all pages in use. -/
theorem Core.findPage (a : ℕ) :
  wp (findPage a (npagerefs + 1) s.allbase) s
    (fun r s' => s' = s ∧ match r with
      | none => ∀ i ∈ all,
          ¬ ((s.pagerefs i).pageaddr ≤ a ∧ a < (s.pagerefs i).pageaddr + pageSize)
      | some i => i ∈ all ∧ (s.pagerefs i).pageaddr ≤ a
          ∧ a < (s.pagerefs i).pageaddr + pageSize)
  := by
  apply findPage_spec (Nat.lt_succ_of_le (h.length_le h.all_nodup (fun j hj => hj))) h.all_linked
  intro j hj
  exact ⟨(h.page j hj).blocktype_lt, h.page_end_lt hj⟩

/-- The search of `subpage_kfree` finds the page of a block. -/
theorem findPage_small (hi : i ∈ all) {a : ℕ} (ha : IsSlot (s.pagerefs i) a) :
  wp (findPage a (npagerefs + 1) s.allbase) s (fun r s' => s' = s ∧ r = some i)
  := by
  have hin := h.slot_bounds hi ha
  apply wp_imp (h.findPage a)
  rintro r s' ⟨rfl, hr⟩
  use rfl
  simp only [pageSize] at hr
  cases r with
  | none => exact absurd (by omega) (hr i hi)
  | some j =>
    obtain ⟨hj, hon⟩ := hr
    congr 1
    by_contra hne
    have hapart := h.page_apart hj hi hne
    simp only [pageSize] at hapart
    omega

/-- The search of `subpage_kfree` does not find a block of whole pages. -/
theorem findPage_large (hb : b ∈ live) (hsz : largestSubpageSize ≤ b.sz) :
  wp (findPage b.addr (npagerefs + 1) s.allbase) s (fun r s' => s' = s ∧ r = none)
  := by
  apply wp_imp (h.findPage b.addr)
  rintro r s' ⟨rfl, hr⟩
  use rfl
  cases r with
  | none => rfl
  | some j =>
    obtain ⟨hj, hon⟩ := hr
    have hapart := h.large_apart hj hb hsz
    have hpos := (h.proper _ (h.large b hb hsz).1).npages_pos
    simp only [pageSize] at hapart hon hpos
    omega

/-- A caller gives whole pages back. -/
theorem Core.remove_large (hb : b ∈ live) (hsz : largestSubpageSize ≤ b.sz) :
  Core
    { s with
      pages := s.pages.filter fun p => p.addr ≠ b.addr
      freed := b.addr :: s.freed }
    (live.filter fun c => c.addr ≠ b.addr) all same free
  := by
  obtain ⟨hmem, hoff⟩ := h.large b hb hsz
  have hkept : ∀ {p}, p ∈ s.pages.filter (fun p => p.addr ≠ b.addr)
      ↔ p ∈ s.pages ∧ p.addr ≠ b.addr := by
    intro p
    rw [List.mem_filter, decide_eq_true_eq]
  have hlive : ∀ {c}, c ∈ live.filter (fun c => c.addr ≠ b.addr)
      ↔ c ∈ live ∧ c.addr ≠ b.addr := by
    intro c
    rw [List.mem_filter, decide_eq_true_eq]
  refine { h with
    page := ?_, proper := ?_, apart := ?_, owner := ?_, small := ?_, large := ?_, live_nodup := ?_ }
  · intro j hj
    refine (h.page j hj).frame rfl rfl rfl (fun _ _ => rfl) ?_ ?_
    · rw [hkept]
      exact ⟨(h.page j hj).page_mem, hoff j hj⟩
    · intro a ha
      constructor
      · rintro hother c hc rfl
        have hne : c.addr ≠ b.addr := by
          intro heq
          rw [heq] at ha
          have hin := h.slot_bounds hj ha
          have hapart := h.large_apart hj hb hsz
          have hpos := (h.proper _ hmem).npages_pos
          simp only [pageSize] at hapart hpos
          omega
        apply hother c (hlive.mpr ⟨hc, hne⟩) rfl
      · intro hother c hc
        apply hother c (hlive.mp hc).1
  · intro p hp
    apply h.proper p (hkept.mp hp).1
  · apply h.apart.filter
  · intro p hp
    obtain ⟨hp, hne⟩ := hkept.mp hp
    rcases h.owner p hp with hpage | ⟨c, hc, hcsz, heq⟩
    · left
      apply hpage
    · right
      refine ⟨c, hlive.mpr ⟨hc, ?_⟩, hcsz, heq⟩
      rw [heq] at hne
      apply hne
  · intro c hc hcsz
    apply h.small c (hlive.mp hc).1 hcsz
  · intro c hc hcsz
    obtain ⟨hc, hne⟩ := hlive.mp hc
    obtain ⟨hcmem, hcoff⟩ := h.large c hc hcsz
    exact ⟨hkept.mpr ⟨hcmem, hne⟩, hcoff⟩
  · apply List.Nodup.sublist _ h.live_nodup
    apply List.filter_sublist.map

theorem subpageKfree_small (hnone : NoneEmpty s all) (hi : i ∈ all) (hb : b ∈ live)
    (hsz : b.sz < largestSubpageSize) (ha : IsSlot (s.pagerefs i) b.addr) :
  wp (subpageKfree b.addr) s
    (fun r s' => r = true ∧ Released s live b.addr s')
  := by
  have hpage := h.page i hi
  have hin := h.slot_bounds hi ha
  have hoffset : toU32 ((b.addr : ℤ) - (s.pagerefs i).pageaddr)
      = b.addr - (s.pagerefs i).pageaddr := by
    simp only [toU32]
    omega
  have hmod : (b.addr - (s.pagerefs i).pageaddr) % sizes (s.pagerefs i).blocktype = 0 := by
    obtain ⟨j, -, hj⟩ := ha
    rw [hj, Nat.add_sub_cancel_left, Nat.mul_mod_left]
  have hvalid : ¬ (pageSize ≤ b.addr - (s.pagerefs i).pageaddr
      ∨ (b.addr - (s.pagerefs i).pageaddr) % sizes (s.pagerefs i).blocktype ≠ 0) := by
    simp only [hmod, pageSize]
    omega
  simp only [subpageKfree, wp_bind, wp_get]
  apply wp_imp (findPage_small h hi ha)
  rintro r s' ⟨rfl, rfl⟩
  simp only [hoffset, if_neg hvalid, wp_bind, wp_pure, true_and]
  apply wp_imp (putBack_spec h hi ha)
  intro _ s₁ hpush
  have hcore := hpush.core h hi hb hsz ha
  have hothers : ∀ j ∈ all, j ≠ i →
      (s₁.pagerefs j).nfree < pageSize / sizes (s₁.pagerefs j).blocktype := by
    intro j hj hji
    rw [hpush.refs.pagerefs_eq hji]
    apply hnone j hj
  apply wp_imp (releasePage_spec hcore hi hothers)
  rintro _ s₂ ⟨hinv, hback⟩
  constructor
  · apply hinv
  · refine ⟨_, hpage.page_mem, ?_, ?_⟩
    · rw [h.onPages_iff hi hb]
      apply ha
    · have hunused : (∀ c ∈ live.filter (fun c => c.addr ≠ b.addr), ¬ IsSlot (s₁.pagerefs i) c.addr)
          ↔ ∀ c ∈ live, c.addr ≠ b.addr → ¬ OnPages c.addr ⟨(s'.pagerefs i).pageaddr, 1⟩ := by
        constructor
        · intro hall c hc hne
          rw [h.onPages_iff hi hc, ← hpush.refs.isSlot_iff]
          apply hall c
          rw [List.mem_filter]
          exact ⟨hc, by simpa using hne⟩
        · intro hall c hc
          rw [List.mem_filter, decide_eq_true_eq] at hc
          rw [hpush.refs.isSlot_iff, ← h.onPages_iff hi hc.1]
          apply hall c hc.1 hc.2
      rw [GivenBackIf, hunused, hpush.refs.pageaddr_eq, hpush.refs.pages_eq.1,
        hpush.refs.pages_eq.2] at hback
      apply hback

end

/-- `kfree` does not panic on a block that a caller holds, and keeps the invariant. -/
theorem kfree_spec (h : Inv s live) (hb : b ∈ live) :
  wp (kfree b.addr) s (fun _ s' => Released s live b.addr s')
  := by
  obtain ⟨all, same, free, hcore, hnone⟩ := h
  by_cases hsz : largestSubpageSize ≤ b.sz
  · obtain ⟨hmem, hoff⟩ := hcore.large b hb hsz
    have hproper := hcore.proper _ hmem
    have hpos := hproper.npages_pos
    simp only at hpos
    rw [kfree, if_neg hproper.pos.ne']
    simp only [subpageKfree, wp_bind, wp_get]
    apply wp_imp (findPage_large hcore hb hsz)
    rintro r s' ⟨rfl, rfl⟩
    simp only [wp_pure, Bool.false_eq_true, if_false, wp_bind, wp_assert, freeKpages, wp_modify]
    use Nat.mod_eq_zero_of_dvd hproper.aligned
    constructor
    · exact ⟨all, same, free, hcore.remove_large hb hsz, hnone⟩
    · refine ⟨_, hmem, ?_, ?_, ?_⟩
      · simp only [OnPages, pageSize]
        omega
      · intro _
        exact ⟨rfl, rfl⟩
      · -- no other block is on these pages
        intro hused
        exfalso
        apply hused
        intro c hc hne hon
        simp only [OnPages, pageSize] at hon
        by_cases hcsz : largestSubpageSize ≤ c.sz
        · have hcmem := (hcore.large c hc hcsz).1
          have hcpos := (hcore.proper _ hcmem).npages_pos
          have hapart := hcore.apart.forall hmem hcmem
            (fun heq => hne (congrArg Pages.addr heq).symm)
          simp only [Apart, pageSize] at hapart hcpos
          omega
        · obtain ⟨j, hj, hslot, -⟩ := hcore.small c hc (Nat.lt_of_not_le hcsz)
          have hin := hcore.slot_bounds hj hslot
          have hapart := hcore.large_apart hj hb hsz
          simp only [pageSize] at hapart
          omega
  · have hsmall := Nat.lt_of_not_le hsz
    obtain ⟨i, hi, ha, -⟩ := hcore.small b hb hsmall
    have hpos := (hcore.page_proper hi).pos
    have hin := hcore.slot_bounds hi ha
    simp only at hpos
    rw [kfree, if_neg (by omega), wp_bind]
    apply wp_imp (subpageKfree_small hcore hnone hi hb hsmall ha)
    rintro r s' ⟨rfl, hrel⟩
    rw [if_pos rfl, wp_pure]
    apply hrel

end Kheap
