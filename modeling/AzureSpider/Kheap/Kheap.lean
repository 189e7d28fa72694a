import AzureSpider.Lib.BitWords
import AzureSpider.Lib.Linked
import AzureSpider.Lib.Routine
import AzureSpider.Vm.Ram

/-!
# The kernel heap

`kmalloc` and `kfree` of `kheap.c`.  Requests below `LARGEST_SUBPAGE_SIZE` are served from
pages that are filled with blocks of one size; a page is described by a `pageref`, its free
blocks are linked through their first words, and the pagerefs in use are linked twice: on
the list of their block type, and on the list of all of them.  Other requests get whole
pages.

Addresses are 32-bit numbers with `NULL` for `0`; a pointer to a pageref is its index in
the array `pagerefs`.  The answers of `alloc_kpages` are a parameter.
-/

open Machine Routine

/-- `NSIZES`. -/
def nsizes : ℕ := 8

/-- `sizes`: the block size of each block type. -/
def sizes (blktype : ℕ) : ℕ := [16, 32, 64, 128, 256, 512, 1024, 2048].getD blktype 0

/-- `LARGEST_SUBPAGE_SIZE`. -/
def largestSubpageSize : ℕ := 2048

/-- `INVALID_OFFSET`. -/
def invalidOffset : ℕ := 0xffff

/-- `NPAGEREFS`: as many pagerefs of 16 bytes as fit in a page. -/
def npagerefs : ℕ := pageSize / 16

/-- `struct pageref`. -/
structure Pageref where
  nextSamesize : Option ℕ
  nextAll : Option ℕ
  pageaddrAndBlocktype : ℕ
  freelistOffset : ℕ
  nfree : ℕ

namespace Pageref

/-- `PR_PAGEADDR`. -/
def pageaddr (pr : Pageref) : ℕ := pr.pageaddrAndBlocktype &&& pageFrame

/-- `PR_BLOCKTYPE`. -/
def blocktype (pr : Pageref) : ℕ := pr.pageaddrAndBlocktype &&& pageOffset

end Pageref

/-- `MKPAB`. -/
def mkpab (pa blk : ℕ) : ℕ := (pa &&& pageFrame) ||| (blk &&& pageOffset)

/-- A run of pages. -/
structure Pages where
  addr : ℕ
  npages : ℕ
  deriving DecidableEq, Repr

/-- The variables of `kheap.c`, the memory, by words, and what the heap has of
`alloc_kpages`: the pages it got and did not give back, and the addresses it called
`free_kpages` on, the last one first. -/
structure Kheap where
  pagerefs : ℕ → Pageref
  pagerefsInuse : List (BitVec 32)
  sizebases : ℕ → Option ℕ
  allbase : Option ℕ
  mem : ℕ → ℕ
  pages : List Pages
  freed : List ℕ

/-- The assertions and panics of `kheap.c`; `loops` is a walk along a list that does not
end. -/
inductive KheapPanic where
  | noClearBit
  | pagerefIndex
  | pagerefNotInuse
  | removeBlocktype
  | cannotHandleSize
  | wrongBlocktype
  | freelistOffset
  | freelistLonger
  | freelistOutside
  | freelistShorter
  | linkedToItself
  | freshOffset
  | kfreeBlocktype
  | invalidAddr
  | tooManyFree
  | notPageAligned
  | loops
  deriving DecidableEq, Repr

namespace Kheap

/-- A routine of the heap. -/
abbrev Run (α : Type) : Type := Routine Empty KheapPanic Kheap α

/-- The word at an address. -/
def load (s : Kheap) (a : ℕ) : ℕ := s.mem (a / 4)

/-- Store a word at an address. -/
def store (a v : ℕ) (s : Kheap) : Kheap :=
  { s with mem := Function.update s.mem (a / 4) v }

/-- Change a pageref. -/
def setPageref (i : ℕ) (f : Pageref → Pageref) (s : Kheap) : Kheap :=
  { s with pagerefs := Function.update s.pagerefs i (f (s.pagerefs i)) }

/-- `alloc_kpages`, which answers `answer npages`. -/
def allocKpages (answer : ℕ → ℕ) (npages : ℕ) : Run ℕ := do
  if answer npages = 0 then
    pure 0
  else
    modify fun s => { s with pages := ⟨answer npages, npages⟩ :: s.pages }
    pure (answer npages)

/-- `free_kpages`. -/
def freeKpages (addr : ℕ) : Run Unit :=
  modify fun s =>
    { s with pages := s.pages.filter fun p => p.addr ≠ addr, freed := addr :: s.freed }

/-! ### Page references -/

/-- `allocpageref`. -/
def allocpageref : Run (Option ℕ) := do
  let s ← get
  match BitWords.findClear s.pagerefsInuse 0 with
  | .found i => do
      modify fun s => { s with pagerefsInuse := BitWords.setBit s.pagerefsInuse i }
      pure (some i)
  | .full => pure none
  | .stuck => Routine.panic .noClearBit

/-- `freepageref`. -/
def freepageref (i : ℕ) : Run Unit := do
  assert (i < npagerefs) .pagerefIndex
  let s ← get
  assert (BitWords.getBit s.pagerefsInuse i = true) .pagerefNotInuse
  modify fun s => { s with pagerefsInuse := BitWords.clearBit s.pagerefsInuse i }

/-- The first loop of `remove_lists`: along the pagerefs of one block type. -/
def removeSamesize (i blktype : ℕ) : Run Unit := do
  let s ← get
  match Place.unlink i (s.sizebases blktype) (fun j => (s.pagerefs j).nextSamesize)
      (npagerefs + 1) .base with
  | none => Routine.panic .loops
  | some r =>
    modify fun s =>
      { s with
        sizebases := Function.update s.sizebases blktype r.1
        pagerefs := fun j => { s.pagerefs j with nextSamesize := r.2 j } }

/-- The second loop of `remove_lists`: along all pagerefs. -/
def removeAll (i : ℕ) : Run Unit := do
  let s ← get
  match Place.unlink i s.allbase (fun j => (s.pagerefs j).nextAll) (npagerefs + 1) .base with
  | none => Routine.panic .loops
  | some r =>
    modify fun s =>
      { s with
        allbase := r.1
        pagerefs := fun j => { s.pagerefs j with nextAll := r.2 j } }

/-- `remove_lists`. -/
def removeLists (i blktype : ℕ) : Run Unit := do
  assert (blktype < nsizes) .removeBlocktype
  removeSamesize i blktype
  removeAll i

/-- `blocktype`: the first block type from `i` on, of `n` of them, whose blocks hold `sz`
bytes. -/
def blocktypeFrom (sz : ℕ) : (n i : ℕ) → Option ℕ
  | 0, _ => none
  | n + 1, i => if sz ≤ sizes i then some i else blocktypeFrom sz n (i + 1)

/-- `blocktype`. -/
def blocktype (sz : ℕ) : Run ℕ :=
  match blocktypeFrom sz nsizes 0 with
  | some i => pure i
  | none => Routine.panic .cannotHandleSize

/-! ### Blocks of a page -/

/-- `subpage_kmalloc` from the label `doalloc` on: take the first free block of a page. -/
def doalloc (i : ℕ) : Run ℕ := do
  let s ← get
  let pr := s.pagerefs i
  assert (pr.freelistOffset < pageSize) .freelistOffset
  let prpage := pr.pageaddr
  let retptr := u32 (prpage + pr.freelistOffset)
  let fl := s.load retptr
  -- `pr->nfree--` on an unsigned 16-bit field
  let nfree := u16 (pr.nfree + (2 ^ 16 - 1))
  modify (setPageref i fun pr => { pr with nfree := nfree })
  if fl ≠ 0 then
    assert (0 < nfree) .freelistLonger
    assert (toU32 (fl - prpage) < pageSize) .freelistOutside
    modify
      (setPageref i fun pr => { pr with freelistOffset := u16 (toU32 (fl - prpage)) })
  else
    assert (nfree = 0) .freelistShorter
    modify (setPageref i fun pr => { pr with freelistOffset := invalidOffset })
  pure retptr

/-- The loop of `subpage_kmalloc`: the first page of the list that has a free block. -/
def findFree (blktype : ℕ) : ℕ → Option ℕ → Run (Option ℕ)
  | 0, _ => Routine.panic .loops
  | _ + 1, none => pure none
  | n + 1, some i => do
      let s ← get
      assert ((s.pagerefs i).blocktype = blktype) .wrongBlocktype
      if 0 < (s.pagerefs i).nfree then
        pure (some i)
      else
        findFree blktype n (s.pagerefs i).nextSamesize

/-- The loop that links the blocks `i`, `i + 1`, … of a fresh page, `n` of them, each to
the one before it. -/
def linkBlocks (fla size : ℕ) : (n i : ℕ) → Run Unit
  | 0, _ => pure ()
  | n + 1, i => do
      let fl := u32 (fla + i * size)
      modify (store fl (u32 (fla + (i - 1) * size)))
      let s ← get
      assert (fl ≠ s.load fl) .linkedToItself
      linkBlocks fla size n (i + 1)

/-- The part of `subpage_kmalloc` that fills the fresh page at `prpage` with free blocks,
and puts its pageref on the two lists. -/
def fillPage (i prpage blktype : ℕ) : Run Unit := do
  let nfree := u16 (pageSize / sizes blktype)
  modify
    (setPageref i fun pr =>
      { pr with pageaddrAndBlocktype := mkpab prpage blktype, nfree := nfree })
  modify (store prpage 0)
  linkBlocks prpage (sizes blktype) (nfree - 1) 1
  let fla := u32 (prpage + (nfree - 1) * sizes blktype)
  let offset := u16 (toU32 (fla - prpage))
  modify (setPageref i fun pr => { pr with freelistOffset := offset })
  assert (offset = (nfree - 1) * sizes blktype) .freshOffset
  modify fun s =>
    setPageref i (fun pr => { pr with nextSamesize := s.sizebases blktype })
      { s with sizebases := Function.update s.sizebases blktype (some i) }
  modify fun s =>
    setPageref i (fun pr => { pr with nextAll := s.allbase }) { s with allbase := some i }

/-- `subpage_kmalloc`. -/
def subpageKmalloc (answer : ℕ → ℕ) (sz : ℕ) : Run ℕ := do
  let blktype ← blocktype sz
  let s ← get
  match ← findFree blktype (npagerefs + 1) (s.sizebases blktype) with
  | some i => doalloc i
  | none =>
    match ← allocpageref with
    | none => pure 0
    | some i =>
      let prpage ← allocKpages answer 1
      if prpage = 0 then
        freepageref i
        pure 0
      else
        fillPage i prpage blktype
        doalloc i

/-- The loop of `subpage_kfree`: the first page of the list that holds `ptraddr`. -/
def findPage (ptraddr : ℕ) : ℕ → Option ℕ → Run (Option ℕ)
  | 0, _ => Routine.panic .loops
  | _ + 1, none => pure none
  | n + 1, some i => do
      let s ← get
      let pr := s.pagerefs i
      assert (pr.blocktype < nsizes) .kfreeBlocktype
      if pr.pageaddr ≤ ptraddr ∧ ptraddr < u32 (pr.pageaddr + pageSize) then
        pure (some i)
      else
        findPage ptraddr n pr.nextAll

/-- `fill_deadbeef`: `n` words from the address `a` on. -/
def fillDeadbeef : (n a : ℕ) → Kheap → Kheap
  | 0, _, s => s
  | n + 1, a, s => fillDeadbeef n (a + 4) (store a 0xdeadbeef s)

/-- The part of `subpage_kfree` that puts the block at `offset` on the free list of its
page. -/
def putBack (i offset : ℕ) : Run Unit := do
  let s ← get
  let prpage := (s.pagerefs i).pageaddr
  let fla := u32 (prpage + offset)
  modify (fillDeadbeef (sizes (s.pagerefs i).blocktype / 4) fla)
  if (s.pagerefs i).freelistOffset = invalidOffset then
    modify (store fla 0)
  else
    modify (store fla (u32 (prpage + (s.pagerefs i).freelistOffset)))
  modify
    (setPageref i fun pr =>
      { pr with freelistOffset := u16 offset, nfree := u16 (pr.nfree + 1) })

/-- The part of `subpage_kfree` that gives a page back when all its blocks are free. -/
def releasePage (i : ℕ) : Run Unit := do
  let s ← get
  let pr := s.pagerefs i
  assert (pr.nfree ≤ pageSize / sizes pr.blocktype) .tooManyFree
  if pr.nfree = pageSize / sizes pr.blocktype then
    removeLists i pr.blocktype
    freeKpages pr.pageaddr
    freepageref i
  else
    pure ()

/-- `subpage_kfree`: whether the block was on one of the pages. -/
def subpageKfree (ptraddr : ℕ) : Run Bool := do
  let s ← get
  match ← findPage ptraddr (npagerefs + 1) s.allbase with
  | none => pure false
  | some i =>
    let pr := s.pagerefs i
    let offset := toU32 (ptraddr - pr.pageaddr)
    if pageSize ≤ offset ∨ offset % sizes pr.blocktype ≠ 0 then
      Routine.panic .invalidAddr
    else
      putBack i offset
      releasePage i
      pure true

/-! ### Interface -/

/-- `kmalloc`. -/
def kmalloc (answer : ℕ → ℕ) (sz : ℕ) : Run ℕ :=
  if largestSubpageSize ≤ sz then
    allocKpages answer (u32 (sz + pageSize - 1) / pageSize)
  else
    subpageKmalloc answer sz

/-- `kfree`. -/
def kfree (ptr : ℕ) : Run Unit :=
  if ptr = 0 then
    pure ()
  else do
    if ← subpageKfree ptr then
      pure ()
    else
      assert (ptr % pageSize = 0) .notPageAligned
      freeKpages ptr

end Kheap
