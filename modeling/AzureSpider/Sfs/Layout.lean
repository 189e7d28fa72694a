import AzureSpider.Lib.Ledger
import AzureSpider.Sfs.File

/-!
# The blocks of a file

The blocks that an inode holds and the bytes of the file that it describes.  The cells of a
file are numbered: cells `0` to `14` are the direct blocks, cells `15` to `142` the entries of
the indirect block, cell `143` is the indirect block and cell `144` the inode itself.  So the
first 143 cells are the blocks with the bytes of the file, in the order of their positions.

`FileStep p s s'` states what all routines on the file of a vnode `p` have in common: the file
holds its blocks as before, and nothing changes that belongs to something else.
-/

namespace Sfs

namespace Inode

variable {d d' : ℕ → Block} {i i' : Inode} {k pos : ℕ}

/-- The entries of the indirect block. -/
def table (d : ℕ → Block) (i : Inode) : Idbuf :=
  if i.indirect.toNat = 0 then Idbuf.zero else Idbuf.decode (d i.indirect.toNat)

/-- The block in a cell of an inode, and `0` if there is none. -/
def ptr (d : ℕ → Block) (i : Inode) (k : ℕ) : ℕ :=
  if k < 15 then (i.direct.get k).toNat
  else if k < 143 then ((i.table d).get (k - 15)).toNat
  else if k = 143 then i.indirect.toNat
  else 0

/-- The byte of a file at a position, whether or not it is below the size. -/
def byteAt (d : ℕ → Block) (i : Inode) (pos : ℕ) : UInt8 :=
  if pos / 512 < 143 ∧ i.ptr d (pos / 512) ≠ 0 then
    (d (i.ptr d (pos / 512))).get (pos % 512)
  else
    0

/-- The block in a cell of the inode with a number. -/
def cell (d : ℕ → Block) (ino : ℕ) (i : Inode) (k : ℕ) : ℕ :=
  if k = 144 then ino else i.ptr d k

theorem ptr_direct (hk : k < 15) :
  i.ptr d k = (i.direct.get k).toNat
  := if_pos hk

theorem ptr_entry (hk : k < 128) :
  i.ptr d (15 + k) = ((i.table d).get k).toNat
  := by
  rw [ptr, if_neg (by omega), if_pos (by omega), Nat.add_sub_cancel_left]

theorem ptr_of_lt (hk : 143 < k) :
  i.ptr d k = 0
  := by
  rw [ptr, if_neg (by omega), if_neg (by omega), if_neg (by omega)]

theorem lt_of_ptr_ne_zero (h : i.ptr d k ≠ 0) :
  k < 144
  := by
  by_contra hge
  exact h (ptr_of_lt (by omega))

/-- An inode that points to no block holds none. -/
theorem ptr_cleared (hdirect : i.direct = cleared.direct) (hindirect : i.indirect = 0) :
  i.ptr d k = 0
  := by
  simp only [ptr, table, hdirect, hindirect]
  split
  · next hk =>
      rw [cleared, Buf.get_ofFn _ hk]
      rfl
  · simp

theorem cell_ino {ino : ℕ} :
  i.cell d ino 144 = ino
  := rfl

theorem cell_of_lt {ino : ℕ} (hk : k < 144) :
  i.cell d ino k = i.ptr d k
  := if_neg (by omega)

/-- The cells depend on the pointers and on the contents of the indirect block. -/
theorem ptr_congr (hdirect : i'.direct = i.direct) (hindirect : i'.indirect = i.indirect)
    (hd : i.indirect.toNat ≠ 0 → d' i.indirect.toNat = d i.indirect.toNat) (k : ℕ) :
  i'.ptr d' k = i.ptr d k
  := by
  have htable : i'.table d' = i.table d := by
    simp only [table, hindirect]
    split
    · rfl
    · rename_i hne
      rw [hd hne]
  rw [ptr, ptr, hdirect, hindirect, htable]

/-- The bytes depend on the cells and the contents of the blocks in them. -/
theorem byteAt_congr (hptr : i'.ptr d' (pos / 512) = i.ptr d (pos / 512))
    (hd : pos / 512 < 143 → i.ptr d (pos / 512) ≠ 0 →
      d' (i.ptr d (pos / 512)) = d (i.ptr d (pos / 512))) :
  i'.byteAt d' pos = i.byteAt d pos
  := by
  simp only [byteAt, hptr]
  split
  · next h => rw [hd h.1 h.2]
  · rfl

/-- The cells of an inode depend on the contents of its blocks. -/
theorem ptr_of_disk (h : ∀ k, i.ptr d k ≠ 0 → d' (i.ptr d k) = d (i.ptr d k)) (k : ℕ) :
  i.ptr d' k = i.ptr d k
  := by
  apply ptr_congr rfl rfl
  intro hne
  exact h 143 hne

/-- The bytes of a file depend on the contents of the blocks of its inode. -/
theorem byteAt_of_disk (h : ∀ k, i.ptr d k ≠ 0 → d' (i.ptr d k) = d (i.ptr d k)) :
  i.byteAt d' = i.byteAt d
  := by
  funext pos
  exact byteAt_congr (ptr_of_disk h _) fun _ hne => h _ hne

theorem byteAt_of_ptr_eq_zero (h : i.ptr d (pos / 512) = 0) :
  i.byteAt d pos = 0
  := if_neg (by omega)

theorem byteAt_of_ptr_ne_zero (hlt : pos / 512 < 143) (h : i.ptr d (pos / 512) ≠ 0) :
  i.byteAt d pos = (d (i.ptr d (pos / 512))).get (pos % 512)
  := if_pos ⟨hlt, h⟩

theorem byteAt_of_le (h : 143 ≤ pos / 512) :
  i.byteAt d pos = 0
  := if_neg (by omega)

end Inode

namespace Fs

/-- The block in a cell of the file of a vnode. -/
def cell (s : Fs) (p : Ptr) (k : ℕ) : ℕ := (s.heap p).i.cell s.disk (s.heap p).ino k

/-- The block in one of the first 144 cells of the file of a vnode. -/
def ptr (s : Fs) (p : Ptr) (k : ℕ) : ℕ := (s.heap p).i.ptr s.disk k

/-- The byte of the file of a vnode at a position. -/
def byteAt (s : Fs) (p : Ptr) (pos : ℕ) : UInt8 := (s.heap p).i.byteAt s.disk pos

/-- The size of the file of a vnode. -/
def size (s : Fs) (p : Ptr) : ℕ := (s.heap p).i.size.toNat

/-- The inode with a number: the one in memory if it is loaded, and the one on the disk
otherwise. -/
def inodeOf (s : Fs) (ino : ℕ) : Inode :=
  match s.vnodes.guys.find? (fun p => (s.heap p).ino = ino) with
  | some p => (s.heap p).i
  | none => Inode.decode (s.disk ino)

/-- A block in use that does not belong to the file of a vnode. -/
def Foreign (s : Fs) (p : Ptr) (b : ℕ) : Prop := Account.Foreign s.Used (s.cell p) b

/-- The file of a vnode holds its blocks. -/
structure FileOk (s : Fs) (p : Ptr) : Prop where
  account : Account s.Used (s.cell p)
  lt : ∀ k, s.cell p k < s.nblocks
  ino_ne : (s.heap p).ino ≠ 0

end Fs

/-! ### Changes to an inode -/

namespace Inode

variable {d d' : ℕ → Block} {i : Inode} {k l : ℕ} {x : UInt32}

theorem ptr_setDirect (hk : k < 15)
    (hd : i.indirect.toNat ≠ 0 → d' i.indirect.toNat = d i.indirect.toNat) :
  ({ i with direct := i.direct.set k x } : Inode).ptr d' l
    = if l = k then x.toNat else i.ptr d l
  := by
  have htable : ({ i with direct := i.direct.set k x } : Inode).table d' = i.table d := by
    simp only [table]
    split
    · rfl
    · rename_i hne
      rw [hd hne]
  by_cases hl : l < 15
  · rw [ptr_direct hl, ptr_direct hl, Buf.get_set _ _ hk]
    split
    · rfl
    · rfl
  · rw [if_neg (by omega), ptr, ptr, if_neg hl, if_neg hl, htable]

theorem ptr_setIndirect (h0 : i.indirect.toNat = 0) (hx : x.toNat ≠ 0)
    (hd : Idbuf.decode (d' x.toNat) = Idbuf.zero) :
  ({ i with indirect := x } : Inode).ptr d' l = if l = 143 then x.toNat else i.ptr d l
  := by
  have htable : ({ i with indirect := x } : Inode).table d' = i.table d := by
    simp only [table]
    rw [if_neg hx, if_pos h0, hd]
  simp only [ptr, htable]
  split
  · rw [if_neg (by omega)]
  · split
    · rw [if_neg (by omega)]
    · split
      · rfl
      · rfl

theorem ptr_setEntry (hk : k < 128) (h0 : i.indirect.toNat ≠ 0)
    (hd : Idbuf.decode (d' i.indirect.toNat) = (i.table d).set k x) :
  i.ptr d' l = if l = 15 + k then x.toNat else i.ptr d l
  := by
  have htable : i.table d' = (i.table d).set k x := by
    rw [table, if_neg h0, hd]
  simp only [ptr, htable]
  by_cases hlow : l < 15
  · rw [if_pos hlow, if_pos hlow, if_neg (by omega)]
  · rw [if_neg hlow, if_neg hlow]
    by_cases hmid : l < 143
    · rw [if_pos hmid, if_pos hmid, Buf.get_set _ _ hk]
      by_cases hlk : l = 15 + k
      · rw [if_pos hlk, if_pos (by omega)]
      · rw [if_neg hlk, if_neg (by omega)]
    · have hlk : l ≠ 15 + k := by omega
      rw [if_neg hmid, if_neg hmid, if_neg hlk]

end Inode

/-! ### Steps of a file -/

/-- What no routine on a file changes in its vnode. -/
structure SfsVnode.Kept (v v' : SfsVnode) : Prop where
  ops : v'.ops = v.ops
  refcount : v'.refcount = v.refcount
  opencount : v'.opencount = v.opencount
  ino : v'.ino = v.ino
  type : v'.i.type = v.i.type
  linkcount : v'.i.linkcount = v.i.linkcount
  /-- A changed inode is dirty. -/
  clean : v'.dirty = false → v.dirty = false ∧ v'.i = v.i

/-- What no routine on the file of `p` changes in the volume, its blocks apart. -/
structure SameVolume (p : Ptr) (s s' : Fs) : Prop where
  nblocks : s'.nblocks = s.nblocks
  nbits : s'.freemap.nbits = s.freemap.nbits
  vnodes : s'.vnodes = s.vnodes
  next : s'.next = s.next
  kmallocs : s'.kmallocs = s.kmallocs
  heap : ∀ q, q ≠ p → s'.heap q = s.heap q
  kept : (s.heap p).Kept (s'.heap p)

/-- A step of the file of `p`. -/
structure FileStep (p : Ptr) (s s' : Fs) : Prop extends SameVolume p s s' where
  sound : s'.Sound
  ok : s'.FileOk p
  foreign : ∀ b, s'.Foreign p b ↔ s.Foreign p b
  disk : ∀ b, s.Foreign p b → s'.disk b = s.disk b
  inode : s'.disk (s.heap p).ino = s.disk (s.heap p).ino

/-- A step that may give a file more blocks, and leaves its bytes and its size. -/
structure Grown (p : Ptr) (s s' : Fs) : Prop extends FileStep p s s' where
  size : s'.size p = s.size p
  bytes : ∀ pos, s'.byteAt p pos = s.byteAt p pos
  mapped : ∀ k < 143, s.ptr p k ≠ 0 → s'.ptr p k = s.ptr p k

theorem SfsVnode.Kept.refl (v : SfsVnode) :
  v.Kept v
  := ⟨rfl, rfl, rfl, rfl, rfl, rfl, fun h => ⟨h, rfl⟩⟩

theorem SfsVnode.Kept.trans {v v' v'' : SfsVnode} (h : v.Kept v') (h' : v'.Kept v'') :
  v.Kept v''
  := by
  refine ⟨h'.ops.trans h.ops, h'.refcount.trans h.refcount, h'.opencount.trans h.opencount,
    h'.ino.trans h.ino, h'.type.trans h.type, h'.linkcount.trans h.linkcount, ?_⟩
  intro hclean
  obtain ⟨hd', hi'⟩ := h'.clean hclean
  obtain ⟨hd, hi⟩ := h.clean hd'
  exact ⟨hd, hi'.trans hi⟩

section Steps

variable {p : Ptr} {s s' s'' : Fs} {b k : ℕ}

theorem SameVolume.refl (p : Ptr) (s : Fs) :
  SameVolume p s s
  := ⟨rfl, rfl, rfl, rfl, rfl, fun _ _ => rfl, SfsVnode.Kept.refl _⟩

theorem SameVolume.trans (h : SameVolume p s s') (h' : SameVolume p s' s'') :
  SameVolume p s s''
  := by
  refine ⟨h'.nblocks.trans h.nblocks, h'.nbits.trans h.nbits, h'.vnodes.trans h.vnodes,
    h'.next.trans h.next, h'.kmallocs.trans h.kmallocs, ?_, h.kept.trans h'.kept⟩
  intro q hq
  rw [h'.heap q hq, h.heap q hq]

theorem SameVolume.write (p : Ptr) (s : Fs) (b : ℕ) (blk : Block) :
  SameVolume p s (s.write b blk)
  := ⟨rfl, rfl, rfl, rfl, rfl, fun _ _ => rfl, SfsVnode.Kept.refl _⟩

theorem SameVolume.allocated (p : Ptr) (s : Fs) (b : ℕ) :
  SameVolume p s (s.allocated b)
  := ⟨rfl, rfl, rfl, rfl, rfl, fun _ _ => rfl, SfsVnode.Kept.refl _⟩

theorem SameVolume.freed (p : Ptr) (s : Fs) (b : ℕ) :
  SameVolume p s (s.freed b)
  := ⟨rfl, rfl, rfl, rfl, rfl, fun _ _ => rfl, SfsVnode.Kept.refl _⟩

theorem SameVolume.updateInode (p : Ptr) (s : Fs) {f : Inode → Inode}
    (htype : ∀ i, (f i).type = i.type) (hlink : ∀ i, (f i).linkcount = i.linkcount) :
  SameVolume p s (s.updateInode p f)
  := by
  refine ⟨rfl, rfl, rfl, rfl, rfl, fun q hq => if_neg hq, ?_⟩
  rw [Fs.updateInode, Fs.heap_update_self]
  refine ⟨rfl, rfl, rfl, rfl, htype _, hlink _, ?_⟩
  intro hclean
  cases hclean

theorem FileStep.refl (h : s.Sound) (hok : s.FileOk p) :
  FileStep p s s
  := ⟨SameVolume.refl p s, h, hok, fun _ => Iff.rfl, fun _ _ => rfl, rfl⟩

theorem FileStep.trans (h : FileStep p s s') (h' : FileStep p s' s'') :
  FileStep p s s''
  := by
  refine ⟨h.toSameVolume.trans h'.toSameVolume, h'.sound, h'.ok, ?_, ?_, ?_⟩
  · intro b
    exact (h'.foreign b).trans (h.foreign b)
  · intro b hb
    rw [h'.disk b ((h.foreign b).mpr hb), h.disk b hb]
  · rw [← h.inode, ← h.kept.ino]
    apply h'.inode

theorem Grown.refl (h : s.Sound) (hok : s.FileOk p) :
  Grown p s s
  := ⟨FileStep.refl h hok, rfl, fun _ => rfl, fun _ _ _ => rfl⟩

theorem Grown.trans (h : Grown p s s') (h' : Grown p s' s'') :
  Grown p s s''
  := by
  refine ⟨h.toFileStep.trans h'.toFileStep, h'.size.trans h.size, ?_, ?_⟩
  · intro pos
    rw [h'.bytes, h.bytes]
  · intro k hk hne
    have heq := h.mapped k hk hne
    rw [← heq] at hne
    rw [h'.mapped k hk hne, heq]

theorem Fs.cell_eq (s : Fs) (p : Ptr) (k : ℕ) :
  s.cell p k = if k = 144 then (s.heap p).ino else s.ptr p k
  := rfl

/-- A file without an indirect block has no blocks in it. -/
theorem Fs.ptr_of_no_indirect (h : s.ptr p 143 = 0) (hlow : 15 ≤ k) (hhigh : k < 143) :
  s.ptr p k = 0
  := by
  have hk : 15 + (k - 15) = k := by omega
  have hnone : (s.heap p).i.indirect.toNat = 0 := h
  rw [← hk, Fs.ptr, Inode.ptr_entry (by omega), Inode.table, if_pos hnone, Idbuf.zero_get]
  rfl

theorem Fs.FileOk.ptr_lt (h : s.FileOk p) (k : ℕ) :
  s.ptr p k < s.nblocks
  := by
  by_cases hk : k < 144
  · have hlt := h.lt k
    rw [Fs.cell_eq, if_neg (by omega)] at hlt
    apply hlt
  · have hlt := h.lt 144
    rw [Fs.ptr, Inode.ptr_of_lt (by omega)]
    omega

theorem Fs.FileOk.ptr_used (h : s.FileOk p) (hne : s.ptr p k ≠ 0) :
  s.Used (s.ptr p k)
  := by
  by_cases hk : k < 144
  · have hcell : s.cell p k = s.ptr p k := if_neg (by omega)
    rw [← hcell] at hne ⊢
    apply h.account.used k hne
  · exact absurd (Inode.ptr_of_lt (by omega)) hne

theorem Fs.FileOk.ino_used (h : s.FileOk p) :
  s.Used (s.heap p).ino
  := h.account.used 144 h.ino_ne

/-- The blocks of a file are distinct. -/
theorem Fs.FileOk.ptr_inj {l : ℕ} (h : s.FileOk p) (hne : s.ptr p k ≠ 0)
    (heq : s.ptr p k = s.ptr p l) :
  k = l
  := by
  have hk : ∀ m, s.ptr p m ≠ 0 → s.cell p m = s.ptr p m := by
    intro m hm
    apply if_neg
    rintro rfl
    exact hm (Inode.ptr_of_lt (by omega))
  have hl : s.ptr p l ≠ 0 := by
    rw [← heq]
    apply hne
  apply h.account.inj k l
  · rw [hk k hne]
    apply hne
  · rw [hk k hne, hk l hl, heq]

/-- The inode is in none of the other blocks of the file. -/
theorem Fs.FileOk.ptr_ne_ino (h : s.FileOk p) (k : ℕ) :
  s.ptr p k ≠ (s.heap p).ino
  := by
  intro heq
  have hne : s.ptr p k ≠ 0 := by
    rw [heq]
    apply h.ino_ne
  have hk : k < 144 := Inode.lt_of_ptr_ne_zero hne
  have hcell : s.cell p k = s.ptr p k := if_neg (by omega)
  have hin := h.account.inj k 144 (by rw [hcell]; apply hne) (by rw [hcell]; apply heq)
  omega

theorem Fs.Foreign.ne_ptr (h : s.Foreign p b) (hne : s.ptr p k ≠ 0) :
  b ≠ s.ptr p k
  := by
  rintro rfl
  have hk : k < 144 := Inode.lt_of_ptr_ne_zero hne
  apply hne
  apply h.2 k
  apply if_neg
  omega

end Steps

end Sfs
