import AzureSpider.Sfs.Mount

/-!
# Making a volume

The program `mksfs.c` writes a superblock, an empty root directory and a free map on a disk.
The kernel mounts the volume it makes, finds on it what was written, and allocates the blocks
that are left in order.

The program and the kernel are modelled apart from each other; what they share is the layout of
the structures in a block.
-/

open Machine Routine

namespace Mksfs

open Sfs

/-- The messages that the program ends with. -/
inductive Message where
  | illegalVolumeName | volumeNameTooLong | wrongBlocksize | filesystemTooLarge
  deriving DecidableEq, Repr

/-- The assertions of the program. -/
inductive Assertion where
  | doallocbit
  deriving DecidableEq, Repr

/-- The disk and the buffer `bitbuf`. -/
structure State where
  disk : ℕ → Block
  bitbuf : List (BitVec 8)

/-- A routine of the program. -/
abbrev Run (α : Type) : Type := Routine Message Assertion State α

/-- `MAXBITBLOCKS`. -/
def maxBitBlocks : ℕ := 32

/-- The state at the start: `bitbuf` is cleared. -/
def initial (disk : ℕ → Block) : State := ⟨disk, List.replicate (maxBitBlocks * 512) 0⟩

/-- `diskwrite`. -/
def diskwrite (data : Block) (block : ℕ) : Run Unit :=
  modify fun s => { s with disk := fun b => if b = block then data else s.disk b }

/-- The superblock that `writesuper` sets up. -/
def super (volname : Name) (nblocks : ℕ) : Super where
  magic := magic
  nblocks := UInt32.ofNat nblocks
  volname := Buf.ofFn fun j => volname.bytes.getD j 0
  reserved := Buf.ofFn fun _ => 0

/-- `writesuper`. -/
def writesuper (volname : Name) (nblocks : ℕ) : Run Unit :=
  if 32 ≤ volname.length then fail .volumeNameTooLong
  else diskwrite (super volname nblocks).encode 0

/-- The inode that `writerootdir` sets up. -/
def rootdir : Inode where
  size := 0
  type := typeDir
  linkcount := 1
  direct := Buf.ofFn fun _ => 0
  indirect := 0
  waste := Buf.ofFn fun _ => 0

/-- `writerootdir`. -/
def writerootdir : Run Unit := diskwrite rootdir.encode 1

/-- `doallocbit`. -/
def doallocbit (bit : ℕ) : Run Unit := do
  let s ← get
  assert (BitWords.getBit s.bitbuf bit = false) .doallocbit
  modify fun s => { s with bitbuf := BitWords.setBit s.bitbuf bit }

/-- `writebitmap`. -/
def writebitmap (fsblocks : ℕ) : Run Unit := do
  let nbits := bitmapSize fsblocks
  let nblocks := bitBlocks fsblocks
  if maxBitBlocks < nblocks then fail .filesystemTooLarge
  else do
    doallocbit 0
    doallocbit 1
    loop nblocks 0 (fun i _ => doallocbit (2 + i)) ()
    loop (nbits - fsblocks) fsblocks (fun i _ => doallocbit i) ()
    loop nblocks 0 (fun i _ => do
      let s ← get
      diskwrite (mapBlock s.bitbuf i) (2 + i)) ()

/-- The character `:`. -/
def colon : UInt8 := 58

/-- The character `/`. -/
def slash : UInt8 := 47

/-- The part of a string before a character. -/
def before (c : UInt8) (n : Name) : Name where
  bytes := n.bytes.takeWhile (· ≠ c)
  not_mem := fun h => n.not_mem ((List.takeWhile_sublist _).subset h)

/-- What `main` does to its argument to get the name of the volume: one trailing colon is
removed, and there may be no slash. -/
def volnameOf (arg : Name) : Except Message Name :=
  let s := arg.bytes.dropWhile (· ≠ colon)
  let volname := if s = [] then arg else before colon arg
  if s ≠ [] ∧ s.length ≠ 1 then .error .illegalVolumeName
  else if slash ∈ volname.bytes then .error .illegalVolumeName
  else .ok volname

/-- `diskblocksize`. -/
def diskblocksize : ℕ := 512

/-- `main`, for the name of the volume and a disk of so many blocks. -/
def main (arg : Name) (size : ℕ) : Run Unit :=
  match volnameOf arg with
  | .error e => fail e
  | .ok volname =>
    if diskblocksize ≠ 512 then fail .wrongBlocksize
    else do
      writesuper volname size
      writerootdir
      writebitmap size

/-! ### What the program writes -/

section Program

variable {s : State} {P : ℕ → Prop} {n : ℕ}

/-- The bits that are set in `bitbuf`. -/
structure Marked (s : State) (P : ℕ → Prop) : Prop where
  length : s.bitbuf.length = 16384
  iff : ∀ b, BitWords.getBit s.bitbuf b = true ↔ P b

theorem Marked.congr (h : Marked s P) (hP : ∀ b, P b ↔ P' b) :
  Marked s P'
  := ⟨h.length, fun b => (h.iff b).trans (hP b)⟩

theorem marked_initial (disk : ℕ → Block) :
  Marked (initial disk) fun _ => False
  := by
  refine ⟨List.length_replicate, fun b => ?_⟩
  rw [initial, BitWords.getBit_replicate_zero]
  simp

/-- A bit that is not set can be set. -/
theorem doallocbit_spec {bit : ℕ} (h : Marked s P) (hlt : bit < 131072) (hnot : ¬ P bit)
    (hQ : ∀ s', s'.disk = s.disk → Marked s' (fun b => P b ∨ b = bit) → Q () s') :
  wp (doallocbit bit) s Q E
  := by
  have hclear : BitWords.getBit s.bitbuf bit = false := by
    rw [← Bool.not_eq_true, h.iff]
    exact hnot
  have hlen := h.length
  simp only [doallocbit, wp_bind, wp_get, wp_assert, wp_modify]
  refine ⟨hclear, ?_⟩
  apply hQ ⟨s.disk, BitWords.setBit s.bitbuf bit⟩ rfl
  refine ⟨by simp [hlen], fun b => ?_⟩
  rw [BitWords.getBit_setBit (by decide) (by omega), Bool.or_eq_true, h.iff, decide_eq_true_eq,
    eq_comm (a := bit)]

/-- A loop that sets the bits of an interval. -/
theorem doallocbits_spec {i k : ℕ} {f : ℕ → ℕ} (start : ℕ) (hf : ∀ j, f (i + j) = start + j)
    (h : Marked s P) (hlt : start + k ≤ 131072) (hnot : ∀ b, start ≤ b → b < start + k → ¬ P b)
    (hQ : ∀ s', s'.disk = s.disk → Marked s' (fun b => P b ∨ (start ≤ b ∧ b < start + k)) →
      Q () s') :
  wp (loop k i (fun i _ => doallocbit (f i)) ()) s Q E
  := by
  refine wp_imp (wp_loop (fun j _ s' => s'.disk = s.disk
      ∧ Marked s' fun b => P b ∨ (start ≤ b ∧ b < start + (j - i))) ?_ ?_) ?_
  · refine ⟨rfl, h.congr fun b => ?_⟩
    rw [Nat.sub_self, Nat.add_zero]
    constructor
    · exact .inl
    · rintro (hb | hb)
      · exact hb
      · omega
  · rintro j - s' hij hjk ⟨hdisk, hmarked⟩
    obtain ⟨j, rfl⟩ := Nat.exists_eq_add_of_le hij
    rw [Nat.add_sub_cancel_left] at hmarked
    rw [hf]
    apply doallocbit_spec hmarked (by omega)
    · rintro (hb | hb)
      · exact hnot _ (Nat.le_add_right _ _) (by omega) hb
      · omega
    · intro s'' hdisk' hmarked'
      refine ⟨hdisk'.trans hdisk, hmarked'.congr fun b => ?_⟩
      rw [show i + j + 1 - i = j + 1 by omega]
      constructor
      · rintro ((hb | hb) | rfl)
        · exact .inl hb
        · exact .inr (by omega)
        · exact .inr (by omega)
      · rintro (hb | hb)
        · exact .inl (.inl hb)
        · rcases Nat.lt_or_eq_of_le (show b ≤ start + j by omega) with hlt | heq
          · exact .inl (.inr (by omega))
          · exact .inr heq
  · rintro - s' ⟨hdisk, hmarked⟩
    rw [Nat.add_sub_cancel_left] at hmarked
    exact hQ s' hdisk hmarked

/-- The blocks that are in use on a new volume, and the bits that belong to no block. -/
def Reserved (n b : ℕ) : Prop := b < 2 + bitBlocks n ∨ (n ≤ b ∧ b < bitmapSize n)

/-- `writebitmap` writes the blocks of a free map in which exactly the reserved bits are set. -/
theorem writebitmap_spec {disk : ℕ → Block} (hn : 3 ≤ n) (hmap : bitBlocks n ≤ 32)
    (hsize : n ≤ 2 ^ 22) (hbuf : Marked s fun _ => False) (hdisk : s.disk = disk) :
  wp (writebitmap n) s
    (fun _ s' => Marked s' (Reserved n)
      ∧ ∀ b, s'.disk b
        = if 2 ≤ b ∧ b < 2 + bitBlocks n then mapBlock s'.bitbuf (b - 2) else disk b)
  := by
  subst hdisk
  obtain ⟨hbits, hblocks, hle, -⟩ := bitmapSize_eq hsize
  simp only [writebitmap, wp_ite]
  refine ⟨fun htoo => absurd htoo (Nat.not_lt.mpr hmap), fun _ => ?_⟩
  simp only [wp_bind]
  apply doallocbit_spec hbuf (by decide) (by simp)
  intro s₁ hdisk₁ hmarked₁
  apply doallocbit_spec hmarked₁ (by decide) (by simp)
  intro s₂ hdisk₂ hmarked₂
  have hmarked₂ : Marked s₂ fun b => b < 2 := by
    apply hmarked₂.congr
    intro b
    simp only [false_or]
    omega
  apply doallocbits_spec 2 (by simp) hmarked₂ (by omega)
  · intro b hb _ hlt
    omega
  intro s₃ hdisk₃ hmarked₃
  apply doallocbits_spec n (fun _ => rfl) hmarked₃ (by omega)
  · rintro b hb hlt (h | h)
    · omega
    · omega
  intro s₄ hdisk₄ hmarked₄
  have hmarked : Marked s₄ (Reserved n) := by
    apply hmarked₄.congr
    intro b
    unfold Reserved
    omega
  have hdisk : s₄.disk = s.disk := hdisk₄.trans (hdisk₃.trans (hdisk₂.trans hdisk₁))
  refine wp_imp (wp_loop_run (fun j _ s' => s'.bitbuf = s₄.bitbuf ∧ ∀ b, s'.disk b
      = if 2 ≤ b ∧ b < 2 + j then mapBlock s₄.bitbuf (b - 2) else s.disk b) ?_ ?_) ?_
  · refine ⟨rfl, fun b => ?_⟩
    rw [if_neg (by omega), hdisk]
  · rintro j - s' hj ⟨hbuf', hall⟩
    simp only [wp_bind, wp_get, diskwrite, wp_modify]
    refine ⟨hbuf', fun b => ?_⟩
    rw [hbuf']
    by_cases hb : b = 2 + j
    · subst hb
      rw [if_pos rfl, if_pos (by omega), Nat.add_sub_cancel_left]
    · rw [if_neg hb, hall b]
      apply if_congr _ rfl rfl
      omega
  · rintro - s' ⟨hbuf', hall⟩
    refine ⟨⟨by rw [hbuf']; exact hmarked.length, fun b => by rw [hbuf']; exact hmarked.iff b⟩, ?_⟩
    rw [hbuf']
    exact hall

/-- What the program writes on the disk. -/
structure Written (n : ℕ) (volname : Name) (disk : ℕ → Block) : Prop where
  super : disk 0 = (super volname n).encode
  root : disk 1 = rootdir.encode
  freemap : ∀ b < bitmapSize n,
    blockBit (disk (2 + b / 4096)) (b % 4096) = true ↔ Reserved n b

theorem main_spec {arg volname : Name} (hn : 3 ≤ n) (hmap : bitBlocks n ≤ 32)
    (hsize : n ≤ 2 ^ 22) (hvol : volnameOf arg = .ok volname) (hlen : volname.length < 32)
    (disk : ℕ → Block) :
  wp (main arg n) (initial disk) (fun _ s => Written n volname s.disk)
  := by
  obtain ⟨hbits, -, -, -⟩ := bitmapSize_eq hsize
  simp only [main, hvol]
  rw [if_neg (by decide)]
  simp only [wp_bind, writesuper]
  rw [if_neg (by omega)]
  simp only [diskwrite, wp_modify, writerootdir]
  refine wp_imp (writebitmap_spec hn hmap hsize ?_ rfl) ?_
  · exact ⟨(marked_initial disk).length, (marked_initial disk).iff⟩
  · rintro - s ⟨hmarked, hdisk⟩
    refine ⟨?_, ?_, fun b hb => ?_⟩
    · rw [hdisk, if_neg (by omega)]
      rfl
    · rw [hdisk, if_neg (by omega)]
      rfl
    · rw [hdisk, if_pos (by omega), Nat.add_sub_cancel_left,
        blockBit_mapBlock _ _ (Nat.mod_lt b (by decide)), Nat.div_add_mod]
      exact hmarked.iff b

end Program

/-! ### What the kernel finds -/

/-- Repeated calls of `sfs_balloc`. -/
def ballocs : ℕ → Sfs.Run (List ℕ)
  | 0 => pure []
  | k + 1 => do
      let b ← balloc
      let bs ← ballocs k
      pure (b :: bs)

section Kernel

variable {s : Fs} {n lo k : ℕ}

/-- The blocks in use are those below a bound. -/
structure Frontier (s : Fs) (n lo : ℕ) : Prop where
  sound : s.Sound
  nblocks : s.nblocks = n
  iff : ∀ b < n, s.Used b ↔ b < lo

/-- The next block is allocated. -/
theorem Frontier.balloc (h : Frontier s n lo) (hlo : lo < n) :
  wp Sfs.balloc s (fun b s' => b = lo ∧ Frontier s' n (lo + 1))
  := by
  have hnb := h.nblocks
  apply wp_mono (balloc_spec h.sound)
  · rintro b s' ⟨hb, hfree, hleast, rfl⟩
    rw [hnb] at hb
    have hblo : b = lo := by
      apply Nat.le_antisymm
      · by_contra hgt
        exact Nat.lt_irrefl lo ((h.iff lo hlo).mp (hleast lo (Nat.not_le.mp hgt)))
      · exact Nat.not_lt.mp fun hlt => hfree ((h.iff b hb).mpr hlt)
    subst hblo
    refine ⟨rfl, h.sound.allocated (by omega), hnb, fun c hc => ?_⟩
    rw [h.sound.used_allocated (by omega), h.iff c hc]
    omega
  · rintro e s' ⟨-, hall, -⟩
    exact Nat.lt_irrefl lo ((h.iff lo hlo).mp (hall lo (by omega)))

/-- Repeated calls allocate the blocks in order. -/
theorem Frontier.ballocs (h : Frontier s n lo) (hk : lo + k ≤ n) :
  wp (ballocs k) s (fun bs s' => bs = List.range' lo k ∧ Frontier s' n (lo + k))
  := by
  induction k generalizing s lo with
  | zero =>
    simp only [Mksfs.ballocs, wp_pure]
    exact ⟨rfl, h⟩
  | succ k ih =>
    simp only [Mksfs.ballocs, wp_bind]
    apply wp_imp (h.balloc (by omega))
    rintro b s₁ ⟨rfl, h₁⟩
    apply wp_imp (ih h₁ (by omega))
    rintro bs s₂ ⟨rfl, h₂⟩
    simp only [wp_pure]
    refine ⟨(List.range'_succ ..).symm, ?_⟩
    rw [show b + (k + 1) = b + 1 + k by omega]
    exact h₂

/-- A full volume has no block to allocate. -/
theorem Frontier.enospc (h : Frontier s n n) :
  wp Sfs.balloc s (fun _ _ => False) (fun e _ => e = .enospc)
  := by
  apply wp_mono (balloc_spec h.sound)
  · rintro b s' ⟨hb, hfree, -, -⟩
    rw [h.nblocks] at hb
    exact hfree ((h.iff b hb).mpr hb)
  · rintro e s' ⟨he, -, -⟩
    exact he

/-- What the kernel finds on a new volume of `n` blocks: the size and the name, an empty root
directory, and a free map with exactly the bits clear that belong to blocks which are not in
use; these are allocated one after the other, and then there is no space. -/
structure Agrees (n : ℕ) (volname : Name) (m : Mounted) : Prop where
  nblocks : m.super.nblocks.toNat = n ∧ m.fs.nblocks = n
  volname : m.super.str = volname.bytes
  root : Inode.decode (m.fs.disk 1) = rootdir
  nbits : m.fs.freemap.nbits = bitmapSize n
  clear : ∀ b < bitmapSize n,
    m.fs.freemap.isset b = false ↔ 2 + (n + 4095) / 4096 ≤ b ∧ b < n
  balloc : ∀ k ≤ n - (2 + (n + 4095) / 4096),
    ∃ s, Mksfs.ballocs k m.fs = .ok (List.range' (2 + (n + 4095) / 4096) k) s
  enospc : ∃ bs s s', Mksfs.ballocs (n - (2 + (n + 4095) / 4096)) m.fs = .ok bs s
    ∧ Sfs.balloc s = .err .enospc s'

/-- The name of the volume is read as it was written. -/
theorem str_super {volname : Name} (hlen : volname.length < 32) (n : ℕ) :
  (super volname n).terminate.str = volname.bytes
  := by
  apply Codec.cstr_of_pad volname.not_mem hlen
  intro j hj
  rw [Super.terminate, super, Buf.get_set _ _ (by decide), Buf.get_ofFn _ hj]
  split_ifs with hlast
  · rw [List.getD_eq_getElem?_getD, List.getElem?_eq_none, Option.getD_none]
    rw [Name.length] at hlen
    omega
  · rfl

theorem agrees {m m' : Mounted} {volname : Name} (hn : 3 ≤ n) (hsize : n ≤ 2 ^ 22)
    (hlen : volname.length < 32) (hserves : m.fs.device.Serves n)
    (hwritten : Written n volname m.fs.disk) (hmap : 2 + bitBlocks n ≤ n)
    (hfresh : FreshlyMounted m m' (super volname n)) :
  Agrees n volname m'
  := by
  obtain ⟨hbits, hblocks, hle, -⟩ := bitmapSize_eq hsize
  have hnat : (super volname n).nblocks.toNat = n := by
    rw [super, UInt32.toNat_ofNat']
    omega
  have hnblocks : m'.fs.nblocks = n := hfresh.nblocks.trans hnat
  have hloaded := hfresh.freemap
  rw [hnat] at hloaded
  have hused : ∀ b < bitmapSize n, m'.fs.freemap.isset b = true ↔ Reserved n b := by
    intro b hb
    rw [hloaded.isset b hb]
    exact hwritten.freemap b hb
  have hfrontier : Frontier m'.fs n (2 + bitBlocks n) := by
    refine ⟨⟨?_, hloaded.full, ?_, ?_, ?_⟩, hnblocks, ?_⟩
    · rw [hfresh.device, hnblocks]
      exact hserves
    · rw [hnblocks, hloaded.nbits]
      omega
    · intro b hb hlt
      rw [hloaded.nbits] at hlt
      rw [hnblocks] at hb
      exact (hused b hlt).mpr (.inr ⟨hb, hlt⟩)
    · exact (hused 0 (by omega)).mpr (.inl (by omega))
    · intro b hb
      rw [Fs.Used, hused b (by omega)]
      unfold Reserved
      omega
  rw [hblocks] at hfrontier hmap
  refine ⟨⟨?_, hnblocks⟩, ?_, ?_, hloaded.nbits, ?_, ?_, ?_⟩
  · rw [hfresh.super]
    exact hnat
  · rw [hfresh.super]
    exact str_super hlen n
  · rw [Fs.disk, hfresh.device]
    exact (congrArg Inode.decode hwritten.root).trans (Inode.decode_encode rootdir)
  · intro b hb
    rw [← Bool.not_eq_true, hused b hb]
    unfold Reserved
    omega
  · intro k hk
    obtain ⟨bs, s, hrun, rfl, -⟩ := exists_ok (hfrontier.ballocs (k := k) (by omega))
    exact ⟨s, hrun⟩
  · obtain ⟨bs, s, hrun, -, hfull⟩ := exists_ok
      (hfrontier.ballocs (k := n - (2 + (n + 4095) / 4096)) (by omega))
    rw [Nat.add_sub_of_le hmap] at hfull
    obtain ⟨e, s', hrun', rfl⟩ := exists_err hfull.enospc
    exact ⟨bs, s, s', hrun, hrun'⟩

/-- The program and the kernel agree on the format: for every size that the free map can
describe and every name that the program accepts, the program completes, and the kernel mounts
what it made. -/
theorem mksfs_domount {arg volname : Name} (hn : 3 ≤ n) (hmap : (n + 4095) / 4096 ≤ 32)
    (hvol : volnameOf arg = .ok volname) (hlen : volname.length < 32) (disk : ℕ → Block) :
  ∃ s, main arg n (initial disk) = .ok () s
    ∧ ∀ m : Mounted, m.fs.disk = s.disk → m.fs.device.Serves n → m.fs.kmallocs = [] →
      ∃ m', domount m = .ok () m' ∧ Agrees n volname m'
  := by
  have hsize : n ≤ 2 ^ 22 := by omega
  obtain ⟨-, hblocks, -, -⟩ := bitmapSize_eq hsize
  obtain ⟨_, s, hmain, hwritten⟩ := exists_ok (main_spec hn (by omega) hsize hvol hlen disk)
  refine ⟨s, hmain, fun m hdisk hserves hk => ?_⟩
  rw [← hdisk] at hwritten
  have hsuper : Super.decode (m.fs.disk 0) = super volname n := by
    rw [hwritten.super, Super.decode_encode]
  have hnat : (super volname n).nblocks.toNat = n := by
    rw [super, UInt32.toNat_ofNat']
    omega
  have hroom : 2 + bitBlocks n ≤ n := by omega
  obtain ⟨_, m', hrun, hfresh⟩ := exists_ok (domount_spec hserves hk
    (by rw [hsuper]; rfl) (by rw [hsuper]; exact hnat) hroom)
  rw [hsuper] at hfresh
  exact ⟨m', hrun, agrees hn hsize hlen hserves hwritten hroom hfresh⟩

end Kernel

/-- The name `vol:`. -/
def volColon : Name := ⟨[118, 111, 108, 58], by decide⟩

/-- The name `vol`. -/
def vol : Name := ⟨[118, 111, 108], by decide⟩

/-- A disk of 4097 blocks, whose free map takes two blocks, with a trailing colon in the name. -/
theorem mksfs_domount_two_map_blocks :
  ∃ s, main volColon 4097 (initial fun _ => zeroBlock) = .ok () s
    ∧ ∀ m : Mounted, m.fs.disk = s.disk → m.fs.device.Serves 4097 → m.fs.kmallocs = [] →
      ∃ m', domount m = .ok () m' ∧ Agrees 4097 vol m'
  := mksfs_domount (by decide) (by decide) (by decide) (by decide) _

end Mksfs
