import AzureSpider.Lib.BitWords
import AzureSpider.Lib.Buf
import AzureSpider.Lib.Codec
import Mathlib.Data.List.OfFn

/-!
# The volume format of SFS

The structures of `kern/sfs.h` and how they lie in the blocks of a volume, on a big-endian
machine.  A block has `SFS_BLOCKSIZE = 512` bytes, an inode `SFS_NDIRECT = 15` direct blocks,
an indirect block `SFS_DBPERIDB = 128` entries, and a name `SFS_NAMELEN = 60` bytes.
-/

open Codec

namespace Sfs

/-- The contents of a block. -/
abbrev Block : Type := Buf 512 UInt8

/-- The block of zeros. -/
def zeroBlock : Block := Buf.ofFn fun _ => 0

@[simp]
theorem zeroBlock_get (j : ℕ) :
  zeroBlock.get j = 0
  := by
  by_cases hj : j < 512
  · apply Buf.get_ofFn _ hj
  · apply Buf.get_of_le _ (by omega)

/-! ### Superblocks -/

/-- `SFS_MAGIC`. -/
def magic : UInt32 := 0xabadf001

/-- `struct sfs_super`. -/
structure Super where
  magic : UInt32
  nblocks : UInt32
  volname : Buf 32 UInt8
  reserved : Buf 472 UInt8

namespace Super

/-- The block that holds a superblock. -/
def encode (sp : Super) : Block :=
  Buf.ofFn fun j =>
    if j < 4 then byte32 sp.magic j
    else if j < 8 then byte32 sp.nblocks (j - 4)
    else if j < 40 then sp.volname.get (j - 8)
    else sp.reserved.get (j - 40)

/-- The superblock that a block holds. -/
def decode (b : Block) : Super where
  magic := word32 b.get
  nblocks := word32 fun k => b.get (4 + k)
  volname := Buf.ofFn fun n => b.get (8 + n)
  reserved := Buf.ofFn fun n => b.get (40 + n)

/-- A superblock is read as it was written. -/
theorem decode_encode (sp : Super) :
  decode (encode sp) = sp
  := by
  obtain ⟨magic, nblocks, volname, reserved⟩ := sp
  simp only [decode, mk.injEq]
  refine ⟨?_, ?_, ?_, ?_⟩
  · apply word32_eq
    intro k hk
    rw [encode, Buf.get_ofFn _ (by omega), if_pos hk]
  · apply word32_eq
    intro k hk
    rw [encode, Buf.get_ofFn _ (by omega), if_neg (by omega), if_pos (by omega),
      Nat.add_sub_cancel_left]
  · apply Buf.ext'
    intro n hn
    simp (disch := omega) only [encode, Buf.get_ofFn, if_neg, if_pos, Nat.add_sub_cancel_left]
  · apply Buf.ext'
    intro n hn
    simp (disch := omega) only [encode, Buf.get_ofFn, if_neg, Nat.add_sub_cancel_left]

/-- The superblock with the name of the volume terminated. -/
def terminate (sp : Super) : Super := { sp with volname := sp.volname.set 31 0 }

/-- The name of the volume as a string. -/
def str (sp : Super) : List UInt8 := cstr 32 sp.volname.get

end Super

/-! ### The free map -/

/-- Block `j` of a free map. -/
def mapBlock (v : List (BitVec 8)) (j : ℕ) : Block :=
  Buf.ofFn fun k => UInt8.ofBitVec (v.getD (512 * j + k) 0)

/-- A free map with its block `j` loaded. -/
def loadMapBlock (v : List (BitVec 8)) (j : ℕ) (b : Block) : List (BitVec 8) :=
  v.mapIdx fun i x => if i / 512 = j then (b.get (i % 512)).toBitVec else x

/-- A bit of a block. -/
def blockBit (b : Block) (i : ℕ) : Bool := (b.get (i / 8)).toBitVec.getLsbD (i % 8)

theorem length_loadMapBlock (v : List (BitVec 8)) (j : ℕ) (b : Block) :
  (loadMapBlock v j b).length = v.length
  := List.length_mapIdx

theorem blockBit_mapBlock (v : List (BitVec 8)) (j : ℕ) {i : ℕ} (hi : i < 4096) :
  blockBit (mapBlock v j) i = BitWords.getBit v (4096 * j + i)
  := by
  have hdiv : (4096 * j + i) / 8 = 512 * j + i / 8 := by omega
  have hmod : (4096 * j + i) % 8 = i % 8 := by omega
  rw [blockBit, mapBlock, Buf.get_ofFn _ (by omega), BitWords.getBit, hdiv, hmod]

theorem getBit_loadMapBlock {v : List (BitVec 8)} {i : ℕ} (hi : i < 8 * v.length) (j : ℕ)
    (b : Block) :
  BitWords.getBit (loadMapBlock v j b) i
    = if i / 4096 = j then blockBit b (i % 4096) else BitWords.getBit v i
  := by
  have hlt : i / 8 < v.length := by omega
  have hdiv : i / 8 / 512 = i / 4096 := by omega
  have hmod : i / 8 % 512 = i % 4096 / 8 := by omega
  have hbit : i % 4096 % 8 = i % 8 := by omega
  rw [BitWords.getBit, loadMapBlock, List.getD_eq_getElem?_getD, List.getElem?_mapIdx,
    List.getElem?_eq_getElem hlt, Option.map_some, Option.getD_some, hdiv]
  split
  · rw [blockBit, hmod, hbit]
  · rw [BitWords.getBit, List.getD_eq_getElem?_getD, List.getElem?_eq_getElem hlt, Option.getD_some]

/-! ### Inodes -/

/-- `SFS_TYPE_INVAL`. -/
def typeInval : UInt16 := 0

/-- `SFS_TYPE_FILE`. -/
def typeFile : UInt16 := 1

/-- `SFS_TYPE_DIR`. -/
def typeDir : UInt16 := 2

/-- `struct sfs_inode`. -/
structure Inode where
  size : UInt32
  type : UInt16
  linkcount : UInt16
  direct : Buf 15 UInt32
  indirect : UInt32
  waste : Buf 440 UInt8

namespace Inode

/-- An inode with another size. -/
def setSize (i : Inode) (size : UInt32) : Inode := { i with size := size }

/-- The block that holds an inode. -/
def encode (i : Inode) : Block :=
  Buf.ofFn fun j =>
    if j < 4 then byte32 i.size j
    else if j < 6 then byte16 i.type (j - 4)
    else if j < 8 then byte16 i.linkcount (j - 6)
    else if j < 68 then byte32 (i.direct.get ((j - 8) / 4)) ((j - 8) % 4)
    else if j < 72 then byte32 i.indirect (j - 68)
    else i.waste.get (j - 72)

/-- The inode that a block holds. -/
def decode (b : Block) : Inode where
  size := word32 b.get
  type := word16 fun k => b.get (4 + k)
  linkcount := word16 fun k => b.get (6 + k)
  direct := Buf.ofFn fun n => word32 fun k => b.get (8 + 4 * n + k)
  indirect := word32 fun k => b.get (68 + k)
  waste := Buf.ofFn fun n => b.get (72 + n)

/-- An inode is read as it was written. -/
theorem decode_encode (i : Inode) :
  decode (encode i) = i
  := by
  obtain ⟨size, type, linkcount, direct, indirect, waste⟩ := i
  simp only [decode, mk.injEq]
  refine ⟨?_, ?_, ?_, ?_, ?_, ?_⟩
  · apply word32_eq
    intro k hk
    rw [encode, Buf.get_ofFn _ (by omega), if_pos hk]
  · apply word16_eq
    intro k hk
    rw [encode, Buf.get_ofFn _ (by omega), if_neg (by omega), if_pos (by omega),
      Nat.add_sub_cancel_left]
  · apply word16_eq
    intro k hk
    simp (disch := omega) only [encode, Buf.get_ofFn, if_neg, if_pos, Nat.add_sub_cancel_left]
  · apply Buf.ext'
    intro n hn
    rw [Buf.get_ofFn _ hn]
    apply word32_eq
    intro k hk
    have hdiv : (8 + 4 * n + k - 8) / 4 = n := by omega
    have hmod : (8 + 4 * n + k - 8) % 4 = k := by omega
    simp (disch := omega) only [encode, Buf.get_ofFn, if_neg, if_pos, hdiv, hmod]
  · apply word32_eq
    intro k hk
    simp (disch := omega) only [encode, Buf.get_ofFn, if_neg, if_pos, Nat.add_sub_cancel_left]
  · apply Buf.ext'
    intro n hn
    simp (disch := omega) only [encode, Buf.get_ofFn, if_neg, Nat.add_sub_cancel_left]

/-- A cleared block holds an inode of no type, without links and without blocks. -/
def cleared : Inode where
  size := 0
  type := typeInval
  linkcount := 0
  direct := Buf.ofFn fun _ => 0
  indirect := 0
  waste := Buf.ofFn fun _ => 0

theorem decode_zeroBlock :
  decode zeroBlock = cleared
  := by
  simp only [decode, cleared, zeroBlock_get, mk.injEq]
  refine ⟨rfl, rfl, rfl, ?_, rfl, trivial⟩
  funext n
  rfl

end Inode

/-! ### Indirect blocks -/

/-- The entries of an indirect block. -/
abbrev Idbuf : Type := Buf 128 UInt32

namespace Idbuf

/-- The block that holds a table of blocks. -/
def encode (t : Idbuf) : Block := Buf.ofFn fun j => byte32 (t.get (j / 4)) (j % 4)

/-- The table of blocks that a block holds. -/
def decode (b : Block) : Idbuf := Buf.ofFn fun n => word32 fun k => b.get (4 * n + k)

/-- The table without blocks. -/
def zero : Idbuf := Buf.ofFn fun _ => 0

@[simp]
theorem decode_encode (t : Idbuf) :
  decode (encode t) = t
  := by
  apply Buf.ext'
  intro n hn
  rw [decode, Buf.get_ofFn _ hn]
  apply word32_eq
  intro k hk
  have hdiv : (4 * n + k) / 4 = n := by omega
  have hmod : (4 * n + k) % 4 = k := by omega
  rw [encode, Buf.get_ofFn _ (by omega), hdiv, hmod]

@[simp]
theorem zero_get (j : ℕ) :
  zero.get j = 0
  := by
  by_cases hj : j < 128
  · apply Buf.get_ofFn _ hj
  · apply Buf.get_of_le _ (by omega)

@[simp]
theorem decode_zeroBlock :
  decode zeroBlock = zero
  := by
  funext n
  simp only [decode, zero, zeroBlock_get]
  rfl

end Idbuf

/-! ### Directory entries -/

/-- A name: a string of the C language, without the terminating null. -/
structure Name where
  bytes : List UInt8
  /-- No byte of it is null. -/
  not_mem : 0 ∉ bytes
  deriving DecidableEq

/-- `strlen`. -/
def Name.length (n : Name) : ℕ := n.bytes.length

/-- The name `a`. -/
def nameA : Name := ⟨[97], by decide⟩

/-- `struct sfs_dir`. -/
structure SfsDir where
  ino : UInt32
  name : Buf 60 UInt8

namespace SfsDir

/-- The bytes of an entry. -/
def encode (d : SfsDir) : Buf 64 UInt8 :=
  Buf.ofFn fun j => if j < 4 then byte32 d.ino j else d.name.get (j - 4)

/-- The entry that the bytes from `b` on make. -/
def decode (b : ℕ → UInt8) : SfsDir where
  ino := word32 b
  name := Buf.ofFn fun j => b (4 + j)

/-- The entry of a slot that is free. -/
def free : SfsDir := ⟨0, Buf.ofFn fun _ => 0⟩

/-- The entry that `sfs_dir_link` sets up: `bzero`, and the name copied by `strcpy`. -/
def make (ino : UInt32) (name : Name) : SfsDir := ⟨ino, Buf.ofFn fun j => name.bytes.getD j 0⟩

/-- The name in an entry as a string, once its last byte is made null: all bytes before the
first null. -/
def str (d : SfsDir) : List UInt8 :=
  ((List.range 60).map (d.name.set 59 0).get).takeWhile (· ≠ 0)

theorem decode_congr {b c : ℕ → UInt8} (h : ∀ j < 64, b j = c j) :
  decode b = decode c
  := by
  simp only [decode, mk.injEq]
  constructor
  · apply word32_congr
    intro k hk
    apply h k (by omega)
  · apply Buf.ext'
    intro j hj
    rw [Buf.get_ofFn _ hj, Buf.get_ofFn _ hj]
    apply h _ (by omega)

@[simp]
theorem decode_encode (d : SfsDir) :
  decode d.encode.get = d
  := by
  obtain ⟨ino, name⟩ := d
  simp only [decode, mk.injEq]
  constructor
  · apply word32_eq
    intro k hk
    rw [encode, Buf.get_ofFn _ (by omega), if_pos hk]
  · apply Buf.ext'
    intro j hj
    rw [Buf.get_ofFn _ hj, encode, Buf.get_ofFn _ (by omega), if_neg (by omega),
      Nat.add_sub_cancel_left]

/-- The string in an entry that was made for a name is the name. -/
theorem str_make (ino : UInt32) (name : Name) (hlen : name.length < 60) :
  (make ino name).str = name.bytes
  := by
  apply cstr_of_pad name.not_mem hlen
  intro j hj
  rw [Buf.get_set _ _ (by decide), make, Buf.get_ofFn _ hj]
  split_ifs with hlast
  · -- the name ends before the byte that is made null
    rw [List.getD_eq_getElem?_getD, List.getElem?_eq_none, Option.getD_none]
    rw [Name.length] at hlen
    omega
  · rfl

end SfsDir

end Sfs
