import AzureSpider.Lib.Slots
import AzureSpider.Sfs.Write

/-!
# Directories

The directory I/O of `sfs_vnode.c`.  A directory is a file of entries of 64 bytes, one in each
slot; an entry without an inode is free.  The slots of a directory are a table of names and
inode numbers (`slotsOf`), and the routines are specified by what they do to the table.
-/

open Machine Routine

namespace Sfs

/-- `sfs_readdir`. -/
def readdir (sv : Ptr) (slot : ℕ) : Run SfsDir := do
  let actualpos := i32 (u32 (slot * 64))
  let ku := Uio.mkKuio (Buf.ofFn fun _ => 0 : Buf 64 UInt8) 64 actualpos .read
  let r ← withState ku (io sv)
  match r.1 with
  | .ok _ => do
      assert (¬ 0 < r.2.resid) .readdirShort
      pure (SfsDir.decode r.2.mem)
  | .error e => fail e

/-- `sfs_writedir`. -/
def writedir (sv : Ptr) (sd : SfsDir) (slot : ℕ) : Run Unit := do
  let actualpos := i32 (u32 (slot * 64))
  let ku := Uio.mkKuio sd.encode 64 actualpos .write
  let r ← withState ku (io sv)
  match r.1 with
  | .ok _ => assert (¬ 0 < r.2.resid) .writedirShort
  | .error e => fail e

/-- `sfs_dir_nentries`. -/
def dirNentries (sv : Ptr) : Run ℕ := do
  let s ← get
  assert ((s.heap sv).i.type = typeDir) .nentriesType
  assert ((s.heap sv).i.size.toNat % 64 = 0) .nentriesSize
  pure ((s.heap sv).i.size.toNat / 64)

/-- What `sfs_dir_findname` hands back: the slot and the inode number of the name, and a free
slot. -/
structure Findname where
  found : Option (ℕ × UInt32)
  emptyslot : Option ℕ

/-- One round of the loop of `sfs_dir_findname`. -/
def findnameSlot (sv : Ptr) (name : Name) (i : ℕ) (r : Findname) : Run Findname := do
  let tsd ← readdir sv i
  if tsd.ino = 0 then
    pure { r with emptyslot := some i }
  else if tsd.str = name.bytes then do
    assert (r.found = none) .findnameTwice
    pure { r with found := some (i, tsd.ino) }
  else
    pure r

/-- `sfs_dir_findname`, which returns `ENOENT` if the name is not found, and hands back a free
slot in any case. -/
def dirFindname (sv : Ptr) (name : Name) : Run Findname := do
  let nentries ← dirNentries sv
  loop nentries 0 (findnameSlot sv name) ⟨none, none⟩

/-- `sfs_dir_link`, which hands back the slot. -/
def dirLink (sv : Ptr) (name : Name) (ino : UInt32) : Run ℕ := do
  let r ← dirFindname sv name
  match r.found with
  | some _ => fail .eexist
  | none =>
    if name.length + 1 > 60 then
      fail .enametoolong
    else do
      let slot ←
        match r.emptyslot with
        | some slot => pure slot
        | none => dirNentries sv
      writedir sv (SfsDir.make ino name) slot
      pure slot

/-- `sfs_dir_unlink`. -/
def dirUnlink (sv : Ptr) (slot : ℕ) : Run Unit := writedir sv SfsDir.free slot

/-! ### The slots of a directory -/

/-- The name and the inode number of an entry that is not free. -/
def SfsDir.live (d : SfsDir) : Option (List UInt8 × ℕ) :=
  if d.ino = 0 then none else some (d.str, d.ino.toNat)

/-- The entry in a slot of a directory with the bytes. -/
def entryAt (bytes : ℕ → UInt8) (k : ℕ) : SfsDir := SfsDir.decode fun j => bytes (64 * k + j)

/-- The table of the slots of a directory. -/
def slotsOf (size : ℕ) (bytes : ℕ → UInt8) : List (Option (List UInt8 × ℕ)) :=
  (List.range (size / 64)).map fun k => (entryAt bytes k).live

/-- The table of the slots of the directory of a vnode. -/
def Fs.slots (s : Fs) (p : Ptr) : List (Option (List UInt8 × ℕ)) :=
  slotsOf (s.size p) (s.byteAt p)

/-- The file of a vnode is a directory of whole entries. -/
structure Fs.IsDir (s : Fs) (p : Ptr) : Prop where
  type : (s.heap p).i.type = typeDir
  dvd : 64 ∣ s.size p
  le : s.size p ≤ 73216

section Slots

variable {p : Ptr} {s s' : Fs} {k l : ℕ} {d : SfsDir}

theorem length_slotsOf (size : ℕ) (bytes : ℕ → UInt8) :
  (slotsOf size bytes).length = size / 64
  := by
  rw [slotsOf, List.length_map, List.length_range]

theorem getElem?_slotsOf (size : ℕ) (bytes : ℕ → UInt8) (k : ℕ) :
  (slotsOf size bytes)[k]? = if k < size / 64 then some (entryAt bytes k).live else none
  := by
  rw [slotsOf, List.getElem?_map]
  by_cases hk : k < size / 64
  · rw [if_pos hk, List.getElem?_range hk, Option.map_some]
  · rw [if_neg hk, List.getElem?_eq_none (by rw [List.length_range]; omega), Option.map_none]

theorem slotsOf_congr {size : ℕ} {bytes bytes' : ℕ → UInt8}
    (h : ∀ pos < size, bytes' pos = bytes pos) :
  slotsOf size bytes' = slotsOf size bytes
  := by
  apply List.map_congr_left
  intro k hk
  rw [List.mem_range] at hk
  rw [entryAt, entryAt, SfsDir.decode_congr]
  intro j hj
  apply h
  omega

theorem live_free :
  SfsDir.free.live = none
  := if_pos rfl

theorem live_make {ino : ℕ} {name : Name} (hlen : name.length < 60) (hlt : ino < 2 ^ 32)
    (hne : ino ≠ 0) :
  (SfsDir.make (UInt32.ofNat ino) name).live = some (name.bytes, ino)
  := by
  have hnat : (UInt32.ofNat ino).toNat = ino := by
    rw [UInt32.toNat_ofNat']
    omega
  have hino : UInt32.ofNat ino ≠ 0 := by
    intro hzero
    rw [hzero] at hnat
    exact hne hnat.symm
  have hmake : (SfsDir.make (UInt32.ofNat ino) name).ino = UInt32.ofNat ino := rfl
  rw [SfsDir.live, SfsDir.str_make _ _ hlen, hmake, if_neg hino, hnat]

/-- An entry is written to a slot, or behind the last one. -/
theorem Written.slots (h : Written p s s' (64 * k) 64 d.encode.get) (hdvd : 64 ∣ s.size p)
    (hk : 64 * k ≤ s.size p) :
  s'.slots p = Slots.put (s.slots p) k d.live
  := by
  obtain ⟨n, hn⟩ := hdvd
  have hlen : (s.slots p).length = n := by
    rw [Fs.slots, length_slotsOf, hn, Nat.mul_div_cancel_left _ (by decide)]
  have hsize : s'.size p / 64 = max n (k + 1) := by
    rw [h.size, hn]
    omega
  apply List.ext_getElem?
  intro l
  rw [Slots.getElem?_put (by omega), Fs.slots, getElem?_slotsOf, hsize]
  by_cases hl : l = k
  · subst hl
    rw [if_pos (by omega), if_pos rfl]
    have hentry : entryAt (s'.byteAt p) l = d := by
      rw [entryAt, ← SfsDir.decode_encode d]
      apply SfsDir.decode_congr
      intro j hj
      rw [h.bytes, if_pos (by omega), Nat.add_sub_cancel_left]
    rw [hentry]
  · rw [if_neg hl, Fs.slots, getElem?_slotsOf, hn, Nat.mul_div_cancel_left _ (by decide)]
    have hiff : l < max n (k + 1) ↔ l < n := by omega
    have hentry : entryAt (s'.byteAt p) l = entryAt (s.byteAt p) l := by
      apply SfsDir.decode_congr
      intro j hj
      rw [h.bytes, if_neg (by omega)]
    rw [hentry]
    simp only [hiff]

theorem Grown.slots (h : Grown p s s') :
  s'.slots p = s.slots p
  := by
  rw [Fs.slots, Fs.slots, h.size]
  apply slotsOf_congr
  intro pos _
  apply h.bytes

theorem Grown.isDir (h : Grown p s s') (hd : s.IsDir p) :
  s'.IsDir p
  := by
  refine ⟨h.kept.type.trans hd.type, ?_, ?_⟩
  · rw [h.size]
    exact hd.dvd
  · rw [h.size]
    exact hd.le

end Slots

/-! ### What the routines do -/

section Specs

variable {p : Ptr} {s : Fs} {k : ℕ} {name : Name}

theorem slotpos_eq (hk : 64 * k ≤ 73216) :
  i32 ((u32 (k * 64) : ℕ) : ℤ) = ((64 * k : ℕ) : ℤ)
  := by
  rw [u32_of_lt (by omega), i32_of_mem (by omega) (by omega)]
  omega

theorem mkKuio_within (kbuf : Buf 64 UInt8) (rw : UioRw) (hk : 64 * k ≤ 73216) :
  (Uio.mkKuio kbuf 64 (i32 (u32 (k * 64) : ℕ)) rw).Within
  := by
  rw [slotpos_eq hk]
  refine ⟨Uio.mkKuio_ready kbuf rw (by omega) (by omega) (by omega), ?_⟩
  simp only [Uio.mkKuio]
  omega

theorem readdir_spec (h : s.Sound) (hok : s.FileOk p) (hd : s.IsDir p)
    (hk : 64 * k + 64 ≤ s.size p) :
  wp (readdir p k) s (fun d s' => d = entryAt (s.byteAt p) k ∧ s' = s)
  := by
  have hle := hd.le
  have hread : s.readable p (64 * k) 64 = 64 := by
    unfold Fs.readable
    omega
  simp only [readdir, wp_bind, wp_withState]
  apply wp_mono (io_read h hok (by omega) (mkKuio_within _ .read (by omega)) rfl
    (slotpos_eq (by omega)) (n := 64) rfl)
  · rintro - ⟨s', u'⟩ ⟨rfl, hgiven, -⟩
    rw [hread] at hgiven
    have hresid : u'.resid = 0 := by
      have hsum : u'.resid + 64 = 64 := hgiven.resid
      omega
    simp only [wp_assert, wp_pure, hresid]
    refine ⟨Nat.lt_irrefl 0, ?_, trivial⟩
    apply SfsDir.decode_congr
    intro j hj
    rw [hgiven.mem j]
    exact if_pos ⟨Nat.zero_le j, by simpa [Uio.mkKuio] using hj⟩
  · rintro e ⟨s', u'⟩ ⟨-, hcause⟩
    obtain ⟨-, -, hfar⟩ := hcause (Uio.mkKuio_reliable _ _ _ _)
    rw [hread] at hfar
    omega

/-- `sfs_writedir` puts an entry in a slot, or the file is too large for the slot, or the volume
is full. -/
theorem writedir_spec (h : s.Sound) (hok : s.FileOk p) (hd : s.IsDir p) (d : SfsDir)
    (hk : 64 * k ≤ s.size p) :
  wp (writedir p d k) s
    (fun _ s' => Written p s s' (64 * k) 64 d.encode.get)
    (fun e s' => Grown p s s'
      ∧ (e = .einval ∧ 73216 < 64 * k + 64 ∨ e = .enospc ∧ ¬ s.Room p (64 * k / 512)))
  := by
  have hle := hd.le
  have hdata : ∀ pos : ℤ, dataOf (Uio.mkKuio d.encode 64 pos .write) = d.encode.get := by
    intro pos
    funext j
    rw [dataOf]
    exact congrArg d.encode.get (Nat.zero_add j)
  simp only [writedir, wp_bind, wp_withState]
  apply wp_mono (io_write h hok (by omega) (mkKuio_within _ .write (by omega)).toReady.ahead rfl
    (slotpos_eq (by omega)) (n := 64) rfl)
  · rintro - ⟨s', u'⟩ ⟨hwritten, htaken, -⟩
    have hresid : u'.resid = 0 := by
      have hsum : u'.resid + 64 = 64 := htaken.resid
      omega
    rw [hdata] at hwritten
    simp only [wp_assert, hresid]
    exact ⟨Nat.lt_irrefl 0, hwritten⟩
  · rintro e ⟨s', u'⟩ ⟨⟨t, -, hone, hwritten, htaken, hcause⟩, hfails⟩
    simp only [wp_fail]
    obtain rfl := hone (by omega)
    refine ⟨⟨hwritten.toFileStep, ?_, ?_, hwritten.mapped⟩, ?_⟩
    · rw [hwritten.size]
      omega
    · intro pos
      rw [hwritten.bytes, if_neg (by omega)]
    · rcases hcause with ⟨rfl, hfar⟩ | ⟨rfl, pos, hpos, hin, hlt, -⟩ | ⟨-, hr⟩
      · exact .inl ⟨rfl, hfar⟩
      · -- the request fits in one block, so it did not start
        right
        have hblk : pos / 512 = 64 * k / 512 := by omega
        rw [hblk] at hlt
        have hnot := (hfails (by decide)).mp htaken.resid
        exact ⟨rfl, fun hroom => hnot ⟨hlt, hroom, .inl rfl⟩⟩
      · exact absurd (Uio.mkKuio_reliable _ _ _ _) hr

theorem dirNentries_spec (hd : s.IsDir p) (hQ : Q (s.slots p).length s) :
  wp (dirNentries p) s Q E
  := by
  have hmod : (s.heap p).i.size.toNat % 64 = 0 := Nat.mod_eq_zero_of_dvd hd.dvd
  simp only [dirNentries, wp_bind, wp_get, wp_assert, wp_pure]
  refine ⟨hd.type, hmod, ?_⟩
  rw [Fs.slots, length_slotsOf] at hQ
  exact hQ

/-- What is known of the first `n` slots of a table once they were searched for a name. -/
structure Searched (t : List (Option (List UInt8 × ℕ))) (x : List UInt8) (n : ℕ)
    (r : Findname) : Prop where
  found : ∀ k i, r.found = some (k, i) → k < n ∧ t[k]? = some (some (x, i.toNat))
  missing : r.found = none → ∀ k < n, ∀ i, t[k]? ≠ some (some (x, i))
  empty : ∀ k, r.emptyslot = some k → t[k]? = some none
  full : r.emptyslot = none → ∀ k < n, t[k]? ≠ some none

theorem findnameSlot_spec (h : s.Sound) (hok : s.FileOk p) (hd : s.IsDir p)
    (hdistinct : Slots.Distinct (s.slots p)) (hk : k < (s.slots p).length) {r : Findname}
    (hr : Searched (s.slots p) name.bytes k r) :
  wp (findnameSlot p name k r) s
    (fun r' s' => Searched (s.slots p) name.bytes (k + 1) r' ∧ s' = s)
  := by
  have hlen := length_slotsOf (s.size p) (s.byteAt p)
  have hslot : (s.slots p)[k]? = some (entryAt (s.byteAt p) k).live := by
    rw [Fs.slots, getElem?_slotsOf]
    apply if_pos
    rw [← hlen]
    exact hk
  have hin : 64 * k + 64 ≤ s.size p := by
    rw [Fs.slots, hlen] at hk
    omega
  simp only [findnameSlot, wp_bind]
  apply wp_sure (readdir_spec h hok hd hin)
  rintro d s' ⟨rfl, rfl⟩
  simp only [wp_ite, wp_pure, wp_bind, wp_assert]
  refine ⟨?_, fun hlive => ⟨?_, ?_⟩⟩
  · -- a free slot
    intro hfree
    rw [SfsDir.live, if_pos hfree] at hslot
    refine ⟨⟨?_, ?_, ?_, (fun hnone => by cases hnone)⟩, trivial⟩
    · intro l i hl
      exact (hr.found l i hl).imp_left Nat.lt_succ_of_lt
    · intro hnone
      rw [Nat.forall_lt_succ_right, hslot]
      exact ⟨hr.missing hnone, by simp⟩
    · rintro l ⟨⟩
      exact hslot
  · -- the name
    intro hname
    rw [SfsDir.live, if_neg hlive, hname] at hslot
    have hnone : r.found = none := by
      cases hfound : r.found with
      | none => rfl
      | some hit =>
        obtain ⟨hlt, heq⟩ := hr.found hit.1 hit.2 hfound
        have hsame := hdistinct.slot_eq heq hslot
        omega
    refine ⟨hnone, ⟨?_, (fun hnot => by cases hnot), hr.empty, ?_⟩, trivial⟩
    · rintro l i ⟨⟩
      exact ⟨Nat.lt_succ_self k, hslot⟩
    · intro hfull
      rw [Nat.forall_lt_succ_right, hslot]
      exact ⟨hr.full hfull, by simp⟩
  · -- another name
    intro hname
    rw [SfsDir.live, if_neg hlive] at hslot
    refine ⟨⟨?_, ?_, hr.empty, ?_⟩, trivial⟩
    · intro l i hl
      exact (hr.found l i hl).imp_left Nat.lt_succ_of_lt
    · intro hnone
      rw [Nat.forall_lt_succ_right, hslot]
      refine ⟨hr.missing hnone, fun i heq => hname ?_⟩
      exact (Prod.mk.inj (Option.some.inj (Option.some.inj heq))).1
    · intro hfull
      rw [Nat.forall_lt_succ_right, hslot]
      exact ⟨hr.full hfull, by simp⟩

/-- `sfs_dir_findname` searches all slots. -/
theorem dirFindname_spec (h : s.Sound) (hok : s.FileOk p) (hd : s.IsDir p)
    (hdistinct : Slots.Distinct (s.slots p)) (name : Name) :
  wp (dirFindname p name) s
    (fun r s' => Searched (s.slots p) name.bytes (s.slots p).length r ∧ s' = s)
  := by
  simp only [dirFindname, wp_bind]
  apply dirNentries_spec hd
  apply wp_loop_run (fun k r s' => Searched (s.slots p) name.bytes k r ∧ s' = s)
  · refine ⟨⟨?_, ?_, ?_, ?_⟩, rfl⟩
    · intro k i hnone
      cases hnone
    · intro _ k hk
      exact absurd hk (Nat.not_lt_zero k)
    · intro k hnone
      cases hnone
    · intro _ k hk
      exact absurd hk (Nat.not_lt_zero k)
  · rintro k r s' hk ⟨hr, rfl⟩
    exact findnameSlot_spec h hok hd hdistinct hk hr

/-- A name that is not found is in no slot. -/
theorem Searched.lookup_eq_none {t : List (Option (List UInt8 × ℕ))} {x : List UInt8}
    {r : Findname} (h : Searched t x t.length r) (hnone : r.found = none) :
  Slots.lookup t x = none
  := by
  rw [Slots.lookup_eq_none]
  intro i hi
  obtain ⟨k, hk⟩ := List.mem_iff_getElem?.mp (Slots.mem_entries.mp hi)
  have hlt := (List.getElem?_eq_some_iff.mp hk).1
  exact h.missing hnone k hlt i hk

/-- A name that is found is in the table. -/
theorem Searched.lookup_eq_some {t : List (Option (List UInt8 × ℕ))} {x : List UInt8}
    {r : Findname} {k : ℕ} {i : UInt32} (h : Searched t x t.length r)
    (hdistinct : Slots.Distinct t) (hfound : r.found = some (k, i)) :
  Slots.lookup t x = some i.toNat
  := by
  rw [Slots.lookup_eq_some hdistinct, Slots.mem_entries]
  exact List.mem_of_getElem? (h.found k i hfound).2

/-- A step that makes an entry in a directory, in a slot that was free or is new. -/
structure Linked (p : Ptr) (s : Fs) (name : Name) (ino k : ℕ) (s' : Fs) : Prop
    extends FileStep p s s' where
  isDir : s'.IsDir p
  lookup : Slots.lookup (s.slots p) name.bytes = none
  length : name.length < 60
  le : k ≤ (s.slots p).length
  free : ∀ b, (s.slots p)[k]? ≠ some (some b)
  slots : s'.slots p = Slots.put (s.slots p) k (some (name.bytes, ino))

/-- A step that does not make an entry, with the reason. -/
structure NotLinked (p : Ptr) (s : Fs) (name : Name) (e : Errno) (s' : Fs) : Prop
    extends Grown p s s' where
  cause : e = .eexist ∧ (Slots.lookup (s.slots p) name.bytes).isSome
    ∨ Slots.lookup (s.slots p) name.bytes = none
      ∧ (e = .enametoolong ∧ 60 ≤ name.length
        ∨ e = .enospc ∧ name.length < 60 ∧ (∃ k ≤ (s.slots p).length,
          (∀ b, (s.slots p)[k]? ≠ some (some b))
          ∧ s.freeBlocks < lacking (s.ptr p) (64 * k / 512))
        ∨ e = .einval ∧ name.length < 60 ∧ (s.slots p).length = 1144
          ∧ ∀ k : ℕ, (s.slots p)[k]? ≠ some none)

/-- An entry is made in a slot that is free, or behind the last one if no slot is free. -/
theorem linkAt_spec (h : s.Sound) (hok : s.FileOk p) (hd : s.IsDir p) {ino : ℕ}
    (hino : ino < 2 ^ 32) (hne : ino ≠ 0)
    (hnone : Slots.lookup (s.slots p) name.bytes = none) (hshort : name.length < 60)
    (hk : k ≤ (s.slots p).length) (hfree : ∀ b, (s.slots p)[k]? ≠ some (some b))
    (hfull : k = (s.slots p).length → ∀ l : ℕ, (s.slots p)[l]? ≠ some none) :
  wp (writedir p (SfsDir.make (UInt32.ofNat ino) name) k) s
    (fun _ s' => Linked p s name ino k s') (NotLinked p s name)
  := by
  have hlen : (s.slots p).length = s.size p / 64 := length_slotsOf _ _
  have hdvd := hd.dvd
  have hle := hd.le
  have hpos : 64 * k ≤ s.size p := by omega
  apply wp_mono (writedir_spec h hok hd (SfsDir.make (UInt32.ofNat ino) name) hpos)
  · intro _ s' hwritten
    have hsize := hwritten.size
    have hbound := hwritten.le (by decide)
    have hslots := hwritten.slots hdvd hpos
    rw [live_make hshort hino hne] at hslots
    refine ⟨hwritten.toFileStep, ⟨hwritten.kept.type.trans hd.type, ?_, ?_⟩, hnone, hshort, hk,
      hfree, hslots⟩
    · omega
    · omega
  · rintro e s' ⟨hgrown, hcause⟩
    refine ⟨hgrown, .inr ⟨hnone, .inr ?_⟩⟩
    rcases hcause with ⟨rfl, hfar⟩ | ⟨rfl, hroom⟩
    · have hlast : (s.slots p).length = 1144 ∧ k = 1144 := by omega
      exact .inr ⟨rfl, hshort, hlast.1, hfull (hlast.2.trans hlast.1.symm)⟩
    · exact .inl ⟨rfl, hshort, k, hk, hfree, Fs.freeBlocks_lt hroom⟩

theorem dirLink_spec (h : s.Sound) (hok : s.FileOk p) (hd : s.IsDir p)
    (hdistinct : Slots.Distinct (s.slots p)) (name : Name) {ino : ℕ} (hino : ino < 2 ^ 32)
    (hne : ino ≠ 0) :
  wp (dirLink p name (UInt32.ofNat ino)) s (Linked p s name ino)
    (NotLinked p s name)
  := by
  simp only [dirLink, wp_bind]
  apply wp_sure (dirFindname_spec h hok hd hdistinct name)
  rintro r s' ⟨hr, rfl⟩
  cases hfound : r.found with
  | some hit =>
    simp only [wp_fail]
    refine ⟨Grown.refl h hok, .inl ⟨rfl, ?_⟩⟩
    rw [hr.lookup_eq_some (k := hit.1) (i := hit.2) hdistinct hfound]
    rfl
  | none =>
    have hnone := hr.lookup_eq_none hfound
    simp only [wp_ite, wp_fail]
    refine ⟨fun hlong => ?_, fun hshort => ?_⟩
    · exact ⟨Grown.refl h hok, .inr ⟨hnone, .inl ⟨rfl, by omega⟩⟩⟩
    · cases hempty : r.emptyslot with
      | some k =>
        have hslot := hr.empty k hempty
        have hk := (List.getElem?_eq_some_iff.mp hslot).1
        simp only [wp_pure, wp_bind]
        apply linkAt_spec h hok hd hino hne hnone (by omega) (Nat.le_of_lt hk)
        · intro b hb
          rw [hslot] at hb
          cases hb
        · omega
      | none =>
        simp only [wp_pure, wp_bind]
        apply dirNentries_spec hd
        apply linkAt_spec h hok hd hino hne hnone (by omega) (Nat.le_refl _)
        · intro b hb
          rw [List.getElem?_eq_none (Nat.le_refl _)] at hb
          cases hb
        · intro _ k hk
          have hlt := (List.getElem?_eq_some_iff.mp hk).1
          exact hr.full hempty k hlt hk

/-- A step that clears a slot of a directory. -/
structure Unlinked (p : Ptr) (s : Fs) (k : ℕ) (s' : Fs) : Prop extends FileStep p s s' where
  isDir : s'.IsDir p
  slots : s'.slots p = Slots.put (s.slots p) k none

/-- `sfs_dir_unlink`, which needs no new block: the block of an entry that is not free is
there. -/
theorem dirUnlink_spec (h : s.Sound) (hok : s.FileOk p) (hd : s.IsDir p)
    {e : List UInt8 × ℕ} (hk : (s.slots p)[k]? = some (some e)) :
  wp (dirUnlink p k) s (fun _ s' => Unlinked p s k s')
  := by
  have hlen : (s.slots p).length = s.size p / 64 := length_slotsOf _ _
  have hlt := (List.getElem?_eq_some_iff.mp hk).1
  have hdvd := hd.dvd
  have hle := hd.le
  rw [dirUnlink]
  apply wp_mono (writedir_spec h hok hd SfsDir.free (k := k) (by omega))
  · intro _ s' hwritten
    have hsize := hwritten.size
    have hslots := hwritten.slots hdvd (by omega)
    rw [live_free] at hslots
    refine ⟨hwritten.toFileStep, ⟨hwritten.kept.type.trans hd.type, ?_, ?_⟩, hslots⟩
    · omega
    · omega
  · rintro err s' ⟨-, ⟨-, hfar⟩ | ⟨-, hroom⟩⟩
    · omega
    · -- without a block, the bytes of the entry were zero
      rw [Fs.slots, getElem?_slotsOf, if_pos (by omega)] at hk
      have hentry : entryAt (s.byteAt p) k = SfsDir.decode fun _ => 0 := by
        apply SfsDir.decode_congr
        intro j hj
        have hblk : (64 * k + j) / 512 = 64 * k / 512 := by omega
        apply Inode.byteAt_of_ptr_eq_zero
        rw [hblk]
        by_contra hne
        exact hroom (.inl hne)
      rw [hentry] at hk
      cases hk

end Specs

end Sfs
