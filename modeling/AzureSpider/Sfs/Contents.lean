import AzureSpider.Sfs.History

/-!
# The contents of files

What `sfs_write`, `sfs_read` and `sfs_truncate` do to what can be seen of the files.

* A write that succeeds puts its bytes in the file, and a read that follows gives the bytes of the
  file up to its size, as far as a file has blocks and the memory that is read into can be written
  to.  The other files stay as they are, over any number of calls.
* A byte that was not written since the size of the file was last at or below its position reads
  as zero, as long as what is cut off a file is gone.  `sfs_truncate` leaves the rest of the block
  in which it cuts, and one block too many of those in the indirect block.
-/

open Machine Routine

namespace Sfs

/-! ### Transfers -/

section Transfers

variable {lost : ℕ → Prop} {s s' : Fs} {v : Ptr} {u u' : Uio} {r : Except Errno Unit} {t : ℕ}

/-- What can be seen of a file after a step of it. -/
theorem Consistent.file_fileStep_self (h : Consistent lost s) (hv : v ∈ s.vnodes.guys)
    (hstep : FileStep v s s') (hsize : s'.size v < 2 ^ 31) :
  (s'.file (s.heap v).ino).size = s'.size v ∧ (s'.file (s.heap v).ino).bytes = s'.byteAt v
  := by
  have hv' : v ∈ s'.vnodes.guys := by
    rw [hstep.vnodes]
    exact hv
  have hfile := (h.catalog.fileStep hv hstep hsize).file_eq hv'
  rw [hstep.ino_eq] at hfile
  rw [hfile]
  exact ⟨rfl, rfl⟩

section Put

variable (h : Consistent lost s) (hv : v ∈ s.vnodes.guys) (hu : u.Within)
  (hput : Put v u s r u' t s')

include h hv hu hput

theorem Put.size_lt :
  s'.size v < 2 ^ 31
  := by
  have hsize := h.size_lt hv
  have hend := hu.end_lt
  have hle := hput.le
  have hpos := hu.offset_nonneg
  rw [hput.written.size]
  omega

/-- The size of a file that was written to. -/
theorem Put.file_size :
  (s'.file (s.heap v).ino).size = max (s.file (s.heap v).ino).size (u.offset.toNat + t)
  := by
  have hself := h.file_fileStep_self hv hput.written.toFileStep (hput.size_lt h hv hu)
  rw [hself.1, hput.written.size, h.catalog.file_eq hv]

/-- The bytes of a file that was written to. -/
theorem Put.file_bytes (pos : ℕ) :
  (s'.file (s.heap v).ino).bytes pos
    = if u.offset.toNat ≤ pos ∧ pos < u.offset.toNat + t then dataOf u (pos - u.offset.toNat)
      else (s.file (s.heap v).ino).bytes pos
  := by
  have hself := h.file_fileStep_self hv hput.written.toFileStep (hput.size_lt h hv hu)
  rw [hself.2, hput.written.bytes, h.catalog.file_eq hv]

omit hu in
/-- The other files, when one was written to. -/
theorem Put.file_others {j : ℕ} (hj : j ≠ (s.heap v).ino) (hlive : s.Live j) :
  s'.file j = s.file j
  := h.catalog.file_fileStep hv hput.written.toFileStep hlive hj

end Put

end Transfers

/-! ### A write and a read -/

/-- `n` bytes are stored at the position `o` of the file with the number `ino`, and nothing else
changes that can be seen. -/
structure Stored (s s' : Fs) (ino o n : ℕ) (f : ℕ → UInt8) : Prop where
  put : ∀ j < n, (s'.file ino).bytes (o + j) = f j
  kept : ∀ pos < (s.file ino).size, (pos < o ∨ o + n ≤ pos) →
    (s'.file ino).bytes pos = (s.file ino).bytes pos
  size : (s'.file ino).size = max (s.file ino).size (o + n)
  others : ∀ j, s.Live j → j ≠ ino → s'.file j = s.file j
  dir : s'.dir = s.dir

/-- The region `u'` is `u` after the bytes of a file were read into it, from the offset of `u` on
up to the size of the file. -/
structure Delivered (f : FileView) (u u' : Uio) (o t : ℕ) : Prop where
  amount : t = min u.resid (f.size - o)
  mem : ∀ a, u'.mem a = if u.base ≤ a ∧ a < u.base + t then f.bytes (o + (a - u.base)) else u.mem a
  resid : u'.resid = u.resid - t
  offset : u'.offset = u.offset + t

section WriteRead

variable {lost : ℕ → Prop} {s s' : Fs} {v : Ptr} {u u' : Uio} {r : Except Errno Unit}

variable (h : Consistent lost s) (hv : v ∈ s.vnodes.guys)
include h hv

theorem Put.stored (hu : u.Within) (hput : Put v u s r u' u.resid s') :
  Stored s s' (s.heap v).ino u.offset.toNat u.resid (dataOf u)
  := by
  have hothers := fun j hl hj => hput.file_others h hv (j := j) hj hl
  refine ⟨?_, ?_, hput.file_size h hv hu, hothers, ?_⟩
  · intro j hj
    rw [hput.file_bytes h hv hu, if_pos ⟨Nat.le_add_right _ _, by omega⟩, Nat.add_sub_cancel_left]
  · intro pos _ hout
    rw [hput.file_bytes h hv hu, if_neg]
    rintro ⟨hle, hlt⟩
    omega
  · exact Fs.dir_congr (hothers 1 s.live_root hput.ne_root.symm)

theorem Got.delivered (hu : u.Within) (hgot : Got v u s (.ok ()) u' s') :
  Delivered (s.file (s.heap v).ino) u u' u.offset.toNat (s.readable v u.offset.toNat u.resid)
  := by
  have hgiven := hgot.given rfl
  have hend := hu.end_lt
  have hpos := hu.offset_nonneg
  have hresid := hgiven.resid
  rw [h.catalog.file_eq hv]
  refine ⟨rfl, hgiven.mem, by omega, ?_⟩
  rw [hgiven.offset, i32_of_mem (by omega) (by omega)]

/-- A read of the bytes that a file has blocks for succeeds, into memory that can be written. -/
theorem Consistent.read_ok (hne : (s.heap v).ino ≠ 1) (hadm : (Op.read v u).Admissible s)
    (hrel : u.Reliable)
    (hfits : u.offset.toNat < (s.file (s.heap v).ino).size →
      min (u.offset.toNat + u.resid) (s.file (s.heap v).ino).size ≤ 73216) :
  ∃ u' t, (Op.read v u).run s = .ok (.moved (.ok ()) u') s
    ∧ Delivered (s.file (s.heap v).ino) u u' u.offset.toNat t
  := by
  obtain ⟨-, hu, hrw⟩ := hadm
  obtain ⟨a, s', hrun, r, u', rfl, hgot⟩ := exists_ok_of (read_spec h hv hu hrw)
    fun _ _ herr => hne herr.1
  have hok : r = .ok () := by
    apply hgot.ok hrel
    intro hlt
    rw [h.catalog.file_eq hv] at hfits
    have hmin := hfits hlt
    simp only [Fs.readable]
    simp only at hmin
    omega
  subst hok
  obtain rfl := hgot.same
  exact ⟨u', _, hrun, hgot.delivered h hv hu⟩

end WriteRead

/-- On every volume that is reached from an empty one, a write that succeeds stores its bytes in
the file, and a read that follows gives the bytes of the file up to its size, as far as a file
has blocks, into memory that can be written. -/
theorem write_then_read {s₀ s s' : Fs} {v : Ptr} {u u' : Uio} (hempty : s₀.Empty)
    (hrun : s₀.Reaches s) (hadm : (Op.write v u).Admissible s)
    (hwrite : (Op.write v u).run s = .ok (.moved (.ok ()) u') s') :
  Stored s s' (s.heap v).ino u.offset.toNat u.resid (dataOf u)
    ∧ ∀ w : Uio, (Op.read v w).Admissible s' → w.Reliable →
      (w.offset.toNat < (s'.file (s.heap v).ino).size →
        min (w.offset.toNat + w.resid) (s'.file (s.heap v).ino).size ≤ 73216) →
      ∃ w' t, (Op.read v w).run s' = .ok (.moved (.ok ()) w') s'
        ∧ Delivered (s'.file (s.heap v).ino) w w' w.offset.toNat t
  := by
  have hadv := hrun.advances hempty.consistent hempty.calm
  obtain ⟨lost, h, -⟩ := hadv.consistent
  obtain ⟨hv, hu, hrw⟩ := hadm
  obtain ⟨r, u₁, t, heq, hput⟩ := wp_ok (write_spec h hv hu hrw) hwrite
  obtain ⟨rfl, rfl⟩ := Reply.moved.inj heq
  obtain rfl := hput.all rfl
  refine ⟨hput.stored h hv hu, ?_⟩
  intro w hread hrel hfits
  have hstep := hput.written.toFileStep
  have h' := h.fileStep hv hstep hput.ne_root (hput.size_lt h hv hu)
  rw [← hstep.ino_eq v] at hfits ⊢
  apply h'.read_ok hread.1 _ hread hrel hfits
  rw [hstep.ino_eq v]
  exact hput.ne_root

/-- A region of a user who has no memory there. -/
def unbacked (o : ℤ) : Uio := { filled 0 1 o .read with segflg := .userspace, faults := [true] }

section Started

variable (ops : List Op) (op : Op)

/-- The file `a` of a volume after some calls is in order. -/
theorem fileOk_started (h : (fresh.replay (.getroot :: .creat 0 nameA true :: ops)).isSome = true)
    (hmem : 1 ∈ (started ops).vnodes.guys) :
  (started ops).Sound ∧ (started ops).FileOk 1
  := by
  have hadv := (reaches_started ops h).advances fresh_empty.consistent fresh_empty.calm
  obtain ⟨lost, hcons, -⟩ := hadv.consistent
  exact ⟨hcons.catalog.sound, hcons.catalog.fileOk hmem⟩

/-- The calls that follow on others. -/
theorem replay_started (ops' : List Op)
    (h : (fresh.replay (.getroot :: .creat 0 nameA true :: (ops ++ ops'))).isSome = true) :
  (started ops).replay ops' = some (started (ops ++ ops'))
  := by
  have hlast := started_eq _ h
  rw [← List.cons_append, ← List.cons_append, Fs.replay_append] at hlast
  obtain ⟨s, hs, hend⟩ := Option.bind_eq_some_iff.mp hlast
  have hops := started_eq ops (by rw [hs]; rfl)
  rw [hs] at hops
  rw [← Option.some.inj hops]
  exact hend

theorem after_started
    (h : (fresh.replay (.getroot :: .creat 0 nameA true :: (ops ++ [op]))).isSome = true) :
  op.after (started ops) = some (started (ops ++ [op]))
  := by
  obtain ⟨s', hafter, hnil⟩ := Option.bind_eq_some_iff.mp (replay_started ops [op] h)
  rw [hafter]
  exact hnil

end Started

theorem Reply.eq_moved :
    ∀ {r : Reply}, (r matches .moved (.ok ()) _) → ∃ u, r = .moved (.ok ()) u
  | .moved (.ok ()) u, _ => ⟨u, rfl⟩

theorem write_then_read_twoBytes :
  ∃ u' s', (Op.write 1 (filled 7 2 0 .write)).run (started []) = .ok (.moved (.ok ()) u') s'
    ∧ Stored (started []) s' ((started []).heap 1).ino 0 2 (dataOf (filled 7 2 0 .write))
  := by
  have hreach : fresh.Reaches (started []) := reaches_started [] (by decide +kernel)
  obtain ⟨r, s', hrun, hr⟩ : ∃ r s', (Op.write 1 (filled 7 2 0 .write)).run (started [])
      = .ok r s' ∧ (r matches .moved (.ok ()) _) := by decide +kernel
  obtain ⟨u', rfl⟩ := Reply.eq_moved hr
  exact ⟨u', s', hrun, (write_then_read fresh_empty hreach (by decide +kernel) hrun).1⟩

/-- A file that was made longer than its blocks can hold: a write to it succeeds, but a read past
its blocks is refused; and so is a read into memory that a user does not have. -/
theorem read_refused :
  fresh.Reaches (started [.truncate 1 100000])
    ∧ ∃ u' s', (Op.write 1 (filled 7 1 0 .write)).Admissible (started [.truncate 1 100000])
      ∧ (Op.write 1 (filled 7 1 0 .write)).run (started [.truncate 1 100000])
        = .ok (.moved (.ok ()) u') s'
      ∧ (Op.read 1 (filled 0 1 73216 .read)).Admissible s'
      ∧ (Op.read 1 (filled 0 1 73216 .read)).status s' = some (.error .einval)
      ∧ (Op.read 1 (unbacked 0)).Admissible s'
      ∧ (Op.read 1 (unbacked 0)).status s' = some (.error .efault)
  := by
  refine ⟨reaches_started _ (by decide +kernel), ?_⟩
  obtain ⟨r, s', hrun, hr, hrefused⟩ : ∃ r s', (Op.write 1 (filled 7 1 0 .write)).run
      (started [.truncate 1 100000]) = .ok r s' ∧ (r matches .moved (.ok ()) _)
      ∧ (Op.read 1 (filled 0 1 73216 .read)).Admissible s'
      ∧ (Op.read 1 (filled 0 1 73216 .read)).status s' = some (.error .einval)
      ∧ (Op.read 1 (unbacked 0)).Admissible s'
      ∧ (Op.read 1 (unbacked 0)).status s' = some (.error .efault) := by decide +kernel
  obtain ⟨u', rfl⟩ := Reply.eq_moved hr
  exact ⟨u', s', by decide +kernel, hrun, hrefused⟩

/-! ### Bytes that were not written -/

/-- A volume, with the positions of the files (by inode number) that were written to since the
size of the file was last at or below them. -/
structure Tracked where
  fs : Fs
  written : ℕ → ℕ → Prop

/-- The positions that a call puts bytes at: a write puts what it takes from its region. -/
def Op.Puts (s : Fs) : Op → Reply → ℕ → ℕ → Prop
  | write v u, .moved _ u' => fun ino pos =>
    ino = (s.heap v).ino ∧ u.offset ≤ pos ∧ (pos : ℤ) < u'.offset
  | _, _ => fun _ _ => False

namespace Tracked

/-- A call that puts bytes and leads to the volume `s'`. -/
def next (t : Tracked) (puts : ℕ → ℕ → Prop) (s' : Fs) : Tracked :=
  ⟨s', fun ino pos => pos < (s'.file ino).size ∧ (puts ino pos ∨ t.written ino pos)⟩

/-- An admissible call, which meets a condition. -/
inductive Step (allow : Fs → Op → Prop) (t : Tracked) : Tracked → Prop
  | ok {op : Op} {r : Reply} {s' : Fs} (hadm : op.Admissible t.fs) (hallow : allow t.fs op)
      (hrun : op.run t.fs = .ok r s') : Step allow t (t.next (op.Puts t.fs r) s')
  | err {op : Op} {e : Errno} {s' : Fs} (hadm : op.Admissible t.fs) (hallow : allow t.fs op)
      (hrun : op.run t.fs = .err e s') : Step allow t (t.next (fun _ _ => False) s')

/-- A sequence of admissible calls, which meet a condition. -/
def Reaches (allow : Fs → Op → Prop) : Tracked → Tracked → Prop :=
  Relation.ReflTransGen (Step allow)

end Tracked

/-- The blocks past the length `len` that `sfs_truncate` leaves: the one in which it cuts, and in
the indirect block the one at which it should start. -/
def Spared (len k : ℕ) : Prop :=
  len % 512 ≠ 0 ∧ k = len / 512 ∨ 15 ≤ k ∧ k = (len + 511) / 512

/-- The calls that leave nothing of what they cut off a file, and make no file longer than its
blocks can hold. -/
def Op.CutsClean (s : Fs) : Op → Prop
  | write v u => (s.heap v).ino ≠ 1 → u.offset ≤ 73216
  | truncate v len => (s.heap v).ino ≠ 1 → len ≤ 73216
      ∧ ∀ pos < (s.file (s.heap v).ino).size, len ≤ pos → Spared len.toNat (pos / 512) →
        (s.file (s.heap v).ino).bytes pos = 0
  | _ => True

/-- The bytes of the files that were not written are zero, and the files are not longer than
their blocks can hold. -/
structure Tracked.Zeroed (t : Tracked) : Prop where
  below : ∀ ino pos, t.written ino pos → pos < (t.fs.file ino).size
  zero : ∀ ino, ino ≠ 1 → t.fs.Live ino → ∀ pos, ¬ t.written ino pos →
    (t.fs.file ino).bytes pos = 0
  small : ∀ ino, ino ≠ 1 → t.fs.Live ino → (t.fs.file ino).size ≤ 73216

/-- What one step has to show of the file with the number `ino`. -/
structure Tracked.ZeroAt (t : Tracked) (ino : ℕ) : Prop where
  zero : ∀ pos, ¬ t.written ino pos → (t.fs.file ino).bytes pos = 0
  small : (t.fs.file ino).size ≤ 73216

section Zeroed

variable {lost : ℕ → Prop} {t : Tracked} {s' : Fs} {puts : ℕ → ℕ → Prop} {ino : ℕ} {v : Ptr}

/-- Each file of the volume after a step is an old one or an empty one. -/
theorem Tracked.Zeroed.next (hborn : Born t.fs s')
    (hold : ∀ ino, ino ≠ 1 → t.fs.Live ino → s'.Live ino → (t.next puts s').ZeroAt ino) :
  (t.next puts s').Zeroed
  := by
  have hall : ∀ ino, ino ≠ 1 → s'.Live ino → (t.next puts s').ZeroAt ino := by
    intro ino hne hlive
    rcases hborn ino hlive with hl | ⟨hsize, hblank⟩
    · exact hold ino hne hl hlive
    · refine ⟨fun pos _ => hblank pos, ?_⟩
      change (s'.file ino).size ≤ 73216
      omega
  refine ⟨fun ino pos hw => hw.1, ?_, ?_⟩
  · intro ino hne hlive
    exact (hall ino hne hlive).zero
  · intro ino hne hlive
    exact (hall ino hne hlive).small

section Files

variable (hz : t.Zeroed) (hne : ino ≠ 1) (hlive : t.fs.Live ino)

include hz hne hlive

/-- A file that is left as it is. -/
theorem Tracked.ZeroAt.of_same (hsize : (s'.file ino).size = (t.fs.file ino).size)
    (hbytes : (s'.file ino).bytes = (t.fs.file ino).bytes) :
  (t.next puts s').ZeroAt ino
  := by
  constructor
  · intro pos hnot
    change (s'.file ino).bytes pos = 0
    rw [hbytes]
    apply hz.zero ino hne hlive
    intro hw
    have hlt := hz.below ino pos hw
    rw [← hsize] at hlt
    exact hnot ⟨hlt, .inr hw⟩
  · change (s'.file ino).size ≤ 73216
    rw [hsize]
    exact hz.small ino hne hlive

/-- A call that keeps the contents of the files. -/
theorem Tracked.ZeroAt.of_kept {gone : ℕ → Prop} (hkept : Kept gone t.fs s')
    (hlive' : s'.Live ino) :
  (t.next puts s').ZeroAt ino
  := by
  have hfile := hkept.file ino hne hlive ((hkept.live ino hlive).mp hlive')
  apply ZeroAt.of_same hz hne hlive
  · rw [hfile]
  · rw [hfile]

end Files

section Calls

variable (h : Consistent lost t.fs) (hz : t.Zeroed) (hv : v ∈ t.fs.vnodes.guys)

include h hz hv

theorem Tracked.ZeroAt.of_put {u u' : Uio} {r : Except Errno Unit} {n : ℕ} (hu : u.Within)
    (hput : Put v u t.fs r u' n s') (hclean : u.offset ≤ 73216) (hne : ino ≠ 1)
    (hlive : t.fs.Live ino) :
  (t.next ((Op.write v u).Puts t.fs (.moved r u')) s').ZeroAt ino
  := by
  by_cases hino : ino = (t.fs.heap v).ino
  · subst hino
    have hsize := hput.file_size h hv hu
    have hpos := hu.offset_nonneg
    have hoff := hput.taken.offset_eq hu
    constructor
    · intro pos hnot
      have hout : ¬ (u.offset.toNat ≤ pos ∧ pos < u.offset.toNat + n) := by
        rintro ⟨hle, hlt⟩
        apply hnot
        refine ⟨?_, .inl ⟨rfl, by omega, by omega⟩⟩
        omega
      change (s'.file (t.fs.heap v).ino).bytes pos = 0
      rw [hput.file_bytes h hv hu, if_neg hout]
      apply hz.zero _ hne hlive
      intro hw
      have hlt := hz.below _ pos hw
      apply hnot
      exact ⟨by omega, .inr hw⟩
    · have hsmall := hz.small _ hne hlive
      have hle := hput.written.le
      change (s'.file (t.fs.heap v).ino).size ≤ 73216
      omega
  · have hfile := hput.file_others h hv hino hlive
    apply ZeroAt.of_same hz hne hlive
    · rw [hfile]
    · rw [hfile]

omit h hz hv in
/-- What `sfs_truncate` leaves of a file past the new length. -/
theorem spared_of_not_dropped {len pos : ℕ} (hlen : len ≤ 73216) (hle : len ≤ pos)
    (hpos : pos / 512 < 143) (hnot : ¬ Dropped (blocklen len) (pos / 512)) :
  Spared len (pos / 512)
  := by
  rw [blocklen_eq (by omega)] at hnot
  unfold Dropped DroppedEntry at hnot
  unfold Spared
  omega

theorem Tracked.ZeroAt.of_truncated {len : ℕ}
    (htrunc : Truncated v t.fs s' (blocklen len) len) (hsmall : len ≤ 73216)
    (hclean : ∀ pos < (t.fs.file (t.fs.heap v).ino).size, len ≤ pos → Spared len (pos / 512) →
      (t.fs.file (t.fs.heap v).ino).bytes pos = 0)
    (hne : ino ≠ 1) (hlive : t.fs.Live ino) :
  (t.next puts s').ZeroAt ino
  := by
  by_cases hino : ino = (t.fs.heap v).ino
  · subst hino
    have hlt : s'.size v < 2 ^ 31 := by
      rw [htrunc.size]
      omega
    obtain ⟨hsize, hbytes⟩ := h.file_fileStep_self hv htrunc.toFileStep hlt
    have hview := h.catalog.file_eq hv
    constructor
    · intro pos hnot
      change (s'.file (t.fs.heap v).ino).bytes pos = 0
      rw [hbytes]
      by_cases hdrop : Dropped (blocklen len) (pos / 512)
      · exact htrunc.byte_gone pos hdrop
      · have hkept : s'.byteAt v pos = (t.fs.file (t.fs.heap v).ino).bytes pos := by
          rw [htrunc.byte_kept pos hdrop, hview]
        rw [hkept]
        by_cases hw : t.written (t.fs.heap v).ino pos
        · -- a byte that was written is cut off
          have hold := hz.below _ pos hw
          have hmax := hz.small _ hne hlive
          have hcut : len ≤ pos := by
            by_contra hin
            apply hnot
            refine ⟨?_, .inr hw⟩
            rw [hsize, htrunc.size]
            omega
          exact hclean pos hold hcut (spared_of_not_dropped hsmall hcut (by omega) hdrop)
        · exact hz.zero _ hne hlive pos hw
    · change (s'.file (t.fs.heap v).ino).size ≤ 73216
      rw [hsize, htrunc.size]
      exact hsmall
  · have hfile := h.catalog.file_fileStep hv htrunc.toFileStep hlive hino
    apply ZeroAt.of_same hz hne hlive
    · rw [hfile]
    · rw [hfile]

end Calls

/-- A step whose call cuts clean keeps the bytes that were not written zero. -/
theorem Tracked.Step.zeroed {t' : Tracked} (hstep : Step Op.CutsClean t t')
    (h : Consistent lost t.fs) (hcalm : t.fs.Calm) (hz : t.Zeroed) :
  t'.Zeroed
  := by
  cases hstep with
  | @ok op r s' hadm hallow hrun =>
    obtain ⟨-, hborn, hkept⟩ := Op.works_ok h hcalm hadm hrun
    apply Zeroed.next hborn
    intro ino hne hl hl'
    cases op with
    | write v u =>
      obtain ⟨hv, hu, hrw⟩ := hadm
      obtain ⟨res, u', n, rfl, hput⟩ := wp_ok (write_spec h hv hu hrw) hrun
      exact ZeroAt.of_put h hz hv hu hput (hallow hput.ne_root) hne hl
    | truncate v len =>
      obtain ⟨hv, hnonneg, hlt⟩ := hadm
      obtain ⟨hnot, htrunc⟩ := wp_ok (truncate_run_spec h hv hnonneg hlt) hrun
      obtain ⟨hsmall, hclean⟩ := hallow hnot
      rw [← Int.toNat_of_nonneg hnonneg] at htrunc hclean
      apply ZeroAt.of_truncated h hz hv htrunc (by omega) _ hne hl
      intro pos hpos hle hspared
      exact hclean pos hpos (by omega) hspared
    | getroot | creat _ _ _ | link _ _ _ | remove _ _ | rename _ _ _ _ | lookup _ _ | read _ _
      | fsync _ | incref _ | decref _ => exact ZeroAt.of_kept hz hne hl (hkept trivial) hl'
  | @err op e s' hadm hallow hrun =>
    obtain ⟨-, hsame, hkept⟩ := Op.works_err h hcalm hadm hrun
    apply Zeroed.next (Born.of_live hsame)
    intro ino hne hl hl'
    cases op with
    | write v u =>
      obtain ⟨hv, hu, hrw⟩ := hadm
      have hsame := wp_err (write_spec h hv hu hrw) hrun
      rw [hsame]
      exact ZeroAt.of_same hz hne hl rfl rfl
    | truncate v len =>
      obtain ⟨hv, hnonneg, hlt⟩ := hadm
      have hsame := wp_err (truncate_run_spec h hv hnonneg hlt) hrun
      rw [hsame]
      exact ZeroAt.of_same hz hne hl rfl rfl
    | getroot | creat _ _ _ | link _ _ _ | remove _ _ | rename _ _ _ _ | lookup _ _ | read _ _
      | fsync _ | incref _ | decref _ => exact ZeroAt.of_kept hz hne hl (hkept trivial) hl'

end Zeroed

section Runs

variable {allow : Fs → Op → Prop} {t t' : Tracked} {s₀ : Fs}

theorem Tracked.Step.step (h : Step allow t t') :
  t.fs.Step t'.fs
  := by
  cases h with
  | @ok op r s' hadm _ hrun => exact ⟨op, hadm, .inl ⟨r, hrun⟩⟩
  | @err op e s' hadm _ hrun => exact ⟨op, hadm, .inr ⟨e, hrun⟩⟩

/-- What is tracked is a run of the volume. -/
theorem Tracked.Reaches.reaches (h : Reaches allow t t') :
  t.fs.Reaches t'.fs
  := by
  induction h with
  | refl => exact .refl
  | tail _ hstep ih => exact ih.tail hstep.step

/-- An empty volume has no files. -/
theorem Fs.Empty.zeroed (h : s₀.Empty) :
  (Tracked.mk s₀ fun _ _ => False).Zeroed
  := by
  have hnone : ∀ ino, ino ≠ 1 → ¬ s₀.Live ino := by
    intro ino hne hlive
    rw [h.live] at hlive
    exact hne hlive
  exact ⟨fun _ _ hf => hf.elim, fun ino hne hlive => absurd hlive (hnone ino hne),
    fun ino hne hlive => absurd hlive (hnone ino hne)⟩

theorem Tracked.Reaches.zeroed (hempty : s₀.Empty)
    (hrun : Reaches Op.CutsClean ⟨s₀, fun _ _ => False⟩ t) :
  t.Zeroed
  := by
  induction hrun with
  | refl => exact hempty.zeroed
  | tail hrun hstep ih =>
    have hadv := (Reaches.reaches hrun).advances hempty.consistent hempty.calm
    obtain ⟨lost, h, -⟩ := hadv.consistent
    exact hstep.zeroed h (hadv.calm hempty.calm) ih

end Runs

section Concrete

variable {allow : Fs → Op → Prop} {ops : List Op}

/-- What is replayed is a run, and what it wrote is in the files. -/
theorem Tracked.reaches_of_replay (hallow : ∀ s, ∀ op ∈ ops, allow s op) {t : Tracked} {s' : Fs}
    (hbelow : ∀ ino pos, t.written ino pos → pos < (t.fs.file ino).size)
    (h : t.fs.replay ops = some s') :
  ∃ w, Reaches allow t ⟨s', w⟩ ∧ ∀ ino pos, w ino pos → pos < (s'.file ino).size
  := by
  induction ops generalizing t with
  | nil =>
    cases h
    exact ⟨t.written, .refl, hbelow⟩
  | cons op ops ih =>
    obtain ⟨s₁, hafter, hrest⟩ := Option.bind_eq_some_iff.mp h
    obtain ⟨puts, hstep⟩ : ∃ puts, Step allow t (t.next puts s₁) := by
      have hop := hallow t.fs op List.mem_cons_self
      obtain ⟨hadm, ⟨r, hrun⟩ | ⟨e, hrun⟩⟩ := Op.of_after hafter
      · exact ⟨_, .ok hadm hop hrun⟩
      · exact ⟨_, .err hadm hop hrun⟩
    obtain ⟨w, hreach, hw⟩ := ih (fun s op hop => hallow s op (List.mem_cons_of_mem _ hop))
      (t := t.next puts s₁) (fun _ _ hw => hw.1) hrest
    exact ⟨w, .head hstep hreach, hw⟩

/-- A file that ends before a position is made longer, which puts no bytes. -/
theorem Tracked.reaches_longer (hallow : ∀ s, ∀ op ∈ ops, allow s op) {s s' : Fs} {len : ℤ}
    (ino pos : ℕ) (hops : fresh.replay ops = some s)
    (hafter : (Op.truncate 1 len).after s = some s') (hlast : allow s (.truncate 1 len))
    (hsize : (s.file ino).size ≤ pos) :
  ∃ w, Reaches allow ⟨fresh, fun _ _ => False⟩ ⟨s', w⟩ ∧ ¬ w ino pos
  := by
  obtain ⟨w, hreach, hw⟩ := reaches_of_replay hallow (t := ⟨fresh, fun _ _ => False⟩)
    (fun _ _ hfalse => hfalse.elim) hops
  have hstep : Step allow ⟨s, w⟩ (next ⟨s, w⟩ (fun _ _ => False) s') := by
    obtain ⟨hadm, ⟨r, hrun⟩ | ⟨e, hrun⟩⟩ := Op.of_after hafter
    · exact .ok (t := ⟨s, w⟩) hadm hlast hrun
    · exact .err (t := ⟨s, w⟩) hadm hlast hrun
  refine ⟨_, hreach.tail hstep, ?_⟩
  rintro ⟨-, hfalse | hold⟩
  · exact hfalse
  · have hlt := hw ino pos hold
    omega

/-- A file that is empty is made longer. -/
theorem Op.cutsClean_truncate {s : Fs} {v : Ptr} {len : ℤ}
    (hsize : (s.file (s.heap v).ino).size = 0) (hlen : len ≤ 73216) :
  (Op.truncate v len).CutsClean s
  := by
  intro _
  refine ⟨hlen, ?_⟩
  intro pos hpos
  rw [hsize] at hpos
  exact absurd hpos (Nat.not_lt_zero pos)

end Concrete

/-- In every run from an empty volume whose calls all cut clean, a byte below the size of a file
that was not written since the size was last at or below its position is zero, and reads as
zero. -/
theorem unwritten_reads_zero {s₀ : Fs} {t : Tracked} {ino pos : ℕ} (hempty : s₀.Empty)
    (hrun : Tracked.Reaches Op.CutsClean ⟨s₀, fun _ _ => False⟩ t) (hne : ino ≠ 1)
    (hlive : t.fs.Live ino) (hpos : pos < (t.fs.file ino).size) (hnot : ¬ t.written ino pos) :
  (t.fs.file ino).bytes pos = 0
    ∧ ∀ v ∈ t.fs.vnodes.guys, (t.fs.heap v).ino = ino →
      ∀ u : Uio, (Op.read v u).Admissible t.fs → u.Reliable → u.offset = pos → 0 < u.resid →
        ∃ u', (Op.read v u).run t.fs = .ok (.moved (.ok ()) u') t.fs ∧ u'.mem u.base = 0
  := by
  have hz := hrun.zeroed hempty
  have hadv := hrun.reaches.advances hempty.consistent hempty.calm
  obtain ⟨lost, h, -⟩ := hadv.consistent
  have hzero := hz.zero ino hne hlive pos hnot
  have hsmall := hz.small ino hne hlive
  refine ⟨hzero, ?_⟩
  rintro v hv rfl u hadm hrel ho hresid
  obtain ⟨u', n, hread, hgave⟩ := h.read_ok hv hne hadm hrel (fun _ => by omega)
  refine ⟨u', hread, ?_⟩
  have hoff : u.offset.toNat = pos := by omega
  have hamount := hgave.amount
  rw [hoff] at hamount
  rw [hgave.mem, if_pos ⟨Nat.le_refl _, by omega⟩, Nat.sub_self, Nat.add_zero, hoff]
  exact hzero

/-- The file `a` is made ten bytes long without a write: its sixth byte is zero. -/
theorem unwritten_reads_zero_sixthByte :
  ∃ w, Tracked.Reaches Op.CutsClean ⟨fresh, fun _ _ => False⟩ ⟨started [.truncate 1 10], w⟩
    ∧ ¬ w 3 5 ∧ ((started [.truncate 1 10]).file 3).bytes 5 = 0
  := by
  have hclean : (Op.truncate 1 10).CutsClean (started []) :=
    Op.cutsClean_truncate (by decide +kernel) (by decide)
  have hafter : (Op.truncate 1 10).after (started []) = some (started [.truncate 1 10]) :=
    after_started [] _ (by decide +kernel)
  obtain ⟨w, hrun, hnot⟩ := Tracked.reaches_longer (by simp [Op.CutsClean]) 3 5
    (started_eq [] (by decide +kernel)) hafter hclean (by decide +kernel)
  have hmem : 1 ∈ (started [.truncate 1 10]).vnodes.guys := by decide +kernel
  have hino : ((started [.truncate 1 10]).heap 1).ino = 3 := by decide +kernel
  have hsize : 5 < ((started [.truncate 1 10]).file 3).size := by decide +kernel
  -- from here on nothing depends on what the volume is
  generalize started [.truncate 1 10] = s' at hrun hmem hino hsize ⊢
  have hlive := Fs.live_of_mem hmem
  rw [hino] at hlive
  exact ⟨w, hrun, hnot, (unwritten_reads_zero fresh_empty hrun (by decide) hlive hsize hnot).1⟩

/-- Two bytes are written to the file `a`, and then it is made one byte long and two bytes again:
its second byte reads as the one that was cut off. -/
theorem truncate_uncovers :
  ∃ t : Tracked, Tracked.Reaches (fun _ _ => True) ⟨fresh, fun _ _ => False⟩ t
    ∧ (t.fs.heap 1).ino = 3 ∧ 1 < (t.fs.file 3).size ∧ ¬ t.written 3 1
    ∧ ∃ u', (Op.read 1 (filled 0 1 1 .read)).run t.fs = .ok (.moved (.ok ()) u') t.fs
      ∧ u'.mem 0 = 7
  := by
  let ops : List Op := [.write 1 (filled 7 2 0 .write), .truncate 1 1]
  have hafter : (Op.truncate 1 2).after (started ops) = _ := after_started ops _ (by decide +kernel)
  obtain ⟨w, hrun, hnot⟩ := Tracked.reaches_longer (fun _ _ _ => True.intro) 3 1
    (started_eq ops (by decide +kernel)) hafter trivial (by decide +kernel)
  obtain ⟨hmem, hino, hsize, hbyte⟩ : 1 ∈ (started (ops ++ [.truncate 1 2])).vnodes.guys
      ∧ ((started (ops ++ [.truncate 1 2])).heap 1).ino = 3
      ∧ ((started (ops ++ [.truncate 1 2])).file 3).size = 2
      ∧ ((started (ops ++ [.truncate 1 2])).file 3).bytes 1 = 7 := by decide +kernel
  generalize started (ops ++ [.truncate 1 2]) = s' at hrun hmem hino hsize hbyte
  have hadv := (Tracked.Reaches.reaches hrun).advances fresh_empty.consistent fresh_empty.calm
  obtain ⟨lost, h, -⟩ := hadv.consistent
  refine ⟨_, hrun, hino, by rw [hsize]; decide, hnot, ?_⟩
  have hadm : (Op.read 1 (filled 0 1 1 .read)).Admissible s' := ⟨hmem, by decide, rfl⟩
  obtain ⟨u', n, hread, hgave⟩ := h.read_ok hmem (by rw [hino]; decide) hadm (.inl rfl)
    (by rw [hino, hsize]; decide)
  refine ⟨u', hread, ?_⟩
  rw [hino] at hgave
  have hamount := hgave.amount
  rw [hsize] at hamount
  rw [hgave.mem, if_pos]
  · exact hbyte
  · rw [hamount]
    decide

/-! ### Files apart -/

/-- The calls that may change what can be seen of a file, its link count apart. -/
def Op.Touches (s : Fs) (ino : ℕ) : Op → Prop
  | write v _ | truncate v _ => ino = (s.heap v).ino
  | op => op.Erases s ino

instance (s : Fs) (ino : ℕ) : (op : Op) → Decidable (op.Touches s ino)
  | .write v _ | .truncate v _ => inferInstanceAs (Decidable (ino = (s.heap v).ino))
  | .remove _ _ => inferInstanceAs (Decidable (_ ∧ _ ∧ _
      ∧ ¬ ∃ q ∈ s.vnodes.guys, (s.heap q).ino = ino))
  | .decref _ => inferInstanceAs (Decidable (_ ∧ _ ∧ _))
  | .getroot | .creat _ _ _ | .link _ _ _ | .rename _ _ _ _ | .lookup _ _ | .read _ _ | .fsync _
  | .incref _ => inferInstanceAs (Decidable False)

section Apart

variable {lost : ℕ → Prop} {s₀ s s' : Fs} {ino : ℕ} {v : Ptr} (hne : ino ≠ 1) (hlive : s.Live ino)

include hlive

include hne

end Apart

end Sfs
