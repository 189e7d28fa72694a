import AzureSpider.Sfs.Contents

/-!
# What truncation discards

Which blocks of a file `sfs_truncate` frees, as `sfs_bmap` and the free map tell it.

The direct blocks are discarded from the new length on.  Of the blocks in the indirect block, the
one at the new length itself is left, against the comment there and unlike the direct ones; what
becomes of it is not part of `Discards`.  The indirect block is freed when nothing is left in it,
if it is looked at; a truncation to so many blocks that all of it stays does not look at it.
-/

open Machine Routine

namespace Sfs

/-- What a truncation to `bl` blocks discards, and what it leaves. -/
structure Discards (p : Ptr) (s s' : Fs) (bl : ℕ) : Prop where
  gone : ∀ k < 143, bl < k ∨ bl = k ∧ k < 15 → bmap p k false s' = .ok 0 s'
    ∧ ∀ b, bmap p k false s = .ok b s → b ≠ 0 → ¬ s'.Used b
  kept : ∀ k < 143, k < bl → ∃ b, bmap p k false s = .ok b s ∧ bmap p k false s' = .ok b s'
    ∧ (s'.Used b ↔ s.Used b)
  /-- The indirect block is freed if and only if no block is left in it. -/
  indirect : (s.heap p).i.indirect.toNat ≠ 0 → bl < 142 →
    (¬ s'.Used (s.heap p).i.indirect.toNat
      ↔ ∀ k, 15 ≤ k → k < 143 → bmap p k false s' = .ok 0 s')
  indirect_kept : (s.heap p).i.indirect.toNat ≠ 0 → 143 ≤ bl →
    s'.Used (s.heap p).i.indirect.toNat
  others : ∀ b, (∀ k, bl ≤ k → k < 143 → bmap p k false s = .ok b s → b = 0) →
    (b = (s.heap p).i.indirect.toNat → b = 0) → (s'.Used b ↔ s.Used b)

section Cells

variable {p : Ptr} {s s' : Fs} {bl k b : ℕ} (hcut : Cut p s s' bl) (hstep : FileStep p s s')

include hcut hstep

/-- The cells are emptied or left. -/
theorem Cut.cell (k : ℕ) :
  s'.cell p k = 0 ∨ s'.cell p k = s.cell p k
  := by
  rw [Fs.cell_eq, Fs.cell_eq, hstep.ino_eq]
  by_cases hino : k = 144
  · rw [if_pos hino, if_pos hino]
    exact .inr rfl
  · rw [if_neg hino, if_neg hino]
    by_cases hlt : k < 143
    · by_cases hdrop : Dropped bl k
      · exact .inl (hcut.ptr_gone k hdrop)
      · exact .inr (hcut.ptr_kept k hlt hdrop)
    · by_cases h143 : k = 143
      · rw [h143]
        rcases hcut.indirect with hsame | ⟨-, hzero⟩
        · exact .inr hsame
        · exact .inl hzero
      · left
        exact Inode.ptr_of_lt (by omega)

variable (hok : s.FileOk p)

include hok

/-- The block of a cell is in use as long as the file has it. -/
theorem Cut.used_ptr (hk : k < 144) (hne : s.ptr p k ≠ 0) :
  s'.Used (s.ptr p k) ↔ s'.ptr p k = s.ptr p k
  := by
  have hcell : s.cell p k = s.ptr p k := by
    rw [Fs.cell_eq, if_neg (by omega)]
  have hcell' : s'.cell p k = s'.ptr p k := by
    rw [Fs.cell_eq, if_neg (by omega)]
  have hused := hok.account.used_emptied hstep.ok.account (hcut.cell hstep) hstep.foreign
    (k := k) (by rw [hcell]; exact hne)
  rwa [hcell, hcell'] at hused

/-- A block that is not discarded is in use if it was. -/
theorem Cut.used_other (hb : ∀ k, bl ≤ k → k < 144 → s.ptr p k = b → b = 0) :
  s'.Used b ↔ s.Used b
  := by
  by_cases hheld : ∃ k, s.cell p k = b ∧ b ≠ 0
  · obtain ⟨k, rfl, hne⟩ := hheld
    have hsame : s'.cell p k = s.cell p k := by
      rw [Fs.cell_eq] at hb hne ⊢
      rw [Fs.cell_eq, hstep.ino_eq]
      by_cases hino : k = 144
      · rw [if_pos hino, if_pos hino]
      · rw [if_neg hino] at hb hne ⊢
        rw [if_neg hino]
        have hk : k < 144 := Inode.lt_of_ptr_ne_zero hne
        have hlt : k < bl := by
          by_contra hge
          exact hne (hb k (by omega) hk rfl)
        by_cases h143 : k = 143
        · subst h143
          rcases hcut.indirect with hsame | ⟨hbl, -⟩
          · exact hsame
          · omega
        · apply hcut.ptr_kept k (by omega)
          unfold Dropped DroppedEntry
          omega
    constructor
    · intro _
      exact hok.account.used k hne
    · intro _
      rw [← hsame] at hne ⊢
      exact hstep.ok.account.used k hne
  · apply Account.used_emptied_of_not_held (hcut.cell hstep) hstep.foreign
    intro k hk
    by_contra hne
    exact hheld ⟨k, hk, hne⟩

end Cells

/-- Every truncation of a file whose blocks are in order discards the blocks past the new length,
with the exception described above, and nothing else. -/
theorem truncate_discards {s : Fs} {p : Ptr} {len : ℕ} (h : s.Sound) (hok : s.FileOk p)
    (hlen : len < 2 ^ 31 - 511) :
  ∃ s', truncate p len s = .ok () s' ∧ Discards p s s' ((len + 511) / 512)
  := by
  have hlt : len < 2 ^ 31 := by omega
  obtain ⟨⟨⟩, s', hrun, htrunc, hcut⟩ := exists_ok (truncate_cut h hok hlt)
  rw [blocklen_eq hlen] at hcut
  generalize (len + 511) / 512 = bl at hcut
  have hstep := htrunc.toFileStep
  have hold : ∀ k < 143, bmap p k false s = .ok (s.ptr p k) s := fun k hk => bmap_look h hok hk
  have hnew : ∀ k < 143, bmap p k false s' = .ok (s'.ptr p k) s' :=
    fun k hk => bmap_look hstep.sound hstep.ok hk
  refine ⟨s', hrun, ?_, ?_, ?_, ?_, ?_⟩
  · intro k hk hpast
    have hdrop : Dropped bl k := by
      unfold Dropped DroppedEntry
      omega
    have hzero := hcut.ptr_gone k hdrop
    rw [hnew k hk, hold k hk, hzero]
    refine ⟨rfl, ?_⟩
    rintro b hb hne hused
    cases hb
    rw [hcut.used_ptr hstep hok (by omega) hne, hzero] at hused
    exact hne hused.symm
  · intro k hk hlt
    have hkeep : s'.ptr p k = s.ptr p k := by
      apply hcut.ptr_kept k hk
      unfold Dropped DroppedEntry
      omega
    refine ⟨s.ptr p k, hold k hk, ?_, ?_⟩
    · rw [hnew k hk, hkeep]
    · apply hcut.used_other hstep hok
      intro l hl hl' heq
      by_contra hne
      have := hok.ptr_inj (k := k) (l := l) hne heq.symm
      omega
  · intro hne hbl
    have hused := hcut.used_ptr hstep hok (k := 143) (by omega) hne
    rw [show (s.heap p).i.indirect.toNat = s.ptr p 143 from rfl, hused]
    constructor
    · intro hfreed k hlow hhigh
      have hnone := (hcut.indirect.resolve_left hfreed).2
      rw [hnew k hhigh, Fs.ptr_of_no_indirect hnone hlow hhigh]
    · intro hnone hkept
      have hne' : s'.ptr p 143 ≠ 0 := by
        rw [hkept]
        exact hne
      obtain ⟨k, hlow, hhigh, hentry⟩ := hcut.entry hbl hne'
      have hz := hnone k hlow hhigh
      rw [hnew k hhigh] at hz
      injection hz with hz
      exact hentry hz
  · intro hne hbl
    apply (hcut.used_ptr hstep hok (k := 143) (by omega) hne).mpr
    rcases hcut.indirect with hsame | ⟨hlt, -⟩
    · exact hsame
    · omega
  · intro b hb hind
    apply hcut.used_other hstep hok
    intro k hbl hk heq
    by_cases h143 : k = 143
    · subst h143
      exact hind heq.symm
    · apply hb k hbl (by omega)
      rw [hold k (by omega), heq]

/-- The file `a` has a byte in its sixteenth block, and is made empty. -/
theorem truncate_discards_sixteenthBlock :
  ∃ s', truncate 1 0 (started [.write 1 (filled 7 1 7680 .write)]) = .ok () s'
    ∧ Discards 1 (started [.write 1 (filled 7 1 7680 .write)]) s' 0
  := by
  obtain ⟨h, hok⟩ := fileOk_started [.write 1 (filled 7 1 7680 .write)] (by decide +kernel)
    (by decide +kernel)
  obtain ⟨s', hrun, hdiscards⟩ := truncate_discards h hok (by decide : 0 < 2 ^ 31 - 511)
  exact ⟨s', hrun, hdiscards⟩

/-- The file `a` with an indirect block that is empty: one that `sfs_bmap` gave it before it found
no block for the data. -/
def withIndirect : Fs :=
  ((started []).allocated 5).updateInode 1 fun i => { i with indirect := UInt32.ofNat 5 }

/-- An empty indirect block stays when the file is made so long that it could all be used, and the
sixteenth block stays when the file is made fifteen blocks long. -/
theorem truncate_leaves_blocks :
  (withIndirect.Sound ∧ withIndirect.FileOk 1 ∧ (withIndirect.heap 1).i.indirect.toNat ≠ 0
    ∧ ∃ s', truncate 1 (143 * 512 : ℕ) withIndirect = .ok () s'
      ∧ (∀ k, 15 ≤ k → k < 143 → bmap 1 k false s' = .ok 0 s')
      ∧ s'.Used (withIndirect.heap 1).i.indirect.toNat)
  ∧ ∃ s : Fs, s.Sound ∧ s.FileOk 1 ∧ ∃ s', truncate 1 (15 * 512 : ℕ) s = .ok () s'
      ∧ bmap 1 15 false s' ≠ .ok 0 s'
  := by
  constructor
  · obtain ⟨h, hok⟩ := fileOk_started [] (by decide +kernel) (by decide +kernel)
    obtain ⟨hgrown, hptr⟩ := Grown.indirect h hok (b := 5) (by decide +kernel)
      (by decide +kernel) (by decide +kernel)
    have hnone : ∀ k < 143, 15 ≤ k → withIndirect.ptr 1 k = 0 := by decide +kernel
    have hne : (withIndirect.heap 1).i.indirect.toNat ≠ 0 := by decide +kernel
    have h' : withIndirect.Sound := hgrown.sound
    have hok' : withIndirect.FileOk 1 := hgrown.ok
    generalize withIndirect = s at hnone hne h' hok'
    refine ⟨h', hok', hne, ?_⟩
    obtain ⟨⟨⟩, s', hrun, htrunc, hcut⟩ := exists_ok
      (truncate_cut h' hok' (by decide : 143 * 512 < 2 ^ 31))
    rw [blocklen_eq (by decide)] at hcut
    refine ⟨s', hrun, ?_, ?_⟩
    · intro k hlow hhigh
      rw [bmap_look htrunc.sound htrunc.ok hhigh, hcut.ptr_kept k hhigh, hnone k hhigh hlow]
      unfold Dropped DroppedEntry
      omega
    · apply (hcut.used_ptr htrunc.toFileStep hok' (k := 143) (by decide) hne).mpr
      rcases hcut.indirect with hsame | ⟨hlt, -⟩
      · exact hsame
      · exact absurd hlt (by decide)
  · obtain ⟨h, hok⟩ := fileOk_started [.write 1 (filled 7 1 7680 .write)] (by decide +kernel)
      (by decide +kernel)
    have hmapped : (started [.write 1 (filled 7 1 7680 .write)]).ptr 1 15 ≠ 0 := by
      decide +kernel
    generalize started [.write 1 (filled 7 1 7680 .write)] = s at h hok hmapped
    obtain ⟨⟨⟩, s', hrun, htrunc, hcut⟩ := exists_ok
      (truncate_cut h hok (by decide : 15 * 512 < 2 ^ 31))
    refine ⟨s, h, hok, s', hrun, ?_⟩
    rw [bmap_look htrunc.sound htrunc.ok (by decide), hcut.ptr_kept 15 (by decide)]
    · intro hzero
      injection hzero with hzero
      exact hmapped hzero
    · rw [blocklen_eq (by decide)]
      unfold Dropped DroppedEntry
      omega

end Sfs
