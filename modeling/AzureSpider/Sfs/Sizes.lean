import AzureSpider.Sfs.Contents

/-!
# The size of a file after a write

`sfs_io` leaves a file at least as long as the offset at which a write ends, whether or not the
write took a byte: a request for no bytes past the end of a file, or one that fails at its first
block, makes the file longer.  The size is what the bytes that were taken make it, if the request
starts at or before the end of the file, or if its first part can be transferred.
-/

open Machine Routine

namespace Sfs

/-- The size of a file after a write is what the bytes that were taken from the region make it. -/
def SizeKept (p : Ptr) (s : Fs) (u : Uio) (su : Fs × Uio) : Prop :=
  su.1.size p
    = if u.resid - su.2.resid = 0 then s.size p
      else max (s.size p) (u.offset.toNat + (u.resid - su.2.resid))

/-- After a write that took `t` bytes. -/
theorem sizeKept_iff {p : Ptr} {s : Fs} {u : Uio} {su : Fs × Uio} {t : ℕ} {f : ℕ → UInt8}
    (hwritten : Written p s su.1 u.offset.toNat t f) (htaken : Uio.Taken u su.2 t) :
  SizeKept p s u su ↔ t ≠ 0 ∨ u.offset.toNat ≤ s.size p
  := by
  have hresid := htaken.resid
  have ht : u.resid - su.2.resid = t := by omega
  rw [SizeKept, ht, hwritten.size]
  split
  · omega
  · omega

/-- A write leaves a file with the size that the bytes it took make it, if and only if it starts
at or before the end of the file or its first part can be transferred. -/
theorem write_size_iff {s : Fs} {p : Ptr} {u : Uio} (h : s.Sound) (hok : s.FileOk p)
    (hsize : s.size p < 2 ^ 31) (hu : u.Ahead) (hrw : u.rw = .write) :
  wp (write p) (s, u)
    (fun _ su => SizeKept p s u su
      ↔ u.offset ≤ s.size p ∨ 0 < u.resid ∧ Starts s p u u.offset.toNat)
    (fun _ su => SizeKept p s u su
      ↔ u.offset ≤ s.size p ∨ 0 < u.resid ∧ Starts s p u u.offset.toNat)
  := by
  have hnonneg := hu.offset_nonneg
  have ho : u.offset = (u.offset.toNat : ℕ) := (Int.toNat_of_nonneg hnonneg).symm
  have hle : u.offset.toNat ≤ s.size p ↔ u.offset ≤ s.size p := by omega
  simp only [write, wp_bind, wp_get, wp_assert]
  refine ⟨hrw, ?_⟩
  rcases Nat.eq_zero_or_pos u.resid with hzero | hpos
  · -- a request for no bytes takes none
    apply wp_mono (io_write h hok hsize hu hrw ho rfl)
    · rintro - su ⟨hwritten, htaken, -⟩
      rw [sizeKept_iff hwritten htaken, hle]
      omega
    · rintro e su ⟨⟨t, ht, -, hwritten, htaken, -⟩, -⟩
      rw [sizeKept_iff hwritten htaken, hle]
      omega
  · apply wp_mono (io_write h hok hsize hu hrw ho rfl)
    · rintro - su ⟨hwritten, htaken, hstarts⟩
      rw [sizeKept_iff hwritten htaken]
      exact ⟨fun _ => .inr ⟨hpos, hstarts hpos⟩, fun _ => .inl (by omega)⟩
    · rintro e su ⟨⟨t, ht, -, hwritten, htaken, -⟩, hfails⟩
      have hresid := htaken.resid
      have hsame : t = 0 ↔ su.2.resid = u.resid := by omega
      rw [sizeKept_iff hwritten htaken, hle, ne_eq, hsame.trans (hfails hpos), not_not]
      constructor
      · rintro (hstarts | hbefore)
        · exact .inr ⟨hpos, hstarts⟩
        · exact .inl hbefore
      · rintro (hbefore | ⟨-, hstarts⟩)
        · exact .inr hbefore
        · exact .inl hstarts

/-- Two bytes are put past the end of the file `a`, which is empty. -/
theorem write_size_iff_twoBytes :
  wp (write 1) (started [], filled 7 2 600 .write)
    (fun _ su => SizeKept 1 (started []) (filled 7 2 600 .write) su)
    (fun _ su => SizeKept 1 (started []) (filled 7 2 600 .write) su)
  := by
  obtain ⟨h, hok⟩ := fileOk_started [] (by decide +kernel) (by decide +kernel)
  have hsize : (started []).size 1 < 2 ^ 31 := by decide +kernel
  have hlt : 5 < (started []).nblocks := by decide +kernel
  have hfree : ¬ (started []).Used 5 := by decide +kernel
  generalize started [] = s at h hok hsize hlt hfree
  have hstarts : Starts s 1 (filled 7 2 600 .write) 600 :=
    ⟨by decide, .inr ⟨5, hlt, hfree, fun hlow => absurd hlow (by decide)⟩, .inl rfl⟩
  have hu : (filled 7 2 600 .write).Ahead :=
    ⟨⟨rfl, by decide, by decide, by decide, by decide⟩, by decide⟩
  apply wp_mono (write_size_iff h hok hsize hu rfl)
  · intro _ su hiff
    exact hiff.mpr (.inr ⟨by decide, hstarts⟩)
  · intro e su hiff
    exact hiff.mpr (.inr ⟨by decide, hstarts⟩)

/-- The file `a` is empty: a write of no bytes at ten makes it ten bytes long, and so does one of
a byte that the user does not have, which fails. -/
theorem size_without_bytes :
  (started []).size 1 = 0
    ∧ (∃ su, write 1 (started [], filled 7 0 10 .write) = .ok () su
      ∧ (filled 7 0 10 .write).resid - su.2.resid = 0 ∧ su.1.size 1 = 10)
    ∧ ∃ su, write 1 (started [], { unbacked 10 with rw := .write }) = .err .efault su
      ∧ (unbacked 10).resid - su.2.resid = 0 ∧ su.1.size 1 = 10
  := by
  exact ⟨by decide +kernel, by decide +kernel⟩

end Sfs
