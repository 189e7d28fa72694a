import AzureSpider.Libc.Printf

/-!
# `vsnprintf`

The client that stores a text in a buffer, up to a length, and the function on top of it.  A store
outside of the buffer is a panic.
-/

open Machine Routine

namespace Printf

/-- `SNP`; `buf` is all of the memory at the buffer. -/
structure SNP where
  buf : List Char
  buflen : ℕ
  bufpos : ℕ

namespace SNP

/-- `buf[i] = c`. -/
def store (i : ℕ) (c : Char) : Client SNP Unit := do
  let snp ← get
  if i < snp.buf.length then
    modify fun snp => { snp with buf := snp.buf.set i c }
  else
    Routine.panic .outside

/-- One round of `__snprintf_send`. -/
def put (c : Char) : Client SNP Unit := do
  let snp ← get
  if snp.bufpos < snp.buflen then do
    store snp.bufpos c
    modify fun snp => { snp with bufpos := snp.bufpos + 1 }
  else
    pure ()

/-- `__snprintf_send`. -/
def snprintfSend : List Char → Client SNP Unit
  | [] => pure ()
  | c :: data => do
      put c
      snprintfSend data

/-- The context of `vsnprintf`. -/
def create (buf : List Char) (len : ℕ) : SNP where
  buf := buf
  buflen := if len = 0 then 0 else len - 1
  bufpos := 0

end SNP

/-- The body of `vsnprintf`, with its context. -/
def SNP.print (len : ℕ) (fmt : List Char) (ap : List Arg) : Client SNP ℤ := do
  let chars ← vprintf SNP.snprintfSend fmt ap
  let snp ← get
  if 0 < len then do
    SNP.store snp.bufpos nul
    pure chars
  else
    pure chars

/-- `vsnprintf`, on the memory at the buffer. -/
def vsnprintf (len : ℕ) (fmt : List Char) (ap : List Arg) : Client (List Char) ℤ := fun buf =>
  match SNP.print len fmt ap (SNP.create buf len) with
  | .ok chars snp => .ok chars snp.buf
  | .err e _ => nomatch e
  | .panic p => .panic p

/-! ### The buffer -/

section Buffer

variable {buf acc piece : List Char} {len lim : ℕ} {snp : SNP}

/-- The buffer has the start of the text, in front of what was there. -/
structure SNP.Shows (buf : List Char) (lim : ℕ) (acc : List Char) (snp : SNP) : Prop where
  buflen : snp.buflen = lim
  bufpos : snp.bufpos = (acc.take lim).length
  buf : snp.buf = acc.take lim ++ buf.drop (acc.take lim).length

theorem SNP.wp_store {i : ℕ} {c : Char} (hi : i < snp.buf.length)
    (h : Q () { snp with buf := snp.buf.set i c }) :
  wp (SNP.store i c) snp Q E
  := by
  simp only [SNP.store, wp_bind, wp_get]
  rw [if_pos hi, wp_modify]
  exact h

/-- A cell behind a text is written. -/
theorem set_append_drop {txt : List Char} (c : Char) (h : txt.length < buf.length) :
  (txt ++ buf.drop txt.length).set txt.length c = txt ++ c :: buf.drop (txt.length + 1)
  := by
  rw [List.set_append_right _ _ (Nat.le_refl _), Nat.sub_self, List.drop_eq_getElem_cons h,
    List.set_cons_zero]

theorem length_append_drop {txt : List Char} (h : txt.length ≤ buf.length) :
  (txt ++ buf.drop txt.length).length = buf.length
  := by
  rw [List.length_append, List.length_drop]
  omega

/-- One more character is sent. -/
theorem SNP.put_shows {c : Char} (hlim : lim ≤ buf.length) (h : SNP.Shows buf lim acc snp) :
  wp (SNP.put c) snp (fun _ snp' => SNP.Shows buf lim (acc ++ [c]) snp')
  := by
  simp only [SNP.put, wp_bind, wp_get, h.buflen]
  by_cases hroom : snp.bufpos < lim
  · have hshort : acc.length < lim := by
      rw [h.bufpos, List.length_take] at hroom
      omega
    have hacc : acc.take lim = acc := List.take_of_length_le (Nat.le_of_lt hshort)
    have hnext : (acc ++ [c]).take lim = acc ++ [c] := by
      apply List.take_of_length_le
      rw [List.length_append]
      exact hshort
    have hbuf := h.buf
    have hpos := h.bufpos
    rw [hacc] at hbuf hpos
    rw [if_pos hroom, wp_bind]
    apply SNP.wp_store
    · rw [hbuf, hpos, length_append_drop (by omega)]
      omega
    rw [wp_modify]
    constructor
    · exact h.buflen
    · rw [hnext, List.length_append, hpos]
      rfl
    · rw [hnext, hpos, hbuf, set_append_drop c (by omega), List.length_append, List.append_assoc]
      rfl
  · have hlong : lim ≤ acc.length := by
      rw [h.bufpos, List.length_take] at hroom
      omega
    have hsame : (acc ++ [c]).take lim = acc.take lim := List.take_append_of_le_length hlong
    rw [if_neg hroom, wp_pure]
    constructor
    · exact h.buflen
    · rw [hsame, h.bufpos]
    · rw [hsame, h.buf]

/-- The buffer shows what is sent. -/
theorem SNP.snprintfSend_accepts (hlim : lim ≤ buf.length) :
  Accepts SNP.snprintfSend (SNP.Shows buf lim)
  := by
  intro acc snp piece h
  induction piece generalizing acc snp with
  | nil =>
    rw [SNP.snprintfSend, wp_pure, List.append_nil]
    exact h
  | cons c data ih =>
    rw [SNP.snprintfSend, wp_bind]
    apply wp_imp (SNP.put_shows hlim h)
    intro _ snp' h'
    rw [List.append_cons]
    exact ih _ snp' h'

theorem SNP.create_shows (buf : List Char) (len : ℕ) :
  SNP.Shows buf (len - 1) [] (SNP.create buf len)
  := by
  constructor
  · rw [SNP.create]
    dsimp only
    split
    · omega
    · rfl
  · rw [List.take_nil]
    rfl
  · rw [List.take_nil]
    rfl

/-- The context at the end. -/
theorem SNP.print_spec {fmt : List Char} {ap : List Arg} (hmatch : Matching fmt ap)
    (hlen : len ≤ buf.length) :
  wp (SNP.print len fmt ap) (SNP.create buf len)
    (fun chars snp => chars = i32 (text fmt ap).length
      ∧ (0 < len → snp.buf = (text fmt ap).take (len - 1)
          ++ nul :: buf.drop (min (text fmt ap).length (len - 1) + 1))
      ∧ (len = 0 → snp.buf = buf))
  := by
  have hlim : len - 1 ≤ buf.length := by omega
  obtain ⟨snp, hrun, hshows⟩ :=
    vprintf_spec (SNP.snprintfSend_accepts hlim) hmatch (SNP.create_shows buf len)
  have hfits : ((text fmt ap).take (len - 1)).length ≤ len - 1 := List.length_take_le _ _
  have hpos := hshows.bufpos
  have hbuf := hshows.buf
  rw [SNP.print, wp_bind]
  apply wp_of_ok hrun
  simp only [wp_bind, wp_get]
  by_cases hpositive : 0 < len
  · rw [if_pos hpositive, wp_bind]
    have hin : ((text fmt ap).take (len - 1)).length < buf.length := by omega
    apply SNP.wp_store
    · rw [hbuf, hpos, length_append_drop (Nat.le_of_lt hin)]
      exact hin
    rw [wp_pure]
    refine ⟨rfl, ?_, fun hzero => absurd hzero (Nat.ne_of_gt hpositive)⟩
    intro _
    rw [hpos, hbuf, set_append_drop nul hin, List.length_take, Nat.min_comm]
  · have hzero : len = 0 := Nat.eq_zero_of_not_pos hpositive
    rw [if_neg hpositive, wp_pure]
    refine ⟨rfl, fun h => absurd h hpositive, ?_⟩
    intro _
    rw [hbuf, hzero, Nat.zero_sub, List.take_zero]
    rfl

end Buffer

/-- Whatever the length, `vsnprintf` returns that of the whole text.  The start of the text that
fits is in the buffer, with a NUL behind it and nothing else changed; nothing is written if the
length is zero. -/
theorem vsnprintf_truncates {fmt : List Char} {ap : List Arg} (hmatch : Matching fmt ap) :
  ∃ count R, vprintf record fmt ap [] = .ok count R
    ∧ (R.length < 2 ^ 31 → ∀ len buf, len ≤ buf.length →
      ∃ buf', vsnprintf len fmt ap buf = .ok (R.length : ℤ) buf'
        ∧ (0 < len → buf' = R.take (len - 1) ++ nul :: buf.drop (min R.length (len - 1) + 1))
        ∧ (len = 0 → buf' = buf))
  := by
  use i32 (text fmt ap).length, text fmt ap, vprintf_record hmatch
  intro hshort len buf hlen
  obtain ⟨chars, snp, hrun, hchars, hbuf⟩ := exists_ok (SNP.print_spec hmatch hlen)
  rw [i32_of_mem (by omega) (by omega)] at hchars
  use snp.buf
  constructor
  · rw [vsnprintf, hrun, hchars]
  · exact hbuf

/-- A text of five characters is cut off where four are allowed. -/
theorem vsnprintf_truncates_cut :
  vsnprintf 4 ['%', '5', 'x'] [.word 255] ['a', 'b', 'c', 'd', 'e']
    = .ok 5 [' ', ' ', ' ', nul, 'e']
  := by
  obtain ⟨count, R, hR, hcut⟩ := @vsnprintf_truncates ['%', '5', 'x'] [.word 255] (by decide)
  obtain ⟨_, _, hrun, rfl⟩ : ∃ n R, vprintf record ['%', '5', 'x'] [.word 255] [] = .ok n R
      ∧ R = [' ', ' ', ' ', 'f', 'f'] := by decide +kernel
  obtain ⟨-, rfl⟩ := Outcome.ok.inj (hR.symm.trans hrun)
  obtain ⟨buf', hok, hbuf, -⟩ := hcut (by decide) 4 ['a', 'b', 'c', 'd', 'e'] (by decide)
  rw [hok, hbuf (by decide)]
  rfl

end Printf
