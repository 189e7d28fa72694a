import AzureSpider.Libc.Printf
import Mathlib.Data.List.Induction
import Mathlib.Data.Nat.Prime.Basic
import Mathlib.Tactic.Ring

/-!
# Printed numbers read back

`atoi`, and the directives `%…d` of `__vprintf` with a field width, in all orders of the flags `-`
and `0`.  Unless there are zeros to the right of the number, `atoi` finds it again.
-/

open Machine

namespace Printf

/-- The blanks that `atoi` skips. -/
def blank (c : Char) : Bool := c == ' ' || c == Char.ofNat 9

/-- The legal digits in order. -/
def decimals : List Char := ['0', '1', '2', '3', '4', '5', '6', '7', '8', '9']

/-- The loop of `atoi` over the digits. -/
def atoiDigits : (s : List Char) → (val : ℕ) → ℕ
  | [], val => val
  | c :: s, val =>
    if c = nul then val
    else
      match decimals.idxOf? c with
      | none => val
      | some digit => atoiDigits s (u32 (val * 10 + digit))

/-- `atoi` behind the blanks. -/
def atoiSigned (s : List Char) : ℤ :=
  if s.head? = some '-' then i32 (-(atoiDigits s.tail 0 : ℤ))
  else if s.head? = some '+' then i32 (atoiDigits s.tail 0)
  else i32 (atoiDigits s 0)

/-- `atoi`. -/
def atoi (s : List Char) : ℤ := atoiSigned (s.dropWhile blank)

/-- The field width that the modifiers give. -/
def width (m : List Char) : ℕ := Nat.ofDigitChars 10 (m.filter Char.isDigit) 0

/-- The field width has a leading zero. -/
def LeadingZero (m : List Char) : Prop := (m.filter Char.isDigit).head? = some '0'

instance (m : List Char) : Decidable (LeadingZero m) :=
  inferInstanceAs (Decidable ((m.filter Char.isDigit).head? = some '0'))

/-- The sign of a number. -/
def signOf (n : ℤ) : List Char := if n < 0 then ['-'] else []

/-- A number in decimal. -/
def numeral (n : ℤ) : List Char := signOf n ++ Nat.toDigits 10 n.natAbs

/-! ### Reading -/

section Reading

variable {ds rest : List Char}

theorem mem_decimals {c : Char} (h : c.isDigit = true) :
  c ∈ decimals
  := by
  have hall : ∀ i < 58, 48 ≤ i → Char.ofNat i ∈ decimals := by decide
  rw [Char.isDigit, Bool.and_eq_true, decide_eq_true_eq, decide_eq_true_eq] at h
  have hl : 48 ≤ c.toNat := UInt32.le_iff_toNat_le.mp h.1
  have hu : c.toNat ≤ 57 := UInt32.le_iff_toNat_le.mp h.2
  have hc := hall c.toNat (by omega) hl
  rwa [Char.ofNat_toNat] at hc

theorem idxOf_digit {c : Char} (h : c.isDigit = true) :
  c ≠ nul ∧ decimals.idxOf? c = some (c.toNat - '0'.toNat)
  := by
  have hall : ∀ c ∈ decimals, c ≠ nul ∧ decimals.idxOf? c = some (c.toNat - '0'.toNat) :=
    forall_mem_of_all (by decide)
  exact hall c (mem_decimals h)

/-- The digits are read up to what follows them. -/
theorem atoiDigits_append (hds : ∀ c ∈ ds, c.isDigit = true) (val : ℕ) :
  atoiDigits (ds ++ rest) (u32 val) = atoiDigits rest (u32 (Nat.ofDigitChars 10 ds val))
  := by
  induction ds generalizing val with
  | nil => rfl
  | cons c ds ih =>
    obtain ⟨hnul, hdigit⟩ := idxOf_digit (hds c List.mem_cons_self)
    have hnext : u32 (u32 val * 10 + (c.toNat - '0'.toNat))
        = u32 (10 * val + (c.toNat - '0'.toNat)) := by
      unfold u32
      omega
    rw [List.cons_append, atoiDigits, if_neg hnul, hdigit, Nat.ofDigitChars_cons, ← ih]
    · dsimp only
      rw [hnext]
    · exact (List.forall_mem_cons.mp hds).2

/-- The digits end at the end of the string, or at a blank. -/
theorem atoiDigits_blanks (k val : ℕ) :
  atoiDigits (List.replicate k ' ') val = val
  := by
  cases k with
  | zero | succ => rfl

theorem i32_u32 (a : ℕ) :
  i32 (u32 a : ℤ) = i32 a ∧ i32 (-(u32 a : ℤ)) = i32 (-(a : ℤ))
  := by
  unfold i32 u32
  omega

/-- A number is read behind blanks and in front of blanks. -/
theorem atoi_eq (hds : ∀ c ∈ ds, c.isDigit = true) (hne : ds ≠ []) (n : ℤ) (j k : ℕ) :
  atoi (List.replicate j ' ' ++ (signOf n ++ (ds ++ List.replicate k ' ')))
    = i32 (if n < 0 then -(Nat.ofDigitChars 10 ds 0 : ℤ) else Nat.ofDigitChars 10 ds 0)
  := by
  obtain ⟨c, ds', rfl⟩ := List.exists_cons_of_ne_nil hne
  have hread : atoiDigits ((c :: ds') ++ List.replicate k ' ') 0
      = u32 (Nat.ofDigitChars 10 (c :: ds') 0) := by
    have happend : atoiDigits ((c :: ds') ++ List.replicate k ' ') (u32 0) = _ :=
      atoiDigits_append hds 0
    rw [atoiDigits_blanks] at happend
    exact happend
  have hdigit : c.isDigit = true := hds c List.mem_cons_self
  have hall : ∀ c ∈ decimals, blank c = false ∧ c ≠ '-' ∧ c ≠ '+' :=
    forall_mem_of_all (by decide)
  have hc := hall c (mem_decimals hdigit)
  have hskip : ∀ s : List Char,
      (List.replicate j ' ' ++ s).dropWhile blank = s.dropWhile blank := by
    intro s
    apply List.dropWhile_append_of_pos
    intro b hb
    rw [List.eq_of_mem_replicate hb]
    rfl
  rw [atoi, hskip, signOf]
  by_cases hneg : n < 0
  · rw [if_pos hneg, if_pos hneg, ← (i32_u32 _).2, ← hread]
    rfl
  · rw [if_neg hneg, if_neg hneg, List.nil_append, List.cons_append, List.dropWhile_cons, hc.1,
      ← (i32_u32 _).1, ← hread]
    simp only [atoiSigned, Bool.false_eq_true, if_false, List.head?_cons, Option.some.injEq, hc.2.1,
      hc.2.2]
    rfl

end Reading

/-! ### Directives -/

section Directives

variable {m : List Char} {c : Char}

/-- The modifiers are the flags and the digits of the width. -/
def Flags (m : List Char) : Prop := ∀ c ∈ m, c = '-' ∨ c.isDigit = true

theorem Flags.modifiers (h : Flags m) :
  ∀ c ∈ m, c ∈ modifiers ∧ c ≠ nul
  := by
  have hall : ∀ c ∈ decimals, c ∈ Printf.modifiers ∧ c ≠ nul := forall_mem_of_all (by decide)
  intro c hc
  rcases h c hc with rfl | hdigit
  · decide
  · exact hall c (mem_decimals hdigit)

theorem width_digit (h : c.isDigit = true) :
  width (m ++ [c]) = 10 * width m + (c.toNat - '0'.toNat)
  := by
  rw [width, List.filter_append, Nat.ofDigitChars_append, List.filter_cons_of_pos h,
    Nat.ofDigitChars_cons]
  rfl

theorem le_ofDigitChars (ds : List Char) (init : ℕ) :
  init ≤ Nat.ofDigitChars 10 ds init
  := by
  induction ds generalizing init with
  | nil => exact Nat.le_refl init
  | cons c ds ih =>
    rw [Nat.ofDigitChars_cons]
    have hnext := ih (10 * init + (c.toNat - '0'.toNat))
    omega

theorem eq_zero_of_digit (h : c.isDigit = true) (hzero : c.toNat - '0'.toNat = 0) :
  c = '0'
  := by
  have hall : ∀ c ∈ decimals, c.toNat - '0'.toNat = 0 → c = '0' := forall_mem_of_all (by decide)
  exact hall c (mem_decimals h) hzero

/-- A width of zero has no digits, or a leading zero. -/
theorem digits_of_width_zero (h : width m = 0) :
  m.filter Char.isDigit = [] ∨ LeadingZero m
  := by
  rw [LeadingZero]
  rw [width] at h
  have hdigits : ∀ c ∈ m.filter Char.isDigit, c.isDigit = true := by
    intro c hc
    exact (List.mem_filter.mp hc).2
  cases hds : m.filter Char.isDigit with
  | nil => exact .inl rfl
  | cons c ds =>
    rw [hds] at h hdigits
    rw [Nat.ofDigitChars_cons] at h
    have hle := le_ofDigitChars ds (10 * 0 + (c.toNat - '0'.toNat))
    have hc := eq_zero_of_digit (hdigits c List.mem_cons_self) (by omega)
    rw [hc]
    exact .inr rfl

/-- The field for the modifiers. -/
def fieldOf (ap : List Arg) (m : List Char) : Field :=
  { start ap with
    inPct := true
    spacing := width m
    fillchar := if LeadingZero m then '0' else ' '
    rightspc := decide ('-' ∈ m) }

theorem leadingZero_digit (h : c.isDigit = true) :
  LeadingZero (m ++ [c]) ↔ LeadingZero m ∨ m.filter Char.isDigit = [] ∧ c = '0'
  := by
  rw [LeadingZero, LeadingZero, List.filter_append, List.filter_cons_of_pos h]
  cases m.filter Char.isDigit with
  | nil | cons => simp

variable {ap : List Arg} {f : Field}

theorem fieldOf_flag :
  (fieldOf ap m).modifier '-' = fieldOf ap (m ++ ['-'])
  := by
  have hmodifier : (fieldOf ap m).modifier '-' = { fieldOf ap m with rightspc := true } := rfl
  rw [hmodifier]
  simp [fieldOf, width, LeadingZero]

theorem not_mem_flag (h : c.isDigit = true) :
  decide ('-' ∈ m ++ [c]) = decide ('-' ∈ m)
  := by
  have hne : '-' ≠ c := by
    rintro rfl
    exact absurd h (by decide)
  simp [hne]

/-- A zero is part of the width, or leads it. -/
theorem fieldOf_zero (hwidth : width (m ++ ['0']) < 2 ^ 31) :
  (fieldOf ap m).modifier '0' = fieldOf ap (m ++ ['0'])
  := by
  have hdigit : width (m ++ ['0']) = 10 * width m := width_digit rfl
  have hleading : LeadingZero (m ++ ['0']) ↔ LeadingZero m ∨ m.filter Char.isDigit = [] := by
    rw [leadingZero_digit rfl, and_iff_left rfl]
  have hmodifier : (fieldOf ap m).modifier '0'
      = if (0 : ℤ) < width m then { fieldOf ap m with spacing := i32 (width m * 10) }
        else { fieldOf ap m with fillchar := '0' } := rfl
  rw [hmodifier]
  by_cases hpos : 0 < width m
  · have hne : m.filter Char.isDigit ≠ [] := by
      intro hnil
      rw [width, hnil] at hpos
      contradiction
    have hspacing : i32 (width m * 10) = width (m ++ ['0']) := by
      rw [hdigit, i32_of_mem (by omega) (by omega)]
      omega
    rw [if_pos (by omega), hspacing, fieldOf, fieldOf, not_mem_flag rfl]
    simp only [hleading, or_iff_left hne]
  · have hzero : width m = 0 := by omega
    rw [if_neg (by omega), fieldOf, fieldOf, not_mem_flag rfl,
      if_pos (hleading.mpr (digits_of_width_zero hzero).symm), hdigit, hzero]

/-- Another digit is part of the width. -/
theorem fieldOf_digit (hc : c.isDigit = true) (hne : c ≠ '0') (hwidth : width (m ++ [c]) < 2 ^ 31) :
  (fieldOf ap m).modifier c = fieldOf ap (m ++ [c])
  := by
  have hdigit := width_digit (m := m) hc
  have hleading : LeadingZero (m ++ [c]) ↔ LeadingZero m := by
    rw [leadingZero_digit hc, or_iff_left (fun h => hne h.2)]
  have hothers : ∀ c ∈ decimals, c ≠ '#' ∧ c ≠ '-' ∧ c ≠ 'l' ∧ c ≠ 'q' :=
    forall_mem_of_all (by decide)
  obtain ⟨halt, hminus, hlong, hquad⟩ := hothers c (mem_decimals hc)
  have hspacing : i32 (width m * 10 + (c.toNat - '0'.toNat : ℕ)) = width (m ++ [c]) := by
    rw [hdigit, i32_of_mem (by omega) (by omega)]
    omega
  rw [Field.modifier, if_neg halt, if_neg hminus, if_neg hlong, if_neg hquad, if_neg hne, fieldOf,
    fieldOf, not_mem_flag hc]
  simp only [hspacing, hleading]

theorem fieldOf_modifier (hc : c = '-' ∨ c.isDigit = true) (hwidth : width (m ++ [c]) < 2 ^ 31) :
  (fieldOf ap m).modifier c = fieldOf ap (m ++ [c])
  := by
  rcases hc with rfl | hdigit
  · exact fieldOf_flag
  · by_cases hzero : c = '0'
    · subst hzero
      exact fieldOf_zero hwidth
    · exact fieldOf_digit hdigit hzero hwidth

theorem foldl_modifiers (hm : Flags m) (hwidth : width m < 2 ^ 31) :
  m.foldl (fun f c => f.modifier c) { start ap with inPct := true } = fieldOf ap m
  := by
  induction m using List.reverseRecOn with
  | nil => rfl
  | append_singleton m c ih =>
    have hle : width m ≤ width (m ++ [c]) := by
      rw [width, width, List.filter_append, Nat.ofDigitChars_append]
      exact le_ofDigitChars _ _
    obtain ⟨hinit, hlast⟩ := List.forall_mem_append.mp hm
    rw [List.foldl_append, ih hinit (by omega)]
    exact fieldOf_modifier (hlast c (List.mem_singleton_self c)) hwidth

/-- Modifiers print nothing. -/
theorem text_modifiers {fmt : List Char} (hm : ∀ c ∈ m, c ∈ modifiers ∧ c ≠ nul)
    (hpct : f.inPct = true) :
  f.text (m ++ fmt) = (m.foldl (fun f c => f.modifier c) f).text fmt
  := by
  induction m generalizing f with
  | nil => rfl
  | cons c m ih =>
    obtain ⟨hmodifier, hnul⟩ := hm c List.mem_cons_self
    have hstep : f.step c = ([], f.modifier c) := by
      rw [Field.step, if_neg (by simp [hpct]), if_neg (by simp [hpct]), if_pos hmodifier]
    rw [List.cons_append, Field.text, if_neg hnul, hstep, List.nil_append, List.foldl_cons, ih]
    · exact (List.forall_mem_cons.mp hm).2
    · rw [(modifier_inPct c f).1, hpct]

theorem kinds_modifiers {fmt : List Char} (hm : ∀ c ∈ m, c ∈ modifiers ∧ c ≠ nul) :
  kinds true (m ++ fmt) = kinds true fmt
  := by
  induction m with
  | nil => rfl
  | cons c m ih =>
    obtain ⟨hmodifier, hnul⟩ := hm c List.mem_cons_self
    rw [List.cons_append, kinds, if_neg hnul, if_neg (by simp), if_neg (by simp),
      if_pos hmodifier, ih]
    exact (List.forall_mem_cons.mp hm).2

end Directives

/-! ### Numbers in their fields -/

section Numbers

variable {m : List Char} {n : ℤ}

theorem length_numeral_le (hl : -2 ^ 31 ≤ n) (hu : n < 2 ^ 31) :
  (numeral n).length ≤ 11
  := by
  have hdigits : (Nat.toDigits 10 n.natAbs).length ≤ 10 := by
    rw [Nat.length_toDigits_le_iff (by decide) (by decide)]
    omega
  have hsign : (signOf n).length ≤ 1 := by
    unfold signOf
    split
    · decide
    · decide
  rw [numeral, List.length_append]
  omega

/-- The padding of a number. -/
def padding (m : List Char) (n : ℤ) : List Char :=
  List.replicate (width m - (numeral n).length) (if LeadingZero m then '0' else ' ')

/-- A number in the field for the modifiers. -/
def directive (m : List Char) (n : ℤ) : List Char :=
  if '-' ∈ m then numeral n ++ padding m n
  else if LeadingZero m then signOf n ++ (padding m n ++ Nat.toDigits 10 n.natAbs)
  else padding m n ++ numeral n

/-- The field when the number is printed. -/
theorem getnum_fieldOf (hl : -2 ^ 31 ≤ n) (hu : n < 2 ^ 31) :
  ((fieldOf [] m).getnum 'd' n).setbase 'd'
    = { fieldOf [] m with num := n.natAbs, sign := if n < 0 then -1 else 0, base := 10 }
  := by
  have hsigned : (fieldOf [] m).size.signed n = n := i32_of_mem hl hu
  have hnum : toU32 n = n.natAbs ∨ n < 0 := by
    unfold toU32
    omega
  have hneg : toU32 (-n) = n.natAbs ∨ 0 ≤ n := by
    unfold toU32
    omega
  rw [Field.getnum, if_neg (by decide), if_pos rfl, hsigned]
  by_cases hlt : n < 0
  · rw [if_pos hlt, if_pos hlt, hneg.resolve_right (by omega)]
    rfl
  · rw [if_neg hlt, if_neg hlt, hnum.resolve_right hlt]
    rfl

theorem pad_eq {f : Field} {w len : ℕ} (hspacing : f.spacing = w) (hw : w < 2 ^ 31)
    (hlen : len < 2 ^ 31) :
  f.pad len = List.replicate (w - len) f.fillchar
  := by
  have hspc : (f.spc (i32 len)).toNat = w - len := by
    rw [Field.spc, hspacing, i32_of_mem (z := (len : ℤ)) (by omega) (by omega)]
    split
    · rw [i32_of_mem (by omega) (by omega)]
      omega
    · omega
  rw [Field.pad, hspc]

theorem number_fieldOf (hwidth : width m < 2 ^ 31) (hl : -2 ^ 31 ≤ n) (hu : n < 2 ^ 31) :
  (((fieldOf [] m).getnum 'd' n).setbase 'd').number = directive m n
  := by
  have hlength := length_numeral_le hl hu
  rw [numeral, List.length_append] at hlength
  rw [getnum_fieldOf hl hu]
  generalize hg : ({ fieldOf [] m with
    num := n.natAbs, sign := if n < 0 then -1 else 0, base := 10 } : Field) = g
  have hsign : g.signText ++ g.baseText = signOf n := by
    rw [← hg, Field.signText, Field.baseText, signOf]
    by_cases hlt : n < 0 <;> simp [hlt, fieldOf, start, Field.endfield]
  have hpad : g.pad ((signOf n).length + (Nat.toDigits 10 n.natAbs).length) = padding m n := by
    rw [padding, numeral, List.length_append, pad_eq (w := width m) (by rw [← hg]; rfl) hwidth
      (by omega), ← hg]
    rfl
  have hdigits : Nat.toDigits g.base g.num = Nat.toDigits 10 n.natAbs := by
    rw [← hg]
  have hright : g.rightspc = decide ('-' ∈ m) := by
    rw [← hg]
    rfl
  have hfill : g.fillchar = if LeadingZero m then '0' else ' ' := by
    rw [← hg]
    rfl
  rw [Field.number, hsign, hdigits, Field.padded, hpad, hright, hfill, directive, numeral]
  by_cases hminus : '-' ∈ m
  · simp [hminus]
  · by_cases hzero : LeadingZero m <;> simp [hminus, hzero]

theorem text_directive (hm : Flags m) (hwidth : width m < 2 ^ 31) (hl : -2 ^ 31 ≤ n)
    (hu : n < 2 ^ 31) :
  text ('%' :: (m ++ ['d'])) [.word n] = directive m n
  := by
  have hfirst : text ('%' :: (m ++ ['d'])) [.word n]
      = Field.text { start [.word n] with inPct := true } (m ++ ['d']) := rfl
  rw [hfirst, text_modifiers hm.modifiers rfl, foldl_modifiers hm hwidth]
  have hlast : (fieldOf [.word n] m).text ['d']
      = (((fieldOf [] m).getnum 'd' n).setbase 'd').number ++ [] := rfl
  rw [hlast, List.append_nil, number_fieldOf hwidth hl hu]

theorem matching_directive (hm : Flags m) :
  Matching ('%' :: (m ++ ['d'])) [.word n]
  := by
  have hkinds : kinds false ('%' :: (m ++ ['d'])) = kinds true (m ++ ['d']) := rfl
  rw [Matching, hkinds, kinds_modifiers hm.modifiers]
  exact List.prefix_rfl

theorem width_le_length (m : List Char) (n : ℤ) :
  width m ≤ (directive m n).length
  := by
  have hpadding : (padding m n).length = width m - (numeral n).length := List.length_replicate
  unfold directive
  split
  · rw [List.length_append]
    omega
  · split
    · rw [numeral, List.length_append] at hpadding
      rw [List.length_append, List.length_append]
      omega
    · rw [List.length_append]
      omega

theorem isDigit_toDigits {c : Char} {num : ℕ} (h : c ∈ Nat.toDigits 10 num) :
  c.isDigit = true
  := by
  obtain ⟨i, hi, rfl⟩ := mem_toDigits (by decide) h
  rw [Nat.isDigit_digitChar]
  exact decide_eq_true hi

theorem toDigits_ne_nil (num : ℕ) :
  Nat.toDigits 10 num ≠ []
  := by
  rcases Nat.lt_or_ge num 10 with hlt | hle
  · rw [Nat.toDigits_of_lt_base hlt]
    exact List.cons_ne_nil _ _
  · rw [Nat.toDigits_of_base_le (by decide) hle]
    exact List.append_ne_nil_of_right_ne_nil _ (List.cons_ne_nil _ _)

theorem isDigit_replicate {c : Char} {k : ℕ} (h : c ∈ List.replicate k '0') :
  c.isDigit = true
  := by
  rw [List.eq_of_mem_replicate h]
  rfl

theorem i32_signed (hl : -2 ^ 31 ≤ n) (hu : n < 2 ^ 31) :
  i32 (if n < 0 then -(n.natAbs : ℤ) else n.natAbs) = n
  := by
  have habs : (if n < 0 then -(n.natAbs : ℤ) else n.natAbs) = n := by
    split
    · omega
    · omega
  rw [habs, i32_of_mem hl hu]

/-- A number whose multiple by a power of ten is the same word is zero: `10 ^ k - 1` is odd. -/
theorem eq_zero_of_dvd {k : ℕ} (hk : k ≠ 0) (hl : -2 ^ 31 ≤ n) (hu : n < 2 ^ 31)
    (h : (2 ^ 32 : ℤ) ∣ 10 ^ k * n - n) :
  n = 0
  := by
  have hone : 1 ≤ 10 ^ k := Nat.one_le_pow k 10 (by decide)
  have hodd : Nat.Coprime (2 ^ 32) (10 ^ k - 1) := by
    apply Nat.Coprime.pow_left
    rw [Nat.coprime_two_left]
    apply Nat.Even.sub_odd hone
    · exact (by decide : Even 10).pow_of_ne_zero hk
    · decide
  have hfactor : 10 ^ k * n - n = ((10 ^ k - 1 : ℕ) : ℤ) * n := by
    push_cast [hone]
    ring
  have hdvd : 2 ^ 32 ∣ (10 ^ k - 1) * n.natAbs := by
    rw [hfactor, ← Int.natAbs_dvd_natAbs, Int.natAbs_mul, Int.natAbs_natCast] at h
    exact h
  have habs := Nat.eq_zero_of_dvd_of_lt (hodd.dvd_of_dvd_mul_left hdvd) (by omega)
  exact Int.natAbs_eq_zero.mp habs

/-- A number and its multiple by a power of ten are different words, unless it is zero. -/
theorem i32_shifted {k : ℕ} (hl : -2 ^ 31 ≤ n) (hu : n < 2 ^ 31) :
  i32 (if n < 0 then -((10 ^ k * n.natAbs : ℕ) : ℤ) else (10 ^ k * n.natAbs : ℕ)) = n
    ↔ n = 0 ∨ k = 0
  := by
  have hvalue : (if n < 0 then -((10 ^ k * n.natAbs : ℕ) : ℤ) else (10 ^ k * n.natAbs : ℕ))
      = 10 ^ k * n := by
    split
    · have habs : (n.natAbs : ℤ) = -n := by omega
      push_cast
      rw [← Int.natCast_natAbs, habs]
      ring
    · have habs : (n.natAbs : ℤ) = n := by omega
      push_cast
      rw [← Int.natCast_natAbs, habs]
  rw [hvalue]
  constructor
  · intro heq
    rcases Nat.eq_zero_or_pos k with hk | hk
    · exact .inr hk
    · left
      apply eq_zero_of_dvd (Nat.ne_of_gt hk) hl hu
      generalize 10 ^ k * n = z at heq
      use (z + 2 ^ 31) / 2 ^ 32
      unfold i32 at heq
      omega
  · rintro (rfl | rfl)
    · rw [Int.mul_zero]
      rfl
    · rw [pow_zero, Int.one_mul, i32_of_mem hl hu]

/-- `atoi` finds the number unless zeros follow it. -/
theorem atoi_directive (hl : -2 ^ 31 ≤ n) (hu : n < 2 ^ 31) :
  atoi (directive m n) = n
    ↔ n = 0 ∨ ¬ ('-' ∈ m ∧ LeadingZero m ∧ (numeral n).length < width m)
  := by
  have hdigits : ∀ c ∈ Nat.toDigits 10 n.natAbs, c.isDigit = true := fun c => isDigit_toDigits
  have hvalue : Nat.ofDigitChars 10 (Nat.toDigits 10 n.natAbs) 0 = n.natAbs :=
    Nat.ofDigitChars_toDigits (by decide) (by decide)
  have hne := toDigits_ne_nil n.natAbs
  generalize hk : width m - (numeral n).length = k
  have hzeros : ∀ c ∈ List.replicate k '0', c.isDigit = true := fun c => isDigit_replicate
  by_cases hzero : LeadingZero m
  · have hpadding : padding m n = List.replicate k '0' := by
      rw [padding, hk, if_pos hzero]
    by_cases hminus : '-' ∈ m
    · -- the zeros follow the number
      have htext : directive m n = List.replicate 0 ' ' ++ (signOf n
          ++ ((Nat.toDigits 10 n.natAbs ++ List.replicate k '0') ++ List.replicate 0 ' ')) := by
        rw [directive, if_pos hminus, hpadding, numeral]
        simp
      have hall := List.forall_mem_append.mpr ⟨hdigits, hzeros⟩
      rw [htext, atoi_eq hall (by simp [hne]), Nat.ofDigitChars_append, hvalue,
        Nat.ofDigitChars_replicate_zero, i32_shifted hl hu]
      have hiff : k = 0 ↔ ¬ ('-' ∈ m ∧ LeadingZero m ∧ (numeral n).length < width m) := by
        simp only [hminus, hzero, true_and]
        omega
      rw [hiff]
    · -- the zeros lead the number
      have htext : directive m n = List.replicate 0 ' ' ++ (signOf n
          ++ ((List.replicate k '0' ++ Nat.toDigits 10 n.natAbs) ++ List.replicate 0 ' ')) := by
        rw [directive, if_neg hminus, if_pos hzero, hpadding]
        simp
      have hall := List.forall_mem_append.mpr ⟨hzeros, hdigits⟩
      rw [htext, atoi_eq hall (by simp [hne]), Nat.ofDigitChars_append,
        Nat.ofDigitChars_replicate_zero, Nat.mul_zero, hvalue, i32_signed hl hu]
      simp [hminus]
  · have hpadding : padding m n = List.replicate k ' ' := by
      rw [padding, hk, if_neg hzero]
    by_cases hminus : '-' ∈ m
    · have htext : directive m n = List.replicate 0 ' ' ++ (signOf n
          ++ (Nat.toDigits 10 n.natAbs ++ List.replicate k ' ')) := by
        rw [directive, if_pos hminus, hpadding, numeral]
        simp
      rw [htext, atoi_eq hdigits hne, hvalue, i32_signed hl hu]
      simp [hzero]
    · have htext : directive m n = List.replicate k ' ' ++ (signOf n
          ++ (Nat.toDigits 10 n.natAbs ++ List.replicate 0 ' ')) := by
        rw [directive, if_neg hminus, if_neg hzero, hpadding, numeral]
        simp
      rw [htext, atoi_eq hdigits hne, hvalue, i32_signed hl hu]
      simp [hzero]

end Numbers

/-- A number is printed with a directive of the flags `-` and `0`, in any order, and a field width.
The text is at least as wide as the field.  `atoi` finds the number in it, with one exception: if
both flags are given and the number is shorter than its field, the zeros are to the right of it, and
only zero is read back.  The buffer of the digits holds every 32-bit number in every base. -/
theorem printed_reads_back {m : List Char} {n : ℤ} (hm : Flags m) (hwidth : width m < 2 ^ 31)
    (hl : -2 ^ 31 ≤ n) (hu : n < 2 ^ 31) :
  (∃ count R, vprintf record ('%' :: (m ++ ['d'])) [.word n] [] = .ok count R
      ∧ width m ≤ R.length
      ∧ (atoi R = n ↔ n = 0 ∨ ¬ ('-' ∈ m ∧ LeadingZero m ∧ (numeral n).length < width m)))
    ∧ ∀ base num, base = 8 ∨ base = 10 ∨ base = 16 → num < 2 ^ 32 →
      ∃ x, convert base (numberBufSize - 1) num [] = some x
  := by
  constructor
  · use i32 (directive m n).length, directive m n
    constructor
    · rw [vprintf_record (matching_directive hm), text_directive hm hwidth hl hu]
    · exact ⟨width_le_length m n, atoi_directive hl hu⟩
  · intro base num hbase hnum
    exact ⟨_, convert_u32 hbase hnum⟩

/-- The least number, in a field of twenty characters with leading zeros. -/
theorem printed_reads_back_least :
  (∃ count R, vprintf record ('%' :: (['0', '2', '0'] ++ ['d'])) [.word (-2 ^ 31)] [] = .ok count R
      ∧ width ['0', '2', '0'] ≤ R.length
      ∧ (atoi R = -2 ^ 31 ↔ (-2 ^ 31 : ℤ) = 0 ∨ ¬ ('-' ∈ ['0', '2', '0']
        ∧ LeadingZero ['0', '2', '0'] ∧ (numeral (-2 ^ 31)).length < width ['0', '2', '0'])))
    ∧ ∀ base num, base = 8 ∨ base = 10 ∨ base = 16 → num < 2 ^ 32 →
      ∃ x, convert base (numberBufSize - 1) num [] = some x
  := by
  apply printed_reads_back
  · exact forall_mem_of_all (by decide)
  · decide
  · decide
  · decide

/-- `%-05d` prints zeros to the right of a number. -/
theorem zeros_follow :
  ∃ count R, vprintf record ['%', '-', '0', '5', 'd'] [.word 12] [] = .ok count R
    ∧ R = ['1', '2', '0', '0', '0'] ∧ atoi R = 12000
  := by
  decide +kernel

end Printf
