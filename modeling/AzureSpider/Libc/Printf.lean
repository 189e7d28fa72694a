import AzureSpider.Lib.Machine
import AzureSpider.Lib.Routine
import Mathlib.Data.List.Basic

/-!
# `__vprintf`

The interpreter of format strings behind every `printf`.  It hands the text to a client, piece by
piece, and counts it.  The client is a routine on data of its own.

* `Field` is the part of the state that the format determines, `PF` the whole state;
* `text fmt ap` is what the format and the arguments stand for, with no buffers and no pieces;
* `vprintf_spec`: a client that takes every piece gets `text fmt ap`, whatever it is.

The integers are 32 bits wide, `int` and `long` alike, and their overflow wraps.
-/

open Machine Routine

namespace Printf

/-- The character that ends a string. -/
def nul : Char := Char.ofNat 0

/-- The string in a buffer; at the end of the list there is a NUL. -/
def cstr (s : List Char) : List Char := s.takeWhile fun c => c ≠ nul

def strlen (s : List Char) : ℕ := (cstr s).length

/-- An argument: a 32-bit word, which is an integer, a character or a pointer, or the address of a
string, which may be NULL. -/
inductive Arg where
  | word (w : ℤ)
  | str (s : Option (List Char))
  deriving DecidableEq, Repr

/-- The failures of a session. -/
inductive Panic where
  | modifier | nul
  -- the next argument is missing or of another kind
  | args
  -- a division by zero
  | divide
  -- an access outside of the digits or of their buffer
  | overrun
  -- an access of a client outside of its buffer
  | outside
  deriving DecidableEq, Repr

/-- The size of an integer argument. -/
inductive IntSize where
  | intsz | longsz
  deriving DecidableEq, Repr

/-- `va_arg` for an `int` or a `long`. -/
def IntSize.signed : IntSize → ℤ → ℤ
  | intsz, w => i32 w
  | longsz, w => i32 w

/-- `va_arg` for an `unsigned` or an `unsigned long`. -/
def IntSize.unsigned : IntSize → ℤ → ℕ
  | intsz, w => toU32 w
  | longsz, w => toU32 w

/-- The state of a session, without what has been printed. -/
structure Field where
  ap : List Arg
  inPct : Bool
  size : IntSize
  num : ℕ
  sign : ℤ
  spacing : ℤ
  rightspc : Bool
  fillchar : Char
  base : ℕ
  baseprefix : Bool
  altformat : Bool
  deriving DecidableEq, Repr

/-- The state of a session, whose client has the data `clientdata`. -/
structure PF (δ : Type) extends Field where
  clientdata : δ
  charcount : ℤ

/-- A routine of a client. -/
abbrev Client (δ α : Type) : Type := Routine Empty Panic δ α

/-- A routine of a session. -/
abbrev Run (δ α : Type) : Type := Routine Empty Panic (PF δ) α

/-- The modifiers, the characters between the `%` and the type. -/
def modifiers : List Char :=
  ['#', '-', 'q', 'l', '0', '1', '2', '3', '4', '5', '6', '7', '8', '9']

/-- What holds of every character in a list is checked one by one. -/
theorem forall_mem_of_all {s : List Char} [DecidablePred P] (h : (s.all fun c => P c) = true) :
  ∀ c ∈ s, P c
  := by
  intro c hc
  exact of_decide_eq_true (List.all_eq_true.mp h c hc)

/-- The integer types. -/
def integers : List Char := ['d', 'o', 'u', 'p', 'x']

/-! ### Fields -/

namespace Field

/-- `__pf_endfield`. -/
def endfield (f : Field) : Field where
  ap := f.ap
  inPct := false
  size := .intsz
  num := 0
  sign := 0
  spacing := 0
  rightspc := false
  fillchar := ' '
  base := 0
  baseprefix := false
  altformat := false

/-- What `__pf_modifier` does for a modifier. -/
def modifier (ch : Char) (f : Field) : Field :=
  if ch = '#' then { f with altformat := true }
  else if ch = '-' then { f with rightspc := true }
  else if ch = 'l' then { f with size := .longsz }
  else if ch = 'q' then { f with size := .longsz }
  else if ch = '0' then
    if 0 < f.spacing then { f with spacing := i32 (f.spacing * 10) }
    else { f with fillchar := '0' }
  else { f with spacing := i32 (f.spacing * 10 + (ch.toNat - '0'.toNat : ℕ)) }

/-- What `__pf_getnum` does with the argument `w`. -/
def getnum (ch : Char) (w : ℤ) (f : Field) : Field :=
  if ch = 'p' then { f with num := toU32 w }
  else if ch = 'd' then
    if f.size.signed w < 0 then { f with sign := -1, num := toU32 (-f.size.signed w) }
    else { f with num := toU32 (f.size.signed w) }
  else { f with num := f.size.unsigned w }

/-- The base of an integer type. -/
def baseOf (ch : Char) (f : Field) : ℕ :=
  if ch = 'd' ∨ ch = 'u' then 10
  else if ch = 'x' ∨ ch = 'p' then 16
  else if ch = 'o' then 8
  else f.base

/-- `__pf_setbase`. -/
def setbase (ch : Char) (f : Field) : Field :=
  { f with
    base := f.baseOf ch
    baseprefix := if f.altformat ∨ ch = 'p' then true else f.baseprefix }

/-- The prefix for the base. -/
def baseText (f : Field) : List Char :=
  if f.baseprefix ∧ f.base = 16 then ['0', 'x']
  else if f.baseprefix ∧ f.base = 8 then ['0']
  else []

/-- The prefix for the sign. -/
def signText (f : Field) : List Char := if f.sign ≠ 0 then ['-'] else []

/-- The amount of padding for a text of `len` characters. -/
def spc (f : Field) (len : ℤ) : ℤ := if len < f.spacing then i32 (f.spacing - len) else 0

end Field

/-! ### The session -/

section Session

variable {δ : Type}

/-- A change of the field. -/
def onField (h : Field → Field) : Run δ Unit :=
  modify fun pf => { pf with toField := h pf.toField }

/-- `va_arg` for a word. -/
def vaWord : Run δ ℤ := do
  let pf ← get
  match pf.ap with
  | .word w :: ap => do
      onField fun f => { f with ap := ap }
      pure w
  | _ => Routine.panic .args

/-- `va_arg` for a string. -/
def vaStr : Run δ (Option (List Char)) := do
  let pf ← get
  match pf.ap with
  | .str s :: ap => do
      onField fun f => { f with ap := ap }
      pure s
  | _ => Routine.panic .args

/-- `__pf_modifier`. -/
def modifier (ch : Char) : Run δ Unit := do
  assert (ch ∈ ['#', '-', 'l', 'q', '0'] ∨ '0'.toNat < ch.toNat ∧ ch.toNat ≤ '9'.toNat)
    .modifier
  onField (Field.modifier ch)

/-- `__pf_getnum`. -/
def getnum (ch : Char) : Run δ Unit := do
  let w ← vaWord
  onField (Field.getnum ch w)

/-- The digits of `__pf_printnum`. -/
def digits : List Char :=
  ['0', '1', '2', '3', '4', '5', '6', '7', '8', '9', 'a', 'b', 'c', 'd', 'e', 'f']

/-- `NUMBER_BUF_SIZE`. -/
def numberBufSize : ℕ := 4 * 8 / 3 + 2

/-- The loop of `__pf_printnum`: `room` is the number of bytes from the start of the buffer up to
`x`, and `text` is the string behind `x`.  `none` is an access outside of the buffer or of the
digits. -/
def convert (base : ℕ) : (room : ℕ) → (xnum : ℕ) → (text : List Char) → Option (List Char)
  | 0, _, _ => none
  | room + 1, xnum, text =>
    match digits[xnum % base]? with
    | none => none
    | some c =>
      if 0 < xnum / base then
        convert base room (xnum / base) (c :: text)
      else
        some (c :: text)

variable (send : List Char → Client δ Unit)

/-- `__pf_print`. -/
def print (txt : List Char) (len : ℕ) : Run δ Unit := do
  zoom PF.clientdata (fun d pf => { pf with clientdata := d }) (send (txt.take len))
  modify fun pf => { pf with charcount := i32 (pf.charcount + len) }

/-- The loop of `__pf_fill`. -/
def fillTimes (f : Char) : ℕ → Run δ Unit
  | 0 => pure ()
  | n + 1 => do
      print send [f] 1
      fillTimes f n

/-- `__pf_fill`. -/
def fill (spc : ℤ) : Run δ Unit := do
  let pf ← get
  fillTimes send pf.fillchar spc.toNat

/-- The padding is printed in one of three places. -/
def fillIf (here : Bool) (spc : ℤ) : Run δ Unit :=
  if 0 < spc ∧ here then fill send spc else pure ()

/-- `__pf_printstuff`. -/
def printstuff (pre pre2 stuff : List Char) : Run δ Unit := do
  let pf ← get
  let spc := pf.spc (i32 (strlen pre + strlen pre2 + strlen stuff : ℕ))
  fillIf send (!pf.rightspc && pf.fillchar != '0') spc
  print send pre (strlen pre)
  print send pre2 (strlen pre2)
  fillIf send (!pf.rightspc && pf.fillchar == '0') spc
  print send stuff (strlen stuff)
  fillIf send pf.rightspc spc

/-- `__pf_printnum`. -/
def printnum : Run δ Unit := do
  let pf ← get
  assert (pf.base ≠ 0) .divide
  match convert pf.base (numberBufSize - 1) pf.num [] with
  | none => Routine.panic .overrun
  | some x => printstuff send pf.signText pf.baseText x

/-- The branches of `__pf_send`. -/
def dispatch (inPct : Bool) (ch : Char) : Run δ Unit :=
  if inPct = false ∧ ch ≠ '%' then
    print send [ch] 1
  else if inPct = false then
    onField fun f => { f with inPct := true }
  else if ch ∈ modifiers then
    modifier ch
  else if ch ∈ integers then do
    getnum ch
    onField (Field.setbase ch)
    printnum send
    onField Field.endfield
  else if ch = 's' then do
    let str ← vaStr
    printstuff send [] [] (str.getD ['(', 'n', 'u', 'l', 'l', ')'])
    onField Field.endfield
  else if ch = 'c' then do
    let w ← vaWord
    printstuff send [] [] [Char.ofNat (toU32 w % 2 ^ 8)]
    onField Field.endfield
  else do
    -- `%%`, and the characters that are no type
    printstuff send [] [] [ch]
    onField Field.endfield

/-- `__pf_send`. -/
def pfSend (ch : Char) : Run δ Unit := do
  assert (ch ≠ nul) .nul
  let pf ← get
  dispatch send pf.inPct ch

/-- The loop of `__vprintf`. -/
def sendAll : List Char → Run δ Unit
  | [] => pure ()
  | ch :: fmt =>
    if ch = nul then
      pure ()
    else do
      pfSend send ch
      sendAll fmt

/-- The field at the start of a session. -/
def start (ap : List Arg) : Field :=
  Field.endfield ⟨ap, false, .intsz, 0, 0, 0, false, ' ', 0, false, false⟩

/-- `__vprintf`. -/
def vprintf (fmt : List Char) (ap : List Arg) : Client δ ℤ := fun d =>
  match sendAll send fmt ⟨start ap, d, 0⟩ with
  | .ok () pf => .ok pf.charcount pf.clientdata
  | .err e _ => nomatch e
  | .panic p => .panic p

end Session

/-! ### What is printed -/

/-- The kind of an argument. -/
inductive Kind where
  | word | str
  deriving DecidableEq, Repr

def Arg.kind : Arg → Kind
  | .word _ => .word
  | .str _ => .str

/-- The kinds of the arguments that a format asks for. -/
def kinds : (inPct : Bool) → List Char → List Kind
  | _, [] => []
  | inPct, ch :: fmt =>
    if ch = nul then []
    else if inPct = false ∧ ch ≠ '%' then kinds false fmt
    else if inPct = false then kinds true fmt
    else if ch ∈ modifiers then kinds true fmt
    else if ch ∈ integers then .word :: kinds false fmt
    else if ch = 's' then .str :: kinds false fmt
    else if ch = 'c' then .word :: kinds false fmt
    else kinds false fmt

/-- The arguments match the format. -/
def Matching (fmt : List Char) (ap : List Arg) : Prop := kinds false fmt <+: ap.map Arg.kind

instance (fmt : List Char) (ap : List Arg) : Decidable (Matching fmt ap) :=
  inferInstanceAs (Decidable (kinds false fmt <+: ap.map Arg.kind))

namespace Field

/-- The padding for a text of `len` characters. -/
def pad (f : Field) (len : ℕ) : List Char := List.replicate (f.spc (i32 len)).toNat f.fillchar

/-- A text in its field: the padding is to the right of it, between the prefixes and the rest, or
to the left of it. -/
def padded (f : Field) (pre stuff : List Char) : List Char :=
  if f.rightspc then pre ++ stuff ++ f.pad (pre.length + stuff.length)
  else if f.fillchar = '0' then pre ++ f.pad (pre.length + stuff.length) ++ stuff
  else f.pad (pre.length + stuff.length) ++ pre ++ stuff

/-- A number in its field. -/
def number (f : Field) : List Char :=
  f.padded (f.signText ++ f.baseText) (Nat.toDigits f.base f.num)

/-- What one character of the format prints, and the field after it. -/
def step (f : Field) (ch : Char) : List Char × Field :=
  if f.inPct = false ∧ ch ≠ '%' then ([ch], f)
  else if f.inPct = false then ([], { f with inPct := true })
  else if ch ∈ modifiers then ([], f.modifier ch)
  else if ch ∈ integers then
    match f.ap with
    | .word w :: ap =>
      ((({ f with ap := ap }.getnum ch w).setbase ch).number, endfield { f with ap := ap })
    | _ => ([], f)
  else if ch = 's' then
    match f.ap with
    | .str s :: ap =>
      (f.padded [] (cstr (s.getD ['(', 'n', 'u', 'l', 'l', ')'])), endfield { f with ap := ap })
    | _ => ([], f)
  else if ch = 'c' then
    match f.ap with
    | .word w :: ap =>
      (f.padded [] (cstr [Char.ofNat (toU32 w % 2 ^ 8)]), endfield { f with ap := ap })
    | _ => ([], f)
  else (f.padded [] [ch], f.endfield)

/-- What a format prints. -/
def text (f : Field) : List Char → List Char
  | [] => []
  | ch :: fmt => if ch = nul then [] else (f.step ch).1 ++ (f.step ch).2.text fmt

/-- The field after a format. -/
def after (f : Field) : List Char → Field
  | [] => f
  | ch :: fmt => if ch = nul then f else (f.step ch).2.after fmt

end Field

/-- What a format and its arguments stand for. -/
def text (fmt : List Char) (ap : List Arg) : List Char := (start ap).text fmt

/-! ### Strings and digits -/

theorem take_strlen (s : List Char) :
  s.take (strlen s) = cstr s
  := (List.prefix_iff_eq_take.mp (List.takeWhile_prefix _)).symm

theorem cstr_append {s s' : List Char} (h : ∀ c ∈ s, c ≠ nul) :
  cstr (s ++ s') = s ++ cstr s'
  := by
  apply List.takeWhile_append_of_pos
  intro c hc
  exact decide_eq_true (h c hc)

theorem cstr_eq_self {s : List Char} (h : ∀ c ∈ s, c ≠ nul) :
  cstr s = s
  := by
  have happend : cstr (s ++ []) = s ++ cstr [] := cstr_append h
  rw [List.append_nil] at happend
  exact happend.trans (List.append_nil s)

theorem cstr_signText (f : Field) :
  cstr f.signText = f.signText
  := by
  unfold Field.signText
  split
  · rfl
  · rfl

theorem cstr_baseText (f : Field) :
  cstr f.baseText = f.baseText
  := by
  unfold Field.baseText
  split
  · rfl
  · split
    · rfl
    · rfl

theorem digits_eq {i : ℕ} (h : i < 16) :
  digits[i]? = some i.digitChar
  := by
  revert i
  decide

/-- The digits of a number fit into the buffer if the number is small enough. -/
theorem convert_eq {base room xnum : ℕ} (hbase : 1 < base) (hdigits : base ≤ 16)
    (hroom : 0 < room) (h : xnum < base ^ room) (tail : List Char) :
  convert base room xnum tail = some (Nat.toDigits base xnum ++ tail)
  := by
  induction room generalizing xnum tail with
  | zero => exact absurd hroom (Nat.lt_irrefl 0)
  | succ room ih =>
    have hmod : xnum % base < base := Nat.mod_lt _ (Nat.zero_lt_of_lt hbase)
    rw [convert, digits_eq (Nat.lt_of_lt_of_le hmod hdigits)]
    dsimp only
    by_cases hmore : 0 < xnum / base
    · have hle : base ≤ xnum := (Nat.div_pos_iff.mp hmore).2
      have hlt : xnum / base < base ^ room := by
        apply Nat.div_lt_of_lt_mul
        rw [Nat.pow_succ, Nat.mul_comm] at h
        exact h
      have hroom' : 0 < room := by
        rcases Nat.eq_zero_or_pos room with rfl | hpos
        · rw [Nat.pow_zero] at hlt
          omega
        · exact hpos
      rw [if_pos hmore, ih hroom' hlt, Nat.toDigits_of_base_le hbase hle, List.append_assoc]
      rfl
    · have hlt : xnum < base := by
        rw [Nat.div_pos_iff] at hmore
        omega
      rw [if_neg hmore, Nat.mod_eq_of_lt hlt, Nat.toDigits_of_lt_base hlt]
      rfl

theorem mem_toDigits {base num : ℕ} {c : Char} (hbase : 1 < base) (h : c ∈ Nat.toDigits base num) :
  ∃ i < base, c = i.digitChar
  := by
  induction num using Nat.strong_induction_on with
  | _ num ih =>
    rcases Nat.lt_or_ge num base with hlt | hle
    · rw [Nat.toDigits_of_lt_base hlt, List.mem_singleton] at h
      exact ⟨num, hlt, h⟩
    · rw [Nat.toDigits_of_base_le hbase hle, List.mem_append, List.mem_singleton] at h
      rcases h with hfirst | hlast
      · exact ih (num / base) (Nat.div_lt_self (by omega) hbase) hfirst
      · exact ⟨num % base, Nat.mod_lt num (by omega), hlast⟩

theorem cstr_toDigits {base : ℕ} (hbase : 1 < base) (num : ℕ) :
  cstr (Nat.toDigits base num) = Nat.toDigits base num
  := by
  apply cstr_eq_self
  intro c hc
  obtain ⟨i, -, rfl⟩ := mem_toDigits hbase hc
  exact Nat.digitChar_ne nul (by decide)

/-- Every 32-bit number has at most eleven digits in base 8, and less in the others. -/
theorem convert_u32 {base num : ℕ} (hbase : base = 8 ∨ base = 10 ∨ base = 16)
    (hnum : num < 2 ^ 32) :
  convert base (numberBufSize - 1) num [] = some (Nat.toDigits base num)
  := by
  have hfits : num < base ^ (numberBufSize - 1) := by
    apply Nat.lt_of_lt_of_le hnum
    rcases hbase with rfl | rfl | rfl <;> decide
  rw [convert_eq (by omega) (by omega) (by decide) hfits, List.append_nil]

/-! ### Clients -/

section Clients

variable {δ α β : Type} {send : List Char → Client δ Unit} {Rel : List Char → δ → Prop}

/-- The data of the client stand for what has been sent. -/
def Accepts (send : List Char → Client δ Unit) (Rel : List Char → δ → Prop) : Prop :=
  ∀ acc d piece, Rel acc d →
    wp (send piece) d (fun _ d' => Rel (acc ++ piece) d')

/-- The session is at the field `f` and has printed `acc`. -/
structure At (Rel : List Char → δ → Prop) (f : Field) (acc : List Char) (pf : PF δ) : Prop where
  field : pf.toField = f
  charcount : pf.charcount = i32 acc.length
  client : Rel acc pf.clientdata

/-- At the field `f` the routine prints `out`, returns `a` and ends at the field `g`. -/
def Emits (Rel : List Char → δ → Prop) (m : Run δ α) (f : Field) (out : List Char) (a : α)
    (g : Field) : Prop :=
  ∀ acc pf, At Rel f acc pf →
    wp m pf (fun a' pf' => a' = a ∧ At Rel g (acc ++ out) pf')

namespace Emits

variable {f g h : Field} {out out' : List Char} {a : α} {b : β}

/-- The texts of two routines follow each other. -/
theorem bind (hm : Emits Rel m f out a g) (hk : Emits Rel (k a) g out' b h) :
  Emits Rel (m >>= k) f (out ++ out') b h
  := by
  intro acc pf hat
  rw [wp_bind]
  apply wp_imp (hm acc pf hat)
  rintro _ pf' ⟨rfl, hat'⟩
  rw [← List.append_assoc]
  exact hk _ pf' hat'

/-- A routine that prints nothing is followed by another. -/
theorem silent (hm : Emits Rel m f [] a g) (hk : Emits Rel (k a) g out b h) :
  Emits Rel (m >>= k) f out b h
  := bind hm hk

theorem pure (a : α) :
  Emits Rel (Pure.pure a : Run δ α) f [] a f
  := by
  intro acc pf hat
  rw [wp_pure, List.append_nil]
  exact ⟨rfl, hat⟩

/-- The field is read. -/
theorem get_bind (hk : ∀ pf, pf.toField = f → Emits Rel (k pf) f out a g) :
  Emits Rel (get >>= k) f out a g
  := by
  intro acc pf hat
  rw [wp_bind, wp_get]
  exact hk pf hat.field acc pf hat

theorem assert_bind {c : Prop} [Decidable c] {p : Panic} (hc : c)
    (hk : Emits Rel (k ()) f out a g) :
  Emits Rel (assert c p >>= k) f out a g
  := by
  intro acc pf hat
  rw [wp_bind, wp_assert]
  exact ⟨hc, hk acc pf hat⟩

theorem onField (h : Field → Field) :
  Emits Rel (onField h : Run δ Unit) f [] () (h f)
  := by
  intro acc pf hat
  rw [Printf.onField, wp_modify, List.append_nil]
  exact ⟨rfl, congrArg h hat.field, hat.charcount, hat.client⟩

end Emits

variable {f : Field} {ap : List Arg}

theorem vaWord_emits {w : ℤ} (h : f.ap = .word w :: ap) :
  Emits Rel (vaWord : Run δ ℤ) f [] w { f with ap := ap }
  := by
  apply Emits.get_bind
  rintro pf rfl
  rw [h]
  apply Emits.silent (Emits.onField _)
  exact Emits.pure w

theorem vaStr_emits {s : Option (List Char)} (h : f.ap = .str s :: ap) :
  Emits Rel (vaStr : Run δ (Option (List Char))) f [] s { f with ap := ap }
  := by
  apply Emits.get_bind
  rintro pf rfl
  rw [h]
  apply Emits.silent (Emits.onField _)
  exact Emits.pure s

variable {ch : Char}

/-- The digits are the other modifiers. -/
theorem modifier_emits (h : ch ∈ modifiers) :
  Emits Rel (modifier ch : Run δ Unit) f [] () (f.modifier ch)
  := by
  have hall : ∀ c ∈ modifiers, c ∈ ['#', '-', 'l', 'q', '0']
      ∨ '0'.toNat < c.toNat ∧ c.toNat ≤ '9'.toNat := forall_mem_of_all (by decide)
  apply Emits.assert_bind
  · exact hall ch h
  · exact Emits.onField _

section

variable (hsend : Accepts send Rel)
include hsend

theorem print_emits (txt : List Char) (len : ℕ) (hlen : len ≤ txt.length) :
  Emits Rel (print send txt len) f (txt.take len) () f
  := by
  intro acc pf hat
  rw [print, wp_bind, wp_zoom]
  apply wp_imp (hsend acc _ (txt.take len) hat.client)
  intro _ d hd
  rw [wp_modify]
  refine ⟨rfl, hat.field, ?_, hd⟩
  rw [hat.charcount, i32_add, List.length_append, List.length_take, Nat.min_eq_left hlen]
  push_cast
  rfl

theorem print_strlen_emits (txt : List Char) :
  Emits Rel (print send txt (strlen txt)) f (cstr txt) () f
  := by
  have hlen : strlen txt ≤ txt.length := (List.takeWhile_prefix _).length_le
  have hprint := print_emits (f := f) hsend txt (strlen txt) hlen
  rwa [take_strlen] at hprint

theorem fillTimes_emits (c : Char) (n : ℕ) :
  Emits Rel (fillTimes send c n) f (List.replicate n c) () f
  := by
  induction n with
  | zero => exact Emits.pure ()
  | succ n ih =>
    have hprint := print_emits (f := f) hsend [c] 1 (Nat.le_refl 1)
    exact Emits.bind hprint ih

theorem fill_emits (spc : ℤ) :
  Emits Rel (fill send spc) f (List.replicate spc.toNat f.fillchar) () f
  := by
  apply Emits.get_bind
  rintro pf rfl
  exact fillTimes_emits hsend _ _

theorem fillIf_emits (here : Bool) (spc : ℤ) :
  Emits Rel (fillIf send here spc) f
    (if here then List.replicate spc.toNat f.fillchar else []) () f
  := by
  rw [fillIf]
  by_cases hpos : 0 < spc
  · cases here with
    | true =>
      rw [if_pos ⟨hpos, rfl⟩]
      exact fill_emits hsend spc
    | false =>
      rw [if_neg (by simp)]
      exact Emits.pure ()
  · have hzero : spc.toNat = 0 := Int.toNat_of_nonpos (Int.not_lt.mp hpos)
    rw [if_neg (fun h => hpos h.1), hzero, List.replicate_zero, ite_self]
    exact Emits.pure ()

end

/-- The text of `__pf_printstuff`, in the order of its branches. -/
theorem padded_eq (f : Field) (pre pre2 stuff : List Char) :
  let pad := f.pad (pre.length + pre2.length + stuff.length)
  (if !f.rightspc && f.fillchar != '0' then pad else [])
      ++ (pre ++ (pre2 ++ ((if !f.rightspc && f.fillchar == '0' then pad else [])
        ++ (stuff ++ if f.rightspc then pad else []))))
    = f.padded (pre ++ pre2) stuff
  := by
  intro pad
  have hpad : f.pad ((pre ++ pre2).length + stuff.length) = pad := by
    rw [List.length_append]
  rw [Field.padded, hpad]
  cases hright : f.rightspc with
  | true => simp
  | false =>
    by_cases hzero : f.fillchar = '0'
    · simp [hzero]
    · simp [hzero]

theorem printstuff_emits (hsend : Accepts send Rel) (pre pre2 stuff : List Char) :
  Emits Rel (printstuff send pre pre2 stuff) f (f.padded (cstr pre ++ cstr pre2) (cstr stuff)) () f
  := by
  apply Emits.get_bind
  rintro pf rfl
  rw [← padded_eq]
  apply Emits.bind (fillIf_emits hsend _ _)
  apply Emits.bind (print_strlen_emits hsend pre)
  apply Emits.bind (print_strlen_emits hsend pre2)
  apply Emits.bind (fillIf_emits hsend _ _)
  apply Emits.bind (print_strlen_emits hsend stuff)
  exact fillIf_emits hsend _ _

theorem printnum_emits (hsend : Accepts send Rel)
    (hbase : f.base = 8 ∨ f.base = 10 ∨ f.base = 16) (hnum : f.num < 2 ^ 32) :
  Emits Rel (printnum send) f f.number () f
  := by
  apply Emits.get_bind
  rintro pf rfl
  apply Emits.assert_bind (by omega)
  rw [convert_u32 hbase hnum]
  have hprint := printstuff_emits (f := pf.toField) hsend pf.signText pf.baseText
    (Nat.toDigits pf.base pf.num)
  rw [cstr_signText, cstr_baseText, cstr_toDigits (by omega)] at hprint
  exact hprint

/-! ### The session -/

theorem baseOf_eq (h : ch ∈ integers) (f : Field) :
  f.baseOf ch = 8 ∨ f.baseOf ch = 10 ∨ f.baseOf ch = 16
  := by
  simp only [integers, List.mem_cons, List.not_mem_nil, or_false] at h
  rcases h with rfl | rfl | rfl | rfl | rfl
  all_goals simp [Field.baseOf]

theorem getnum_num_lt (ch : Char) (w : ℤ) (f : Field) :
  (f.getnum ch w).num < 2 ^ 32
  := by
  have hunsigned : f.size.unsigned w < 2 ^ 32 := by
    cases f.size with
    | intsz | longsz => exact toU32_lt w
  unfold Field.getnum
  split
  · exact toU32_lt w
  · split
    · split <;> exact toU32_lt _
    · exact hunsigned

theorem modifier_inPct (ch : Char) (f : Field) :
  (f.modifier ch).inPct = f.inPct ∧ (f.modifier ch).ap = f.ap
  := by
  unfold Field.modifier
  repeat' split
  all_goals exact ⟨rfl, rfl⟩

theorem exists_word {ks : List Kind} (h : .word :: ks <+: ap.map Arg.kind) :
  ∃ w ap', ap = .word w :: ap' ∧ ks <+: ap'.map Arg.kind
  := by
  cases ap with
  | nil => simp at h
  | cons a ap =>
    rw [List.map_cons, List.cons_prefix_cons] at h
    cases a with
    | word w => exact ⟨w, ap, rfl, h.2⟩
    | str s => nomatch h.1

theorem exists_str {ks : List Kind} (h : .str :: ks <+: ap.map Arg.kind) :
  ∃ s ap', ap = .str s :: ap' ∧ ks <+: ap'.map Arg.kind
  := by
  cases ap with
  | nil => simp at h
  | cons a ap =>
    rw [List.map_cons, List.cons_prefix_cons] at h
    cases a with
    | word w => nomatch h.1
    | str s => exact ⟨s, ap, rfl, h.2⟩

variable (hsend : Accepts send Rel)
include hsend

theorem integer_emits (hch : ch ∈ integers) {w : ℤ} (hap : f.ap = .word w :: ap) :
  Emits Rel (getnum ch >>= fun _ => onField (Field.setbase ch) >>= fun _ =>
    printnum send >>= fun _ => onField Field.endfield)
    f (({ f with ap := ap }.getnum ch w).setbase ch).number () (Field.endfield { f with ap := ap })
  := by
  have hnum := getnum_num_lt ch w { f with ap := ap }
  have hap' : (Field.getnum ch w { f with ap := ap }).ap = ap := by
    unfold Field.getnum
    repeat' split
    all_goals rfl
  have hend : Field.endfield (Field.setbase ch (Field.getnum ch w { f with ap := ap }))
      = Field.endfield { f with ap := ap } := by
    simp only [Field.endfield, Field.setbase, hap']
  rw [← hend, ← List.append_nil (Field.number _)]
  apply Emits.silent
  · apply Emits.silent (vaWord_emits hap)
    exact Emits.onField _
  · apply Emits.silent (Emits.onField _)
    apply Emits.bind
    · exact printnum_emits hsend (baseOf_eq hch _) hnum
    · exact Emits.onField _

/-- A text is printed and the field ends. -/
theorem stuff_emits (stuff : List Char) :
  Emits Rel (printstuff send [] [] stuff >>= fun _ => onField Field.endfield) f
    (f.padded [] (cstr stuff)) () f.endfield
  := by
  rw [← List.append_nil (Field.padded _ _ _)]
  apply Emits.bind (printstuff_emits hsend [] [] stuff)
  exact Emits.onField _

variable {fmt : List Char}

/-- A character is sent, with the arguments that it asks for. -/
theorem dispatch_emits (hnul : ch ≠ nul)
    (hkinds : kinds f.inPct (ch :: fmt) <+: f.ap.map Arg.kind) :
  Emits Rel (dispatch send f.inPct ch) f (f.step ch).1 () (f.step ch).2
    ∧ kinds (f.step ch).2.inPct fmt <+: (f.step ch).2.ap.map Arg.kind
  := by
  rw [kinds, if_neg hnul] at hkinds
  rw [dispatch, Field.step]
  by_cases hplain : f.inPct = false ∧ ch ≠ '%'
  · simp only [if_pos hplain] at hkinds ⊢
    rw [hplain.1]
    exact ⟨print_emits hsend [ch] 1 (Nat.le_refl 1), hkinds⟩
  simp only [if_neg hplain] at hkinds ⊢
  by_cases hpct : f.inPct = false
  · simp only [if_pos hpct] at hkinds ⊢
    exact ⟨Emits.onField _, hkinds⟩
  simp only [if_neg hpct] at hkinds ⊢
  by_cases hmodifier : ch ∈ modifiers
  · simp only [if_pos hmodifier] at hkinds ⊢
    rw [(modifier_inPct ch f).1, (modifier_inPct ch f).2, Bool.of_not_eq_false hpct]
    exact ⟨modifier_emits hmodifier, hkinds⟩
  simp only [if_neg hmodifier] at hkinds ⊢
  by_cases hinteger : ch ∈ integers
  · simp only [if_pos hinteger] at hkinds ⊢
    obtain ⟨w, ap, hap, hrest⟩ := exists_word hkinds
    simp only [hap]
    exact ⟨integer_emits hsend hinteger hap, hrest⟩
  simp only [if_neg hinteger] at hkinds ⊢
  by_cases hstr : ch = 's'
  · simp only [if_pos hstr] at hkinds ⊢
    obtain ⟨s, ap, hap, hrest⟩ := exists_str hkinds
    simp only [hap]
    exact ⟨Emits.silent (vaStr_emits hap) (stuff_emits hsend _), hrest⟩
  simp only [if_neg hstr] at hkinds ⊢
  by_cases hchar : ch = 'c'
  · simp only [if_pos hchar] at hkinds ⊢
    obtain ⟨w, ap, hap, hrest⟩ := exists_word hkinds
    simp only [hap]
    exact ⟨Emits.silent (vaWord_emits hap) (stuff_emits hsend _), hrest⟩
  · simp only [if_neg hchar] at hkinds ⊢
    have hcstr : cstr [ch] = [ch] := cstr_eq_self (by simpa using hnul)
    have hstuff := stuff_emits (f := f) hsend [ch]
    rw [hcstr] at hstuff
    exact ⟨hstuff, hkinds⟩

/-- A format is interpreted. -/
theorem sendAll_emits (hkinds : kinds f.inPct fmt <+: f.ap.map Arg.kind) :
  Emits Rel (sendAll send fmt) f (f.text fmt) () (f.after fmt)
  := by
  induction fmt generalizing f with
  | nil => exact Emits.pure ()
  | cons ch fmt ih =>
    rw [sendAll, Field.text, Field.after]
    by_cases hnul : ch = nul
    · simp only [if_pos hnul]
      exact Emits.pure ()
    · simp only [if_neg hnul]
      obtain ⟨hdispatch, hrest⟩ := dispatch_emits hsend hnul hkinds
      have hfirst : Emits Rel (pfSend send ch) f (f.step ch).1 () (f.step ch).2 := by
        apply Emits.assert_bind hnul
        apply Emits.get_bind
        rintro pf rfl
        exact hdispatch
      exact Emits.bind hfirst (ih hrest)

/-- If the arguments match the format, the client gets the text that they stand for, and the
session returns its length. -/
theorem vprintf_spec {d : δ} (hmatch : Matching fmt ap) (hd : Rel [] d) :
  ∃ d', vprintf send fmt ap d = .ok (i32 (text fmt ap).length) d' ∧ Rel (text fmt ap) d'
  := by
  have hat : At Rel (start ap) [] ⟨start ap, d, 0⟩ := ⟨rfl, rfl, hd⟩
  have hkinds : kinds (start ap).inPct fmt <+: (start ap).ap.map Arg.kind := hmatch
  obtain ⟨⟨⟩, pf, hrun, -, hat'⟩ := exists_ok (sendAll_emits hsend hkinds [] _ hat)
  rw [List.nil_append] at hat'
  use pf.clientdata
  constructor
  · rw [vprintf, hrun]
    exact congrArg (fun n => Outcome.ok n pf.clientdata) hat'.charcount
  · exact hat'.client

end Clients

/-! ### The text -/

/-- A client that records what it gets. -/
def record (piece : List Char) : Client (List Char) Unit := modify fun acc => acc ++ piece

theorem record_accepts :
  Accepts record (fun acc d => d = acc)
  := by
  rintro acc _ piece rfl
  rw [record, wp_modify]

/-- The concatenation of what is sent. -/
theorem vprintf_record {fmt : List Char} {ap : List Arg} (hmatch : Matching fmt ap) :
  vprintf record fmt ap [] = .ok (i32 (text fmt ap).length) (text fmt ap)
  := by
  obtain ⟨d, hrun, rfl⟩ := vprintf_spec record_accepts hmatch rfl
  exact hrun

end Printf
