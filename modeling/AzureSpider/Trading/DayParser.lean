import Mathlib.Algebra.Ring.Int.Defs
import Mathlib.Data.List.Chain
import Mathlib.Data.List.DropRight
import AzureSpider.Lib.Machine

/-!
# The import of the price history

`DayParser.populateTable` stores a row for each line of a file of prices, with the return
since the line before.  A text is a list of characters, a price a `double` of which only the
operations below are known.  A line is missing where reading the file or writing to the
database fails at it.
-/

namespace DayParser

open Machine

/-- What the import does with numbers; `setScale` is `BigDecimal`'s, `none` its
`NumberFormatException`. -/
structure Arith (α : Type) where
  parseDouble : List Char → Option α
  div : α → α → α
  log : α → α
  setScale : ℕ → α → Option α

/-- The fields of a line, prices divided by the weight and rounded. -/
structure Row (α : Type) where
  (symbol date exchange : List Char)
  (opening high low close amount volume weight : α)

/-- A row of `STOCK_PRICE`. -/
structure Stored (α : Type) extends Row α where
  uid : ℤ
  ret : α

variable {α : Type} [Zero α] [DecidableEq α] (A : Arith α)

/-- `line.trim().split(",")`, which drops the empty fields at the end. -/
def fields (line : List Char) : List (List Char) :=
  (((line.dropWhile (· ≤ ' ')).rdropWhile (· ≤ ' ')).splitOn ',').rdropWhile (·.isEmpty)

/-- A price of the file, divided by the weight and rounded to two digits. -/
def Arith.price (weight : α) (text : List Char) : Option α := do
  A.setScale 2 (A.div (← A.parseDouble text) weight)

/-- The row of a line: `some none` if it is skipped, `none` if an exception is thrown. -/
def readRow : List (List Char) → Option (Option (Row α))
  | symbol :: date :: opening :: high :: close :: low :: amount :: volume :: weight :: _ => do
      let weight ← A.parseDouble weight
      let opening ← A.price weight opening
      let high ← A.price weight high
      let low ← A.price weight low
      let close ← A.price weight close
      let amount ← A.parseDouble amount
      let volume ← A.parseDouble volume
      -- `substring` with a negative index
      guard (2 ≤ symbol.length)
      let exchange := symbol.drop (symbol.length - 2)
      pure (some { symbol, date, opening, high, low, close, amount, volume, exchange, weight })
  | _ => some none

/-- The return of a close after the previous price, `0` if there is none. -/
def ret (prevPrice close : α) : Option α :=
  if prevPrice = 0 then some 0 else A.setScale 4 (A.log (A.div close prevPrice))

/-- The variables of the loop, the rows of the batch and those committed, the last one first. -/
structure Import (α : Type) where
  uid : ℤ
  prevPrice : α
  batch : List (Stored α)
  table : List (Stored α)

/-- A row is added to the batch, which is committed at every 500000th. -/
def Import.add (s : Import α) (row : Row α) (r : α) : Import α :=
  let uid := i32 (s.uid + 1)
  let batch := { row with uid, ret := r } :: s.batch
  if uid % 500000 = 0 then ⟨uid, row.close, [], batch ++ s.table⟩
  else ⟨uid, row.close, batch, s.table⟩

/-- `populateTable`, from the loop on: whether it came to the end of the file, and the rows
it committed. -/
def populateTable : List (Option (List Char)) → Import α → Bool × List (Stored α)
  | [], s => (true, s.batch ++ s.table)
  | none :: _, s => (false, s.table)
  | some line :: rest, s =>
    match readRow A (fields line) with
    | none => (false, s.table)
    | some none => populateTable rest s
    | some (some row) =>
      match ret A s.prevPrice row.close with
      | none => (false, s.table)
      | some r => populateTable rest (s.add row r)

/-- The import of a file, into a table whose largest `Uid` is given. -/
def stored (uid : ℤ) (lines : List (Option (List Char))) : Bool × List (Stored α) :=
  populateTable A lines ⟨uid, 0, [], []⟩

/-- The valid rows of a file, up to the first line at which an exception is thrown. -/
def rows : List (Option (List Char)) → List (Row α)
  | [] => []
  | none :: _ => []
  | some line :: rest =>
    match readRow A (fields line) with
    | none => []
    | some none => rows rest
    | some (some row) => row :: rows rest

/-- The rows of a symbol follow each other. -/
def Grouped (t : List (Row α)) : Prop :=
  ∀ x y, [x, y, x].Sublist (t.map Row.symbol) → x = y

/-- Each return is computed from the closes of a row and of the one of those before it that
`before` gives, `0` if there is none. -/
def Returns (before : List Char → List (Stored α) → Option (Stored α)) : List (Stored α) → Prop
  | [] => True
  | r :: t => some r.ret = ret A ((before r.symbol t).elim 0 (·.close)) r.close ∧ Returns before t

instance decidableReturns (before) : (t : List (Stored α)) → Decidable (Returns A before t)
  | [] => .isTrue trivial
  | _ :: t => have := decidableReturns before t; inferInstanceAs (Decidable (_ ∧ _))

/-- The returns since the row before. -/
abbrev Successive : List (Stored α) → Prop := Returns A fun _ t => t.head?

/-- The returns since the row before of the same symbol. -/
abbrev OwnReturns : List (Stored α) → Prop := Returns A fun symbol t => t.find? (·.symbol = symbol)

/-- Where the symbol changes, the return since the row before is `0` as well. -/
def Harmless (r r' : Row α) : Prop :=
  r.symbol ≠ r'.symbol → ret A r.close r'.close = some 0

variable {A}

/-- In the first row of its symbol, and only there, the return since the row before may be a
wrong one. -/
theorem Successive.own_iff {t : List (Stored α)} (h : Successive A t)
    (hgroup : Grouped (t.map Stored.toRow)) :
  OwnReturns A t ↔ (t.map Stored.toRow).reverse.IsChain (Harmless A)
  := by
  rw [List.isChain_reverse, List.isChain_map]
  induction t with
  | nil => simp [Returns]
  | cons r t ih =>
    obtain ⟨hret, ht⟩ := h
    have hrest := ih ht fun x y hxy => hgroup x y (hxy.cons _)
    simp only [OwnReturns, Returns, List.isChain_cons, hret, ← hrest]
    refine and_congr_left fun _ => ?_
    cases t with
    | nil => simp
    | cons r' t =>
      by_cases hsymbol : r'.symbol = r.symbol
      · simp [hsymbol, Harmless]
      · have hnone : t.find? (·.symbol = r.symbol) = none := by
          rw [List.find?_eq_none]
          intro r'' hmem heq
          have hlater : r.symbol ∈ (t.map Stored.toRow).map Row.symbol := by
            simpa using ⟨r'', hmem, of_decide_eq_true heq⟩
          have hsub := ((List.singleton_sublist.mpr hlater).cons_cons r'.symbol).cons_cons r.symbol
          exact hsymbol (hgroup _ _ hsub).symm
        have hzero : ret A 0 r.close = some 0 := if_pos rfl
        simp [hsymbol, Harmless, hnone, hzero]

/-- The own returns of a symbol are the returns of its successive rows. -/
theorem Returns.successive {t : List (Stored α)} (h : OwnReturns A t) (symbol : List Char) :
  Successive A (t.filter (·.symbol = symbol))
  := by
  induction t with
  | nil => trivial
  | cons r t ih =>
    by_cases hsymbol : r.symbol = symbol
    · rw [List.filter_cons_of_pos (by simpa using hsymbol)]
      refine ⟨?_, ih h.2⟩
      simp only [List.head?_filter, ← hsymbol]
      exact h.1
    · rw [List.filter_cons_of_neg (by simpa using hsymbol)]
      exact ih h.2

/-- The returns of successive rows depend on the rows only. -/
theorem Successive.ret_eq {t t' : List (Stored α)} (h : Successive A t) (h' : Successive A t')
    (hrows : t.map Stored.toRow = t'.map Stored.toRow) :
  t.map Stored.ret = t'.map Stored.ret
  := by
  induction t generalizing t' with
  | nil =>
    rw [List.map_eq_nil_iff.mp hrows.symm]
  | cons r t ih =>
    obtain ⟨r', t', rfl, hrow, hrest⟩ := List.map_eq_cons_iff.mp hrows.symm
    have hclose : ∀ t : List (Stored α), t.head?.elim 0 (·.close)
        = (t.map Stored.toRow).head?.elim 0 Row.close := by
      intro t
      cases t <;> rfl
    have hret : some r.ret = some r'.ret := by
      rw [h.1, h'.1, hclose t, hclose t', hrest, hrow]
    rw [List.map_cons, List.map_cons, ih h.2 h'.2 hrest.symm, Option.some.inj hret]

/-- The rows of the batch have the returns of successive rows, and so have those committed. -/
structure Import.Ok (A : Arith α) (s : Import α) : Prop where
  table : Successive A s.table
  all : Successive A (s.batch ++ s.table)
  prevPrice : s.prevPrice = (s.batch ++ s.table).head?.elim 0 (·.close)

theorem Import.Ok.add {s : Import α} (h : s.Ok A) {row : Row α} {r : α}
    (hret : ret A s.prevPrice row.close = some r) :
  (s.add row r).Ok A ∧ (s.add row r).batch ++ (s.add row r).table =
    { row with uid := i32 (s.uid + 1), ret := r } :: (s.batch ++ s.table)
  := by
  have hall := And.intro (hret.symm.trans (by rw [h.prevPrice])) h.all
  simp only [Import.add]
  split
  · exact ⟨⟨hall, hall, rfl⟩, rfl⟩
  · exact ⟨⟨h.table, hall, rfl⟩, rfl⟩

/-- The loop stores a part of the valid rows, all of them if it comes to the end of the file,
with the returns of successive rows. -/
theorem Import.Ok.run {s : Import α} (h : s.Ok A) (lines : List (Option (List Char))) :
  let t := populateTable A lines s
  let all := ((s.batch ++ s.table).map Stored.toRow).reverse ++ rows A lines
  Successive A t.2 ∧ (t.2.map Stored.toRow).reverse <+: all ∧
    (t.1 → (t.2.map Stored.toRow).reverse = all)
  := by
  fun_induction populateTable A lines s with
  | case1 => exact ⟨h.all, by simp [rows]⟩
  | case2 | case3 | case5 => exact ⟨h.table, by simp⟩
  | case4 line rest s hrow ih =>
    rw [rows, hrow]
    exact ih h
  | case6 line rest s row hrow r hret ih =>
    obtain ⟨hok, hadd⟩ := h.add hret
    rw [rows, hrow]
    simpa [hadd] using ih hok

/-- The returns stored from a file whose rows are grouped by symbol are those of the own symbols
exactly if the changes of symbol among its rows are harmless, as far as they are stored.  If they
are, in this file and in another one, the returns of a symbol depend on its own rows only. -/
theorem ownReturns_iff (A : Arith α) (uid : ℤ) (lines : List (Option (List Char)))
    (hgroup : Grouped (rows A lines)) :
  ((stored A uid lines).2.map Stored.toRow).reverse <+: rows A lines
    ∧ ((stored A uid lines).1 → ((stored A uid lines).2.map Stored.toRow).reverse = rows A lines)
    ∧ (OwnReturns A (stored A uid lines).2
      ↔ ((rows A lines).take (stored A uid lines).2.length).IsChain (Harmless A))
    ∧ (OwnReturns A (stored A uid lines).2 → ∀ uid' lines', OwnReturns A (stored A uid' lines').2 →
      ∀ symbol, ((stored A uid lines).2.filter (·.symbol = symbol)).map Stored.toRow
        = ((stored A uid' lines').2.filter (·.symbol = symbol)).map Stored.toRow →
      ((stored A uid lines).2.filter (·.symbol = symbol)).map Stored.ret
        = ((stored A uid' lines').2.filter (·.symbol = symbol)).map Stored.ret)
  := by
  have hstart : Import.Ok A ⟨uid, 0, [], []⟩ := ⟨trivial, trivial, rfl⟩
  obtain ⟨hsuccessive, hrows, hdone⟩ := hstart.run lines
  refine ⟨hrows, hdone, ?_, ?_⟩
  · have htake : _ = (rows A lines).take _ := List.prefix_iff_eq_take.mp hrows
    rw [List.length_reverse, List.length_map] at htake
    rw [stored, ← htake]
    apply hsuccessive.own_iff
    intro x y hxy
    apply hgroup x y
    exact (List.reverse_sublist.mpr hxy).trans (List.map_reverse ▸ hrows.sublist.map Row.symbol)
  · intro hown uid' lines' hown' symbol
    exact Successive.ret_eq (hown.successive symbol) (hown'.successive symbol)

/-- Numbers with four digits after the point; the only logarithm asked for is that of `2`. -/
def fourDigits : Arith ℤ where
  parseDouble text := some (10000 * text.foldl (fun n c => 10 * n + (c.toNat - 48 : ℤ)) 0)
  div a b := a * 10000 / b
  log ratio := if ratio = 20000 then 6931 else 0
  setScale digits a := some (if digits = 2 then (a + 50) / 100 * 100 else a)

/-- A row of one symbol that closes at 10 and a row of another. -/
def twoDays (close : String) : List (Option (List Char)) :=
  [some "600001.sh,20090722,10,10,10,10,1,1,1".toList,
    some ("600002.sh,20090722,10,10,".toList ++ close.toList ++ ",10,1,1,1".toList)]

theorem grouped_of_length_le {t : List (Row ℤ)} (h : t.length ≤ 2) : Grouped t := by
  intro x y hxy
  have := hxy.length_le
  simp at this
  omega

theorem ownReturns_equal :
  OwnReturns fourDigits (stored fourDigits 0 (twoDays "10")).2
  := by
  apply (ownReturns_iff fourDigits 0 (twoDays "10") (grouped_of_length_le ?_)).2.2.1.mpr
  · unfold Harmless
    decide +kernel
  · decide +kernel

theorem not_ownReturns_change :
  Grouped (rows fourDigits (twoDays "20")) ∧
    ¬ OwnReturns fourDigits (stored fourDigits 0 (twoDays "20")).2
  := by
  exact ⟨grouped_of_length_le (by decide +kernel), by decide +kernel⟩

end DayParser
