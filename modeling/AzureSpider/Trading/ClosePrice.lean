import Mathlib.Data.Char
import Mathlib.Data.Set.Finite.Lemmas
import Mathlib.Data.Set.Finite.List

/-!
# Close prices

`getClosePrice` of `Stock.java`: the price of the date asked for or, if there is none, of the
trading dates before it, one after the other.  A trading date is one of the index `SZZS`.  Dates
are texts of eight digits, in the order the database compares texts in; symbols have no quote, so
that a query asks for the symbol it is given.

Before the first trading date there is none, and the missing date stands in the next query as the
text `null`, which is after all dates: the search goes on from the latest trading date.
-/

namespace Stock

/-! ### The table -/

/-- The text of a date. -/
abbrev Day : Type := { t : List Char // t.length = 8 ∧ ∀ c ∈ t, c.isDigit }

variable {P : Type}

/-- A row of the table `STOCK_PRICE`. -/
structure Row (P : Type) where
  symbol : String
  date : Day
  closePrice : P
  deriving DecidableEq

/-- The table, with one row for a symbol and a date at most. -/
structure PriceTable (P : Type) where
  rows : List (Row P)
  unique : ∀ r ∈ rows, ∀ q ∈ rows, r.symbol = q.symbol → r.date = q.date → r = q

/-- The index whose trading dates count. -/
def szzs : String := "000001.sh"

/-- A date as it stands in a query. -/
def spliced : Option Day → List Char
  | some d => d.1
  | none => ['n', 'u', 'l', 'l']

/-- The rows of a query are read one after the other, and the last one counts. -/
def PriceTable.select (tbl : PriceTable P) (p : Row P → Bool) : Option (Row P) :=
  (tbl.rows.filter p).getLast?

/-- `getStock`. -/
def getStock (tbl : PriceTable P) (symbol : String) (date : Option Day) : Option (Row P) :=
  tbl.select fun r => r.symbol = symbol ∧ r.date.1 = spliced date

/-- `previousStock`. -/
def previousStock (tbl : PriceTable P) (symbol : String) (date : Option Day) : Option (Row P) :=
  let earlier := tbl.rows.filter fun r => r.symbol = symbol ∧ r.date.1 < spliced date
  (earlier.map Row.date).max?.bind fun d => tbl.select fun r => r.symbol = symbol ∧ r.date = d

/-- `previousTradeDate`. -/
def previousTradeDate (tbl : PriceTable P) (date : Option Day) : Option Day :=
  (previousStock tbl szzs date).map Row.date

/-- The loop of `getClosePrice`, which is left with a row; nothing after `n` rounds. -/
def closeRow (tbl : PriceTable P) (symbol : String) : ℕ → Option Day → Option (Row P)
  | 0, _ => none
  | n + 1, date =>
    match getStock tbl symbol date with
    | some r => some r
    | none => closeRow tbl symbol n (previousTradeDate tbl date)

/-- `getClosePrice`. -/
def getClosePrice (tbl : PriceTable P) (symbol : String) (date : Day) (n : ℕ) : Option P :=
  (closeRow tbl symbol n (some date)).map Row.closePrice

/-! ### What it should return -/

/-- The index has a row of the date. -/
def IsTradeDate (tbl : PriceTable P) (d : Day) : Prop :=
  ∃ q ∈ tbl.rows, q.symbol = szzs ∧ q.date = d

/-- A row of the symbol, of the date or of a trading date before it. -/
structure Listed (tbl : PriceTable P) (symbol : String) (date : Day) (r : Row P) : Prop where
  mem : r ∈ tbl.rows
  symbol_eq : r.symbol = symbol
  le : r.date ≤ date
  trade : r.date = date ∨ IsTradeDate tbl r.date

/-- The last one of these rows. -/
structure Latest (tbl : PriceTable P) (symbol : String) (date : Day) (r : Row P) : Prop
    extends Listed tbl symbol date r where
  max : ∀ q, Listed tbl symbol date q → q.date ≤ r.date

/-- The price returned is the latest one, none is of a later date, and the search ends; there is
no way out of the loop with an exception or an error value. -/
structure Finds (tbl : PriceTable P) (symbol : String) (date : Day) : Prop where
  latest : ∀ r, Latest tbl symbol date r →
    ∃ n, getClosePrice tbl symbol date n = some r.closePrice
  past : ∀ n r, closeRow tbl symbol n (some date) = some r → r.date ≤ date
  ends : ∃ n, closeRow tbl symbol n (some date) ≠ none

/-! ### The queries -/

variable {tbl : PriceTable P} {symbol : String} {date : Option Day} {d : Day} {r q : Row P} {n : ℕ}

theorem PriceTable.select_eq_none {p : Row P → Bool} :
  tbl.select p = none ↔ ∀ r ∈ tbl.rows, ¬ p r
  := by
  rw [select, List.getLast?_eq_none_iff, List.filter_eq_nil_iff]

theorem PriceTable.of_select {p : Row P → Bool} (h : tbl.select p = some r) :
  r ∈ tbl.rows ∧ p r
  := List.mem_filter.mp (List.mem_of_getLast? h)

/-- A row that is found is of the date, which is not missing. -/
theorem getStock_eq_some (h : getStock tbl symbol date = some r) :
  r ∈ tbl.rows ∧ r.symbol = symbol ∧ date = some r.date
  := by
  obtain ⟨hr, hp⟩ := PriceTable.of_select h
  obtain ⟨hsymbol, hdate⟩ := of_decide_eq_true hp
  refine ⟨hr, hsymbol, ?_⟩
  cases date with
  | none =>
    have hlen := r.date.2.1
    rw [hdate] at hlen
    exact absurd hlen (by decide)
  | some d => rw [Subtype.ext hdate]

theorem getStock_of_mem (hr : r ∈ tbl.rows) :
  getStock tbl r.symbol (some r.date) = some r
  := by
  cases h : getStock tbl r.symbol (some r.date) with
  | none => exact absurd (decide_eq_true ⟨rfl, rfl⟩) (PriceTable.select_eq_none.mp h r hr)
  | some q =>
    obtain ⟨hq, hsymbol, hdate⟩ := getStock_eq_some h
    rw [tbl.unique q hq r hr hsymbol (Option.some.inj hdate).symm]

/-- The trading date that is found is the last one before the date. -/
theorem previousTradeDate_spec (hd : IsTradeDate tbl d) (hlt : d.1 < spliced date) :
  ∃ d', previousTradeDate tbl date = some d' ∧ d ≤ d' ∧ d'.1 < spliced date
  := by
  obtain ⟨q, hq, hsymbol, rfl⟩ := hd
  have hmem : q.date ∈ (tbl.rows.filter fun r => r.symbol = szzs ∧ r.date.1 < spliced date).map
      Row.date :=
    List.mem_map_of_mem (List.mem_filter.mpr ⟨hq, decide_eq_true ⟨hsymbol, hlt⟩⟩)
  rw [previousTradeDate, previousStock]
  cases hmax : ((tbl.rows.filter fun r => r.symbol = szzs ∧ r.date.1 < spliced date).map
      Row.date).max? with
  | none =>
    rw [List.max?_eq_none_iff.mp hmax] at hmem
    exact absurd hmem List.not_mem_nil
  | some d' =>
    obtain ⟨hd', hle⟩ := List.max?_eq_some_iff.mp hmax
    obtain ⟨x, hx, rfl⟩ := List.mem_map.mp hd'
    obtain ⟨hx, hpx⟩ := List.mem_filter.mp hx
    obtain ⟨hxsymbol, hxlt⟩ := of_decide_eq_true hpx
    have hget := getStock_of_mem hx
    simp only [getStock, spliced, hxsymbol, ← Subtype.ext_iff] at hget
    refine ⟨x.date, ?_, hle _ hmem, hxlt⟩
    rw [Option.bind_some, hget, Option.map_some]

theorem isTradeDate_of_previous (h : previousTradeDate tbl date = some d) :
  IsTradeDate tbl d
  := by
  obtain ⟨q, hq, rfl⟩ := Option.map_eq_some_iff.mp h
  rw [previousStock, Option.bind_eq_some_iff] at hq
  obtain ⟨d', -, hselect⟩ := hq
  obtain ⟨hmem, hp⟩ := PriceTable.of_select hselect
  exact ⟨q, hmem, (of_decide_eq_true hp).1, rfl⟩

/-! ### The search -/

/-- The rows before a date. -/
def before (tbl : PriceTable P) (d : Day) : List (Row P) := tbl.rows.filter fun r => r.date < d

theorem length_before_lt {d' : Day} (h : IsTradeDate tbl d') (hlt : d' < d) :
  (before tbl d').length < (before tbl d).length
  := by
  obtain ⟨q, hq, -, rfl⟩ := h
  have heq : before tbl q.date = (before tbl d).filter fun r => r.date < q.date := by
    rw [before, before, List.filter_filter]
    apply List.filter_congr
    intro r _
    rw [← Bool.decide_and, decide_eq_decide]
    exact ⟨fun h => ⟨h, h.trans hlt⟩, And.left⟩
  rw [heq, List.length_filter_lt_length_iff_exists]
  exact ⟨q, List.mem_filter.mpr ⟨hq, decide_eq_true hlt⟩, by simp⟩

/-- A row that is returned is of the date the search starts from or of a trading date. -/
theorem of_closeRow :
    ∀ {n : ℕ} {date : Option Day}, closeRow tbl symbol n date = some r →
      r ∈ tbl.rows ∧ r.symbol = symbol ∧ (date = some r.date ∨ IsTradeDate tbl r.date)
  | n + 1, date, h => by
      rw [closeRow] at h
      split at h
      · next hget =>
        cases h
        obtain ⟨hr, hsymbol, hdate⟩ := getStock_eq_some hget
        exact ⟨hr, hsymbol, .inl hdate⟩
      · obtain ⟨hr, hsymbol, hprev | htrade⟩ := of_closeRow h
        · exact ⟨hr, hsymbol, .inr (isTradeDate_of_previous hprev)⟩
        · exact ⟨hr, hsymbol, .inr htrade⟩

/-- From a date between the latest row and the date asked for, the search comes to that row. -/
theorem Latest.closeRow {date : Day} (hr : Latest tbl symbol date r) :
    ∀ (n : ℕ) {d : Day}, d ≤ date → (d = date ∨ IsTradeDate tbl d) → r.date ≤ d →
      Stock.closeRow tbl symbol n (some d) = some r
        ∨ Stock.closeRow tbl symbol n (some d) = none ∧ n ≤ (before tbl d).length
  | 0, d, _, _, _ => .inr ⟨rfl, Nat.zero_le _⟩
  | n + 1, d, hle, htrade, hrd => by
      rw [Stock.closeRow]
      split
      · next q hget =>
        obtain ⟨hq, hsymbol, hdate⟩ := getStock_eq_some hget
        cases hdate
        have hqr := le_antisymm (hr.max q ⟨hq, hsymbol, hle, htrade⟩) hrd
        left
        rw [tbl.unique q hq r hr.mem (hsymbol.trans hr.symbol_eq.symm) hqr]
      · next hget =>
        have hlt : r.date < d := by
          apply lt_of_le_of_ne hrd
          rintro rfl
          rw [← hr.symbol_eq, getStock_of_mem hr.mem] at hget
          cases hget
        have hrtrade := hr.trade.resolve_left (ne_of_lt (lt_of_lt_of_le hlt hle))
        have hbefore : r.date.1 < spliced (some d) := hlt
        obtain ⟨d', hprev, hrd', hd'⟩ := previousTradeDate_spec hrtrade hbefore
        have htrade' := isTradeDate_of_previous hprev
        have hcount := length_before_lt htrade' hd'
        rw [hprev]
        rcases hr.closeRow n (le_trans (le_of_lt hd') hle) (.inr htrade') hrd' with
          hfound | ⟨hnone, hn⟩
        · exact .inl hfound
        · exact .inr ⟨hnone, by omega⟩

/-- The search is right exactly when there is a row to find. -/
theorem getClosePrice_finds_iff (tbl : PriceTable P) (symbol : String) (date : Day) :
  Finds tbl symbol date ↔ ∃ r, Listed tbl symbol date r
  := by
  constructor
  · intro h
    obtain ⟨n, hn⟩ := h.ends
    obtain ⟨r, hr⟩ := Option.ne_none_iff_exists'.mp hn
    obtain ⟨hmem, hsymbol, htrade⟩ := of_closeRow hr
    refine ⟨r, hmem, hsymbol, h.past n r hr, ?_⟩
    exact htrade.imp_left fun heq => (Option.some.inj heq).symm
  · intro hsome
    have hcome : ∀ {r}, Latest tbl symbol date r →
        closeRow tbl symbol ((before tbl date).length + 1) (some date) = some r := by
      intro r hr
      apply (hr.closeRow _ le_rfl (.inl rfl) hr.le).resolve_right
      exact fun hlate => Nat.not_succ_le_self _ hlate.2
    obtain ⟨r, hr, hmax⟩ := Set.exists_max_image { q | Listed tbl symbol date q } Row.date
      (tbl.rows.finite_toSet.subset fun q hq => hq.mem) hsome
    have hlatest : Latest tbl symbol date r := ⟨hr, hmax⟩
    refine ⟨?_, ?_, (before tbl date).length + 1, ?_⟩
    · intro x hx
      use (before tbl date).length + 1
      rw [getClosePrice, hcome hx, Option.map_some]
    · intro n q hq
      rcases hlatest.closeRow n le_rfl (.inl rfl) hr.le with heq | ⟨hnone, -⟩
      · rw [hq] at heq
        cases heq
        exact hr.le
      · rw [hq] at hnone
        cases hnone
    · rw [hcome hlatest]
      exact Option.some_ne_none r

/-- The first of January, or the second. -/
def january (c : Char) (hc : c.isDigit) : Day :=
  ⟨['2', '0', '0', '8', '0', '1', '0', c], rfl, by simp [hc]⟩

/-- The index and the stock `a` have a price of the second of January only. -/
def openedLate : PriceTable ℕ where
  rows := [⟨szzs, january '2' rfl, 5000⟩, ⟨"a", january '2' rfl, 7⟩]
  unique := by decide +kernel

/-- The price of the second of January is returned for the first. -/
theorem not_finds_openedLate :
  ¬ Finds openedLate "a" (january '1' rfl)
  := by
  intro h
  exact absurd (h.past 3 ⟨"a", january '2' rfl, 7⟩ (by decide +kernel)) (by decide +kernel)

end Stock
