import AzureSpider.Lib.Decimal

/-!
# Stocks and entitlements

What the trading programs read from the database: the prices and the calendar of a stock,
`MyStock.java`, and the records of bonuses and share allocations, `Dividend.java` and
`DividendUtil.java`.  Prices and rates are exact decimals.

A date is the number `YYYYMMDD`, so that the order of the dates is the order of their strings;
a date that the database leaves empty is missing.
-/

/-- A date `YYYYMMDD`. -/
abbrev Date : Type := ℕ

/-! ### Stocks -/

/-- A row of the table `STOCK_PRICE`. -/
structure PriceRow where
  date : Date
  openPrice : ℚ
  closePrice : ℚ
  deriving DecidableEq

/-- `MyStock`: the rows of the stock and the dates the market is open. -/
structure MyStock where
  symbol : String
  prices : List PriceRow
  marketOpenDates : List Date
  deriving DecidableEq

namespace MyStock

/-- The row of a date; of several rows the last one read counts. -/
def row (s : MyStock) (date : Date) : Option PriceRow :=
  s.prices.reverse.find? fun r => r.date = date

/-- `isTradeDate`. -/
def isTradeDate (s : MyStock) (date : Date) : Bool := (s.prices.map PriceRow.date).contains date

/-- `getOpenPrice`, which throws if there is no price. -/
def getOpenPrice (s : MyStock) (date : Date) : Option ℚ := (s.row date).map PriceRow.openPrice

/-- `getClosePrice`. -/
def getClosePrice (s : MyStock) (date : Date) : ℚ :=
  ((s.row date).map PriceRow.closePrice).getD 0

/-- `getNextMarketOpenDate`, which throws if the date is the last one. -/
def getNextMarketOpenDate (s : MyStock) (currentDate : Date) : Option Date :=
  match s.marketOpenDates.idxOf? currentDate with
  | some index => s.marketOpenDates[index + 1]?
  | none => some 0

/-- The open prices are positive. -/
def Positive (s : MyStock) : Prop := ∀ r ∈ s.prices, 0 < r.openPrice

variable {s : MyStock} {date : Date}

/-- There is an open price exactly on the trade dates. -/
theorem isTradeDate_iff :
  s.isTradeDate date = true ↔ ∃ price, s.getOpenPrice date = some price
  := by
  simp only [isTradeDate, getOpenPrice, row, List.contains_eq_mem, List.mem_map,
    decide_eq_true_eq, Option.map_eq_some_iff]
  constructor
  · rintro ⟨r, hr, rfl⟩
    have hfound : (s.prices.reverse.find? fun r' => decide (r'.date = r.date)).isSome := by
      rw [List.find?_isSome]
      exact ⟨r, List.mem_reverse.mpr hr, by simp⟩
    obtain ⟨r', hr'⟩ := Option.isSome_iff_exists.mp hfound
    exact ⟨r'.openPrice, r', hr', rfl⟩
  · rintro ⟨price, r, hr, rfl⟩
    refine ⟨r, List.mem_reverse.mp (List.mem_of_find?_eq_some hr), ?_⟩
    have hdate := List.find?_some hr
    simpa using hdate

/-- A price that is found comes from a row. -/
theorem exists_row {price : ℚ} (h : s.getOpenPrice date = some price) :
  ∃ r ∈ s.prices, r.openPrice = price
  := by
  simp only [getOpenPrice, row, Option.map_eq_some_iff] at h
  obtain ⟨r, hr, rfl⟩ := h
  exact ⟨r, List.mem_reverse.mp (List.mem_of_find?_eq_some hr), rfl⟩

theorem Positive.openPrice (h : s.Positive) {price : ℚ} (hp : s.getOpenPrice date = some price) :
  0 < price
  := by
  obtain ⟨r, hr, rfl⟩ := exists_row hp
  exact h r hr

end MyStock

/-! ### Entitlements -/

/-- `Dividend`. -/
structure Dividend where
  cashDiv : ℚ
  stockDiv : ℚ
  tranDiv : ℚ
  xDate : Option Date
  listDate : Option Date
  regDate : Option Date
  allocShare : ℚ
  allocPrice : ℚ
  deriving DecidableEq

/-- `getEntitledPos`. -/
def Dividend.getEntitledPos (d : Dividend) : ℚ := d.tranDiv + d.stockDiv

namespace DividendUtil

/-- `DateType`. -/
inductive DateType where
  | regDate | xDate | listDate
  deriving DecidableEq, Repr

/-- The date of a record that a search compares. -/
def dateOf (dt : DateType) (d : Dividend) : Option Date :=
  match dt with
  | .regDate => d.regDate
  | .xDate => d.xDate
  | .listDate => d.listDate

/-- The loop that `getEntitlement` and `getAllocEntitlement` share: the first record of the
date. -/
def find (ds : List Dividend) (date : Date) (dt : DateType) : Option Dividend :=
  ds.find? fun d => dateOf dt d = some date

end DividendUtil

/-- `DividendUtil`: the records of each symbol. -/
structure DividendUtil where
  weights : String → List Dividend
  allocWeights : String → List Dividend

namespace DividendUtil

/-- `getEntitlement`. -/
def getEntitlement (u : DividendUtil) (symbol : String) (date : Date) (dt : DateType) :
    Option Dividend :=
  find (u.weights symbol) date dt

/-- `getAllocEntitlement`. -/
def getAllocEntitlement (u : DividendUtil) (symbol : String) (date : Date) (dt : DateType) :
    Option Dividend :=
  find (u.allocWeights symbol) date dt

theorem find_mem {ds : List Dividend} {date : Date} {dt : DateType} {d : Dividend}
    (h : find ds date dt = some d) :
  d ∈ ds ∧ dateOf dt d = some date
  := by
  refine ⟨List.mem_of_find?_eq_some h, ?_⟩
  have hdate := List.find?_some h
  simpa using hdate

end DividendUtil
