import AzureSpider.Lib.Keyed
import AzureSpider.Trading.Market

/-!
# The rolling strategy

`PositionEntry.java` and the accounts of `RollingStrategy.java`: cash and a table of positions,
with dividends that are in flight from the registration date to the list date.

The strategy buys and sells at close prices, which are a parameter; which symbols it buys and
sells is left open.  Amounts are exact.  The iteration order of the position map has no effect
on any of the methods, so the map is a table of entries.
-/

open Machine Decimal

/-- `PEDateValue`. -/
structure PEDateValue where
  value : ℚ
  regDate : Option Date
  listDate : Option Date
  deriving DecidableEq

/-- `PositionEntry`. -/
structure PositionEntry where
  symbol : String
  amount : ℚ
  inflightAmt : Option PEDateValue
  inflightCash : Option PEDateValue
  deriving DecidableEq

namespace PositionEntry

/-- The constructor. -/
def new (symbol : String) (amount : ℚ) : PositionEntry := ⟨symbol, amount, none, none⟩

/-- What is in flight, or nothing. -/
def inflight (v : Option PEDateValue) : ℚ := (v.map PEDateValue.value).getD 0

/-- `getInflightPos`. -/
def getInflightPos (e : PositionEntry) : ℚ := inflight e.inflightAmt

/-- `getInflightCash`. -/
def getInflightCash (e : PositionEntry) : ℚ := inflight e.inflightCash

/-- `setAmount`. -/
def setAmount (e : PositionEntry) (amount : ℚ) : PositionEntry := { e with amount := amount }

/-- Something is in flight and listed on the date. -/
def Due (v : Option PEDateValue) (date : Date) : Prop := ∃ p ∈ v, p.listDate = some date

instance (v : Option PEDateValue) (date : Date) : Decidable (Due v date) :=
  match v with
  | none => isFalse fun ⟨_, hp, _⟩ => Option.not_mem_none _ hp
  | some p => decidable_of_iff (p.listDate = some date) (by simp [Due])

/-- `evaluateInflightCash`: the cash that arrives, and the entry after it. -/
def evaluateInflightCash (e : PositionEntry) (date : Date) : ℚ × PositionEntry :=
  if Due e.inflightCash date then (inflight e.inflightCash, { e with inflightCash := none })
  else (0, e)

/-- `evaluateInflightPos`: the shares that arrive, and the entry after it. -/
def evaluateInflightPos (e : PositionEntry) (date : Date) : ℚ × PositionEntry :=
  if Due e.inflightAmt date then
    (inflight e.inflightAmt,
      { e with amount := e.amount + inflight e.inflightAmt, inflightAmt := none })
  else (0, e)

/-- `isSoldOut`. -/
def isSoldOut (e : PositionEntry) : Bool :=
  e.amount = 0 ∧ e.inflightAmt = none ∧ e.inflightCash = none

/-- `increaseInflight`. -/
def increaseInflight (e : PositionEntry) (d : Dividend) : PositionEntry :=
  { e with
    inflightCash :=
      if d.cashDiv > 0 then some ⟨d.cashDiv * e.amount, d.regDate, d.listDate⟩
      else e.inflightCash
    inflightAmt :=
      if d.getEntitledPos > 0 then some ⟨d.getEntitledPos * e.amount, d.regDate, d.listDate⟩
      else e.inflightAmt }

/-- The entry after what is listed on a date has arrived. -/
def settle (e : PositionEntry) (date : Date) : PositionEntry :=
  ((e.evaluateInflightCash date).2.evaluateInflightPos date).2

/-- The entry after a record registered on a date is put in flight. -/
def entitle (u : DividendUtil) (date : Date) (e : PositionEntry) : PositionEntry :=
  match u.getEntitlement e.symbol date .regDate with
  | some d => e.increaseInflight d
  | none => e

/-! The symbol of an entry is never changed. -/

theorem symbol_evaluateInflightCash (e : PositionEntry) (date : Date) :
  (e.evaluateInflightCash date).2.symbol = e.symbol
  := by
  unfold evaluateInflightCash
  split
  · rfl
  · rfl

theorem symbol_evaluateInflightPos (e : PositionEntry) (date : Date) :
  (e.evaluateInflightPos date).2.symbol = e.symbol
  := by
  unfold evaluateInflightPos
  split
  · rfl
  · rfl

theorem symbol_settle (date : Date) (e : PositionEntry) :
  (e.settle date).symbol = e.symbol
  := by
  rw [settle, symbol_evaluateInflightPos, symbol_evaluateInflightCash]

theorem symbol_entitle (u : DividendUtil) (date : Date) (e : PositionEntry) :
  (e.entitle u date).symbol = e.symbol
  := by
  unfold entitle
  split
  · rfl
  · rfl

end PositionEntry

/-- The accounts of `RollingStrategy`. -/
structure RollingStrategy where
  position : Keyed PositionEntry.symbol
  cash : ℚ

namespace RollingStrategy

/-- The commission rate. -/
def commission : ℚ := 1 / 1000

/-- The stamp tax of a purchase. -/
def buyStampTax : ℚ := 0

/-- The stamp tax of a sale. -/
def sellStampTax : ℚ := 1 / 1000

/-- The constructor. -/
def new (cash : ℚ) : RollingStrategy := ⟨Keyed.empty _, cash⟩

/-- `processInflightPB`. -/
def processInflightPB (s : RollingStrategy) (date : Date) : RollingStrategy where
  position := s.position.map (·.settle date) (PositionEntry.symbol_settle date)
  cash := s.cash + s.position.total fun e => (e.evaluateInflightCash date).1

/-- `processEntitlement`. -/
def processEntitlement (u : DividendUtil) (s : RollingStrategy) (date : Date) :
    RollingStrategy :=
  { s with
    position := s.position.map (·.entitle u date) (PositionEntry.symbol_entitle u date) }

section Trades

variable (close : String → Date → ℚ) (date : Date) (stampTax com : ℚ)

/-- The shares that a tenth of the cash buys, in whole lots. -/
def sharesFor (cash price : ℚ) : ℤ := i32 (toInt32 (cash * (1 / 10) / price / 100) * 100)

/-- The body of the loop of `buy`. -/
def buyOne (s : RollingStrategy) (symbol : String) : RollingStrategy :=
  let price := close symbol date
  let shares := sharesFor s.cash price
  { position :=
      match s.position.get symbol with
      | none => s.position.put (PositionEntry.new symbol shares)
      | some pe => s.position.put (pe.setAmount (pe.amount + shares))
    cash := s.cash - shares * price * (1 + stampTax + com) }

/-- The loop of `buy` from the index `i`, which ends at the index 6. -/
def buyFrom (i : ℕ) (s : RollingStrategy) : List String → RollingStrategy
  | [] => s
  | symbol :: symbols =>
    if i = 6 then s
    else buyFrom (i + 1) (s.buyOne close date stampTax com symbol) symbols

/-- `buy`. -/
def buy (s : RollingStrategy) (symbols : List String) : RollingStrategy :=
  s.buyFrom close date stampTax com 0 symbols

/-- The body of the loop of `sell`, which throws if the symbol is not in the map. -/
def sellOne (s : RollingStrategy) (symbol : String) : Option RollingStrategy :=
  (s.position.get symbol).map fun pe =>
    { position :=
        if (pe.setAmount 0).isSoldOut then s.position.remove symbol
        else s.position.put (pe.setAmount 0)
      cash := s.cash + pe.amount * close symbol date * (1 - stampTax - com) }

/-- `sell`. -/
def sell (s : RollingStrategy) : List String → Option RollingStrategy
  | [] => some s
  | symbol :: symbols =>
    (s.sellOne close date stampTax com symbol).bind fun s' => s'.sell symbols

/-- What an entry contributes to `getFinalCash`. -/
def worth (e : PositionEntry) : ℚ :=
  (e.amount + e.getInflightPos) * close e.symbol date + e.getInflightCash

/-- `getFinalCash`. -/
def getFinalCash (s : RollingStrategy) : ℚ := s.cash + s.position.total (worth close date)

end Trades

end RollingStrategy
