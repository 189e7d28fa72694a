import AzureSpider.Trading.Conservation

/-!
# Portfolios

`MyPortfolio.java`: cash and the trades of several stocks.  Money that an order reserves leaves
the cash when the order is placed; at the end of each day the cash of the trades is swept back.

Money is exact.  Where the source divides by zero, which exact decimals do not allow, the call
ends with an exception, as it does where a list has no element at an index; what the call did
before stays done.
-/

open Machine Decimal

/-- The rows of the database. -/
structure StockDb where
  prices : String → List PriceRow
  marketOpenDates : List Date

/-- The constructor of `MyStock` for a range of dates. -/
def MyStock.load (db : StockDb) (symbol : String) (startDate endDate : Date) : MyStock where
  symbol := symbol
  prices := (db.prices symbol).filter fun r => startDate ≤ r.date ∧ r.date ≤ endDate
  marketOpenDates := db.marketOpenDates

/-- `MyPortfolio`. -/
structure MyPortfolio where
  trades : List MyTrade
  tradingDates : List Date
  dateIndex : ℕ
  cash : ℚ
  endDate : Date
  deriving DecidableEq

namespace MyPortfolio

/-- The constructor. -/
def new (tradingDates : List Date) (endDate : Date) (initCash : ℚ) : MyPortfolio where
  trades := []
  tradingDates := tradingDates
  dateIndex := 0
  cash := initCash
  endDate := endDate

/-- `getToday`. -/
def getToday (p : MyPortfolio) : Option Date := p.tradingDates[p.dateIndex]?

/-- `PandL`. -/
def pandL (p : MyPortfolio) : ℚ := p.cash + (p.trades.map MyTrade.getTotalMoney).sum

/-- The trades with the first one of a symbol changed, if there is one. -/
def onFirst (symbol : String) (f : MyTrade → MyTrade) : List MyTrade → Option (List MyTrade)
  | [] => none
  | t :: ts =>
    if t.stock.symbol = symbol then some (f t :: ts)
    else (onFirst symbol f ts).map (t :: ·)

/-- The first trade of a symbol. -/
def firstTrade (p : MyPortfolio) (symbol : String) : Option MyTrade :=
  p.trades.find? fun t => t.stock.symbol = symbol

/-- `buy`, if it does not throw. -/
def tryBuy (db : StockDb) (p : MyPortfolio) (symbol : String) (amount : ℚ) :
    Option MyPortfolio :=
  if amount > p.cash ∨ amount < 1000 then some p
  else
    match onFirst symbol (·.buy amount) p.trades with
    | some trades => some { p with trades := trades, cash := p.cash - amount }
    | none =>
      p.getToday.map fun today =>
        let trade := MyTrade.new (MyStock.load db symbol today p.endDate) today
        { p with trades := p.trades ++ [trade.buy amount], cash := p.cash - amount }

/-- `buy`. -/
def buy (db : StockDb) (p : MyPortfolio) (symbol : String) (amount : ℚ) : MyPortfolio :=
  (p.tryBuy db symbol amount).getD p

/-- The portfolio with the first trade of a symbol changed. -/
def change (p : MyPortfolio) (symbol : String) (f : MyTrade → MyTrade) : MyPortfolio :=
  match onFirst symbol f p.trades with
  | some trades => { p with trades := trades }
  | none => p

/-- `sell` of a volume. -/
def sell (p : MyPortfolio) (symbol : String) (volume : ℤ) : MyPortfolio :=
  p.change symbol (·.sell volume)

/-- `sell` of all. -/
def sellAll (p : MyPortfolio) (symbol : String) : MyPortfolio := p.change symbol MyTrade.sellAll

/-- `sellAmount`, if it does not throw. -/
def trySellAmount (p : MyPortfolio) (symbol : String) (amount : ℚ) : Option MyPortfolio :=
  if amount < 1000 then some p
  else
    match p.firstTrade symbol with
    | some t =>
      if t.getLastClosePrice = 0 then none
      else some (p.sell symbol (toInt32 (amount / t.getLastClosePrice)))
    | none => some p

/-- `sellAmount`. -/
def sellAmount (p : MyPortfolio) (symbol : String) (amount : ℚ) : MyPortfolio :=
  (p.trySellAmount symbol amount).getD p

/-- The first loop of `trade`: the shares of the portfolio that the trades hold, and an order to
sell all for each trade without a weight.  `PandL` does not change on the way, since an order to
sell holds no money. -/
def holdings (pandL : ℚ) (weights : List (String × ℚ)) :
    List MyTrade → List MyTrade × Option (List (String × ℚ))
  | [] => ([], some [])
  | t :: ts =>
    if (weights.lookup t.stock.symbol).isSome then
      if pandL = 0 then (t :: ts, none)
      else
        let rest := holdings pandL weights ts
        (t :: rest.1, rest.2.map ((t.stock.symbol, t.getAmount / pandL) :: ·))
    else
      let rest := holdings pandL weights ts
      (t.sellAll :: rest.1, rest.2)

/-- One round of the second loop of `trade`. -/
def rebalance (db : StockDb) (currentCash : ℚ) (held : List (String × ℚ)) (p : MyPortfolio)
    (sym : String) (weight : ℚ) : Option MyPortfolio :=
  match held.lookup sym with
  | none => p.tryBuy db sym (currentCash * weight)
  | some holding =>
    if weight ≥ holding then p.tryBuy db sym (currentCash * (weight - holding))
    else p.trySellAmount sym ((holding - weight) * currentCash)

/-- The second loop of `trade`. -/
def rebalanceAll (db : StockDb) (currentCash : ℚ) (held : List (String × ℚ)) :
    List (String × ℚ) → MyPortfolio → MyPortfolio
  | [], p => p
  | (sym, weight) :: rest, p =>
    match rebalance db currentCash held p sym weight with
    | some p' => rebalanceAll db currentCash held rest p'
    | none => p

/-- `trade`; the weights come in the order in which the map yields them. -/
def trade (db : StockDb) (p : MyPortfolio) (weights : List (String × ℚ)) : MyPortfolio :=
  let first := holdings p.pandL weights p.trades
  let p' := { p with trades := first.1 }
  match first.2 with
  | some held => rebalanceAll db p'.cash held weights p'
  | none => p'

/-- Whether `nextDay` drops a trade: there is nothing in it. -/
def isEmpty (t : MyTrade) : Bool := t.getTotalMoney = 0 ∧ i32 (t.shares + t.sharesOnTheWay) = 0

/-- The loop of `nextDay`: the trades and the cash after it, and whether it came to its end. -/
def sweep (u : DividendUtil) : List MyTrade → ℚ → List MyTrade × ℚ × Bool
  | [], cash => ([], cash, true)
  | t :: ts, cash =>
    match t.nextDay u with
    | some t' =>
      let rest := sweep u ts (cash + t'.getCash)
      ({ t' with cash := 0 } :: rest.1, rest.2)
    | none => (t :: ts, cash, false)

/-- `nextDay`. -/
def nextDay (u : DividendUtil) (p : MyPortfolio) : MyPortfolio :=
  let swept := sweep u p.trades p.cash
  if swept.2.2 then
    { p with
      trades := swept.1.filter fun t => !isEmpty t
      cash := swept.2.1
      dateIndex := p.dateIndex + 1 }
  else
    { p with trades := swept.1, cash := swept.2.1 }

end MyPortfolio
