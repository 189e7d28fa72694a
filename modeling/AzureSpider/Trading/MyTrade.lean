import AzureSpider.Trading.Market

/-!
# Trades

`MyTrade.java`: the account of one stock, with orders that are placed on one day and carried
out, or withdrawn, on the next day the market is open.

Amounts of money are exact, shares are 32-bit integers.
-/

open Machine Decimal

/-- `IOperation`: an order or the settlement of an entitlement. -/
inductive Operation where
  /-- `DROperation`. -/
  | dr (volume : ℤ)
  /-- `BuyOperation`. -/
  | buy (money : ℚ)
  /-- `SellOperation`; one that sells all has the volume `0`. -/
  | sell (volume : ℤ) (sellAll : Bool)
  deriving DecidableEq

/-- `MyTrade`. -/
structure MyTrade where
  cash : ℚ
  cashOnTheWay : ℚ
  shares : ℤ
  sharesOnTheWay : ℤ
  currentDate : Date
  lastTradeDate : Date
  stock : MyStock
  entitledVolume : ℤ
  bonusCash : ℚ
  bonusShares : ℚ
  tranShares : ℚ
  allocShares : ℚ
  allocPrice : ℚ
  operations : List Operation
  deriving DecidableEq

namespace MyTrade

/-! ### Costs -/

/-- The commission rate. -/
def commision : ℚ := 1 / 1000

/-- The least commission. -/
def minCommision : ℚ := 5

/-- The stamp tax of a sale. -/
def sellTax : ℚ := 1 / 1000

/-- The stamp tax of a purchase. -/
def buyTax : ℚ := 0

/-- The cost of trading an amount: the rounded commission and the tax. -/
def cost (amount tax : ℚ) : ℚ :=
  roundCents (roundCents (max minCommision (amount * commision)) + amount * tax)

/-! ### Operations -/

/-- The volume that money buys: whole lots of 100 shares. -/
def buyVolume (money price : ℚ) : ℤ := i32 (toInt32 (money / price / 100) * 100)

/-- The volume that a `SellOperation` sells of the shares there are. -/
def sellVolume (shares volume : ℤ) (sellAll : Bool) : ℤ :=
  if sellAll then shares else if volume > shares then shares else volume

/-- `DROperation.action`. -/
def drAction (t : MyTrade) (volume : ℤ) : MyTrade :=
  let alloc := toInt32 (volume * t.allocShares)
  { t with
    sharesOnTheWay := i32 (toInt32 (t.sharesOnTheWay + alloc)
      + i32 (toInt32 (volume * t.bonusShares) + toInt32 (volume * t.tranShares)))
    cashOnTheWay := t.cashOnTheWay - roundCents (alloc * t.allocPrice)
      + roundCents (volume * t.bonusCash)
    bonusShares := 0
    bonusCash := 0
    tranShares := 0
    entitledVolume := 0 }

/-- `BuyOperation.action` at an open price. -/
def buyAction (t : MyTrade) (money price : ℚ) : MyTrade :=
  let volume := buyVolume money price
  let amount := roundCents (price * volume)
  if 0 < amount then
    { t with
      sharesOnTheWay := i32 (t.sharesOnTheWay + volume)
      cash := t.cash + roundCents (money - (amount + cost amount buyTax)) }
  else
    -- `cash =+ money` is an assignment
    { t with cash := money }

/-- `SellOperation.action` at an open price. -/
def sellAction (t : MyTrade) (volume : ℤ) (sellAll : Bool) (price : ℚ) : MyTrade :=
  let v := sellVolume t.shares volume sellAll
  let amount := roundCents (v * price)
  if 0 < amount then
    { t with
      cashOnTheWay := t.cashOnTheWay
        + if sellAll then amount - cost amount sellTax
          else roundCents (amount - cost amount sellTax)
      shares := if sellAll then 0 else i32 (t.shares - v) }
  else
    t

/-- `action`; an exception over a missing price is caught and nothing is done. -/
def action (t : MyTrade) : Operation → MyTrade
  | .dr volume => t.drAction volume
  | .buy money =>
    match t.stock.getOpenPrice t.currentDate with
    | some price => t.buyAction money price
    | none => t
  | .sell volume sellAll =>
    match t.stock.getOpenPrice t.currentDate with
    | some price => t.sellAction volume sellAll price
    | none => t

/-- `withdraw`. -/
def withdraw (t : MyTrade) : Operation → MyTrade
  | .dr _ => t
  | .buy money => { t with cash := t.cash + money }
  | .sell volume _ => { t with shares := i32 (t.shares + volume) }

/-! ### Days -/

/-- The first part of `nextDay`: the date is moved and what was on the way has arrived. -/
def arrive (t : MyTrade) (date : Date) : MyTrade :=
  { t with
    currentDate := date
    cash := t.cash + t.cashOnTheWay
    cashOnTheWay := 0
    shares := i32 (t.shares + t.sharesOnTheWay)
    sharesOnTheWay := 0 }

/-- The second part of `nextDay`: on the date of an entitlement, its settlement is added to the
operations. -/
def addEntitlement (u : DividendUtil) (t : MyTrade) : MyTrade :=
  if ((u.getAllocEntitlement t.stock.symbol t.currentDate .xDate).isSome
      ∨ (u.getEntitlement t.stock.symbol t.currentDate .xDate).isSome) ∧ 0 < t.entitledVolume then
    { t with operations := t.operations ++ [.dr t.entitledVolume] }
  else
    t

/-- The trade on a trade date, before its operations are carried out. -/
def openDay (t : MyTrade) : MyTrade :=
  { t with
    lastTradeDate := t.currentDate
    shares := i32 (t.shares + t.sharesOnTheWay)
    sharesOnTheWay := 0 }

/-- The third part of `nextDay`: the operations are carried out or withdrawn. -/
def operate (t : MyTrade) : MyTrade :=
  if t.stock.isTradeDate t.currentDate then t.operations.foldl action t.openDay
  else t.operations.foldl withdraw t

/-- The part of `nextDay` that registers a bonus. -/
def registerBonus (u : DividendUtil) (t : MyTrade) : MyTrade :=
  match u.getEntitlement t.stock.symbol t.currentDate .regDate with
  | some bonus =>
    { t with
      entitledVolume := i32 (t.shares + t.sharesOnTheWay)
      bonusCash := bonus.cashDiv
      bonusShares := bonus.stockDiv
      tranShares := bonus.tranDiv }
  | none => t

/-- The part of `nextDay` that registers an allocation of shares. -/
def registerAlloc (u : DividendUtil) (t : MyTrade) : MyTrade :=
  match u.getAllocEntitlement t.stock.symbol t.currentDate .regDate with
  | some bonus =>
    { t with
      entitledVolume := i32 (t.shares + t.sharesOnTheWay)
      allocShares := bonus.allocShare
      allocPrice := bonus.allocPrice }
  | none => t

/-- `nextDay` on the next day the market is open. -/
def nextDayOn (u : DividendUtil) (t : MyTrade) (date : Date) : MyTrade :=
  { registerAlloc u (registerBonus u (operate (addEntitlement u (t.arrive date)))) with
    operations := [] }

/-- `nextDay`, which throws after the last day of the calendar. -/
def nextDay (u : DividendUtil) (t : MyTrade) : Option MyTrade :=
  (t.stock.getNextMarketOpenDate t.currentDate).map (t.nextDayOn u)

/-- `buy`. -/
def buy (t : MyTrade) (money : ℚ) : MyTrade :=
  { t with operations := t.operations ++ [.buy money] }

/-- `sell` of a volume. -/
def sell (t : MyTrade) (volume : ℤ) : MyTrade :=
  { t with operations := t.operations ++ [.sell volume false] }

/-- `sell` of all. -/
def sellAll (t : MyTrade) : MyTrade :=
  { t with operations := t.operations ++ [.sell 0 true] }

/-- A new trade. -/
def new (stock : MyStock) (startDate : Date) : MyTrade where
  cash := 0
  cashOnTheWay := 0
  shares := 0
  sharesOnTheWay := 0
  currentDate := startDate
  lastTradeDate := startDate
  stock := stock
  entitledVolume := 0
  bonusCash := 0
  bonusShares := 0
  tranShares := 0
  allocShares := 0
  allocPrice := 0
  operations := []

/-! ### Values -/

/-- `getLastClosePrice`. -/
def getLastClosePrice (t : MyTrade) : ℚ :=
  if t.stock.isTradeDate t.currentDate then t.stock.getClosePrice t.currentDate
  else t.stock.getClosePrice t.lastTradeDate

/-- `getAmount`. -/
def getAmount (t : MyTrade) : ℚ := i32 (t.shares + t.sharesOnTheWay) * t.getLastClosePrice

/-- The money of an operation that is a `BuyOperation`. -/
def moneyOf : Operation → ℚ
  | .buy money => money
  | _ => 0

/-- The money in pending buy orders. -/
def pendingMoney (t : MyTrade) : ℚ := (t.operations.map moneyOf).sum

/-- `getCash`. -/
def getCash (t : MyTrade) : ℚ := roundCents t.cash

/-- `getCashOnTheWay`. -/
def getCashOnTheWay (t : MyTrade) : ℚ := roundCents t.cashOnTheWay

/-- `getTotalMoney`. -/
def getTotalMoney (t : MyTrade) : ℚ :=
  roundCents (t.getCash + t.getCashOnTheWay + t.getAmount + t.pendingMoney)

end MyTrade
