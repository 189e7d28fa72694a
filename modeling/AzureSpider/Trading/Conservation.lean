import AzureSpider.Trading.Fills

/-!
# Shares and cash are conserved

Runs of a trade without entitlements.  On a day the stock trades, the shares change by what
the fills of the pending orders buy and sell, and the money by what they bring and take.  On a
day it does not, the orders are withdrawn.

Two slips limit this.  `SellOperation.withdraw` adds the volume of the order to the shares,
although placing the order took none away; and `BuyOperation.action` replaces the cash where
it means to add to it, for an order that buys nothing.
-/

open Machine Decimal

namespace MyTrade

/-- There are no records for the symbol. -/
structure NoEntitlements (u : DividendUtil) (symbol : String) : Prop where
  weights : u.weights symbol = []
  allocWeights : u.allocWeights symbol = []

section Days

variable {u : DividendUtil} {t t' : MyTrade} {date : Date}

theorem NoEntitlements.getEntitlement {symbol : String} (h : NoEntitlements u symbol)
    (date : Date) (dt : DividendUtil.DateType) :
  u.getEntitlement symbol date dt = none ∧ u.getAllocEntitlement symbol date dt = none
  := by
  simp [DividendUtil.getEntitlement, DividendUtil.getAllocEntitlement, h.weights, h.allocWeights,
    DividendUtil.find]

theorem foldl_same {f : MyTrade → Operation → MyTrade} {ops : List Operation}
    (hf : ∀ t, ∀ op ∈ ops, SameTrade t (f t op)) (t : MyTrade) :
  SameTrade t (ops.foldl f t)
  := by
  induction ops generalizing t with
  | nil => exact SameTrade.refl t
  | cons op ops ih =>
    rw [List.foldl_cons]
    apply (hf t op List.mem_cons_self).trans
    apply ih
    intro t op hop
    apply hf t op (List.mem_cons_of_mem _ hop)

theorem action_same (t : MyTrade) {op : Operation} (h : Order op) :
  SameTrade t (t.action op)
  := by
  cases op with
  | dr volume => exact h.elim
  | buy money =>
    cases hprice : t.stock.getOpenPrice t.currentDate with
    | some price =>
      rw [action_buy hprice]
      apply buyAction_same
    | none =>
      simp only [action, hprice]
      apply SameTrade.refl
  | sell volume all =>
    cases hprice : t.stock.getOpenPrice t.currentDate with
    | some price =>
      rw [action_sell hprice]
      apply sellAction_same
    | none =>
      simp only [action, hprice]
      apply SameTrade.refl

/-! The trade of a day before its operations. -/

theorem openDay_arrive_shares (t : MyTrade) (date : Date) :
  (t.arrive date).openDay.shares = i32 (t.shares + t.sharesOnTheWay)
  := by
  simp only [openDay, arrive, Int.add_zero]
  have h := i32_add (t.shares + t.sharesOnTheWay) 0
  rwa [Int.add_zero, Int.add_zero] at h

theorem openDay_sharesOnTheWay (t : MyTrade) :
  t.openDay.sharesOnTheWay = 0
  := rfl

theorem openDay_arrive_cash (t : MyTrade) (date : Date) :
  (t.arrive date).openDay.cash = t.cash + t.cashOnTheWay
    ∧ (t.arrive date).openDay.cashOnTheWay = 0
  := ⟨rfl, rfl⟩

/-- Carrying out or withdrawing orders leaves the stock and the date. -/
theorem operate_same (hops : ∀ op ∈ t.operations, Order op) :
  SameTrade t (operate t)
  := by
  unfold operate
  split
  · have hsame := foldl_same (fun t op hop => action_same t (hops op hop)) t.openDay
    exact ⟨hsame.currentDate, hsame.stock, hsame.operations, hsame.registered⟩
  · exact foldl_same (fun t op _ => withdraw_same t op) t

/-- The operations of a day are carried out if there is a price, and withdrawn otherwise. -/
theorem operate_of_price {price : ℚ} (h : t.stock.getOpenPrice t.currentDate = some price) :
  operate t = t.operations.foldl action t.openDay
  := if_pos (MyStock.isTradeDate_iff.mpr ⟨price, h⟩)

theorem operate_of_none (h : t.stock.getOpenPrice t.currentDate = none) :
  operate t = t.operations.foldl withdraw t
  := by
  apply if_neg
  rw [MyStock.isTradeDate_iff, h]
  simp

/-- A day without entitlements. -/
theorem nextDayOn_eq (h : NoEntitlements u t.stock.symbol)
    (hops : ∀ op ∈ t.operations, Order op) (date : Date) :
  t.nextDayOn u date = { operate (t.arrive date) with operations := [] }
    ∧ (operate (t.arrive date)).stock = t.stock
  := by
  have hstock : (operate (t.arrive date)).stock = t.stock :=
    (operate_same (t := t.arrive date) hops).stock
  have hadd : addEntitlement u (t.arrive date) = t.arrive date := by
    obtain ⟨hnone, hnone'⟩ := h.getEntitlement date .xDate
    unfold addEntitlement
    rw [if_neg]
    simp [arrive, hnone, hnone']
  have hbonus : registerBonus u (operate (t.arrive date)) = operate (t.arrive date) := by
    unfold registerBonus
    rw [hstock, (h.getEntitlement _ .regDate).1]
  have halloc : registerAlloc u (operate (t.arrive date)) = operate (t.arrive date) := by
    unfold registerAlloc
    rw [hstock, (h.getEntitlement _ .regDate).2]
  refine ⟨?_, hstock⟩
  rw [nextDayOn, hadd, hbonus, halloc]

end Days

/-! ### Runs -/

/-- A call on a trade: money for orders comes from `allowed`, and a day is begun under the
condition `cond` on the trade before it and on its date. -/
inductive Step (u : DividendUtil) (allowed : ℚ → Prop) (cond : MyTrade → Date → Prop) :
    MyTrade → MyTrade → Prop
  | buy {t : MyTrade} {money : ℚ} (h : allowed money) : Step u allowed cond t (t.buy money)
  | sell {t : MyTrade} {volume : ℤ} (h : 0 ≤ volume) (h' : volume < 2 ^ 31) :
      Step u allowed cond t (t.sell volume)
  | sellAll {t : MyTrade} : Step u allowed cond t t.sellAll
  | nextDay {t t' : MyTrade} {date : Date}
      (hdate : t.stock.getNextMarketOpenDate t.currentDate = some date) (hcond : cond t date)
      (hnext : t.nextDay u = some t') : Step u allowed cond t t'

/-- Any number of calls. -/
abbrev Run (u : DividendUtil) (allowed : ℚ → Prop) (cond : MyTrade → Date → Prop) :
    MyTrade → MyTrade → Prop :=
  Relation.ReflTransGen (Step u allowed cond)

/-- The day that `nextDay` begins. -/
theorem nextDay_eq {u : DividendUtil} {t t' : MyTrade} {date : Date}
    (hdate : t.stock.getNextMarketOpenDate t.currentDate = some date)
    (hnext : t.nextDay u = some t') :
  t' = t.nextDayOn u date
  := by
  rw [nextDay, hdate, Option.map_some, Option.some.injEq] at hnext
  exact hnext.symm

/-- No records at all. -/
def noDividends : DividendUtil := ⟨fun _ => [], fun _ => []⟩

/-- A stock that trades at 10.00 on the second of three days. -/
def tradingStock : MyStock := ⟨"600000.sh", [⟨2, 10, 10⟩], [1, 2, 3]⟩

/-- A stock that does not trade. -/
def suspendedStock : MyStock := ⟨"600000.sh", [], [1, 2, 3]⟩

theorem noDividends_none (symbol : String) :
  NoEntitlements noDividends symbol
  := ⟨rfl, rfl⟩

theorem tradingStock_positive :
  tradingStock.Positive
  := by
  intro r hr
  rw [List.mem_singleton.mp hr]
  decide

theorem tradingStock_cents :
  ∀ r ∈ tradingStock.prices, IsCents r.openPrice
  := by
  intro r hr
  rw [List.mem_singleton.mp hr]
  exact ⟨1000, by norm_num⟩

/-! ### Shares -/

/-- The shares of a trade. -/
def totalShares (t : MyTrade) : ℤ := t.shares + t.sharesOnTheWay

/-- What a day does to the shares: they change by what the pending orders buy and sell if the
stock trades, and not at all otherwise; no more is sold than is held. -/
structure SharesConserved (t t' : MyTrade) (date : Date) : Prop where
  trading : t.stock.isTradeDate date = true →
    t'.totalShares = t.totalShares + bought (t.fillsOn date) - sold (t.fillsOn date)
  suspended : t.stock.isTradeDate date = false →
    t'.totalShares = t.totalShares ∧ t'.operations = []
  sold_le : sold (t.fillsOn date) ≤ t.totalShares

/-- The days on which the slip of `SellOperation.withdraw` does no harm: there is no volume of
a pending sale to withdraw, and what is bought does not take the shares over the range of the
32-bit integers. -/
structure SharesFit (t : MyTrade) (date : Date) : Prop where
  withdrawn : t.stock.isTradeDate date = false →
    ∀ volume all, .sell volume all ∈ t.operations → volume = 0
  fit : t.totalShares + bought (t.fillsOn date) < 2 ^ 31

/-- What every run keeps of the shares. -/
structure SharesInv (stock : MyStock) (t : MyTrade) : Prop where
  stock : t.stock = stock
  orders : ∀ op ∈ t.operations, Order op
  shares : 0 ≤ t.shares
  sharesOnTheWay : 0 ≤ t.sharesOnTheWay
  total : t.totalShares < 2 ^ 31

section Shares

variable {u : DividendUtil} {stock : MyStock} {t t' : MyTrade} {date : Date}

theorem SharesInv.total_nonneg (h : SharesInv stock t) :
  0 ≤ t.totalShares
  := Int.add_nonneg h.shares h.sharesOnTheWay

theorem SharesInv.arrive (h : SharesInv stock t) :
  i32 (t.shares + t.sharesOnTheWay) = t.totalShares
  := i32_of_mem (Int.le_trans (by decide) h.total_nonneg) h.total

/-- Orders without a volume are withdrawn without effect on the shares. -/
theorem foldl_withdraw_shares {ops : List Operation}
    (h : ∀ volume all, .sell volume all ∈ ops → volume = 0) (hge : -2 ^ 31 ≤ t.shares)
    (hlt : t.shares < 2 ^ 31) :
  (ops.foldl withdraw t).shares = t.shares
    ∧ (ops.foldl withdraw t).sharesOnTheWay = t.sharesOnTheWay
  := by
  induction ops generalizing t with
  | nil => exact ⟨rfl, rfl⟩
  | cons op ops ih =>
    have hrest : ∀ volume all, .sell volume all ∈ ops → volume = 0 :=
      fun volume all hop => h volume all (List.mem_cons_of_mem _ hop)
    rw [List.foldl_cons]
    cases op with
    | dr volume => exact ih hrest hge hlt
    | buy money => exact ih (t := { t with cash := t.cash + money }) hrest hge hlt
    | sell volume all =>
      obtain rfl := h volume all List.mem_cons_self
      have hsame : (t.withdraw (.sell 0 all)).shares = t.shares := by
        simp only [withdraw, Int.add_zero]
        exact i32_of_mem hge hlt
      have hnext := ih (t := t.withdraw (.sell 0 all)) hrest (by omega) (by omega)
      rw [hsame] at hnext
      exact hnext

section

variable (h : SharesInv stock t)
include h

/-- What the orders of a day do to the shares, carried out or withdrawn. -/
theorem operate_shares (hpos : stock.Positive) (hfit : SharesFit t date) :
  ((operate (t.arrive date)).shares = t.totalShares - sold (t.fillsOn date)
      ∧ (operate (t.arrive date)).sharesOnTheWay = bought (t.fillsOn date))
    ∧ (0 ≤ bought (t.fillsOn date) ∧ 0 ≤ sold (t.fillsOn date)
      ∧ sold (t.fillsOn date) ≤ t.totalShares)
    ∧ (t.stock.isTradeDate date = false → t.fillsOn date = [])
  := by
  have hnonneg := h.total_nonneg
  have hroom := hfit.fit
  cases hprice : t.stock.getOpenPrice date with
  | some price =>
    have htrade := MyStock.isTradeDate_iff.mpr ⟨price, hprice⟩
    have hp : 0 < price := by
      rw [h.stock] at hprice
      exact hpos.openPrice hprice
    have hfills : t.fillsOn date = fills price t.totalShares t.operations := by
      simp only [fillsOn, hprice, h.arrive]
    have hopen : (t.arrive date).openDay.shares = t.totalShares := by
      rw [openDay_arrive_shares, h.arrive]
    rw [hfills] at hroom ⊢
    rw [operate_of_price (t := t.arrive date) hprice]
    have hfold := foldl_action_shares (t := (t.arrive date).openDay) hp hprice h.orders
      (by rw [hopen]; exact hnonneg) (by rw [hopen]; exact h.total) (le_refl 0)
      (by rw [hopen, openDay_sharesOnTheWay]; omega)
    rw [hopen, openDay_sharesOnTheWay, Int.zero_add] at hfold
    exact ⟨hfold, fills_bounds hp hnonneg t.operations, by simp [htrade]⟩
  | none =>
    have htrade : t.stock.isTradeDate date = false := by
      rw [← Bool.not_eq_true, MyStock.isTradeDate_iff, hprice]
      simp
    have hempty : t.fillsOn date = [] := by
      simp only [fillsOn, hprice]
    obtain ⟨hshares, hway⟩ :=
      foldl_withdraw_shares (t := t.arrive date) (hfit.withdrawn htrade) (le_i32 _)
      (i32_lt _)
    rw [operate_of_none (t := t.arrive date) hprice, hempty, ← h.arrive]
    exact ⟨⟨hshares.trans (Int.sub_zero _).symm, hway⟩,
      ⟨le_refl 0, le_refl 0, by rwa [h.arrive]⟩, fun _ => rfl⟩

/-- A day keeps what every run keeps, and conserves the shares. -/
theorem SharesInv.nextDayOn (hpos : stock.Positive) (hnone : NoEntitlements u stock.symbol)
    (hfit : SharesFit t date) :
  SharesInv stock (t.nextDayOn u date) ∧ SharesConserved t (t.nextDayOn u date) date
  := by
  have hroom := hfit.fit
  obtain ⟨hday, hstock⟩ := nextDayOn_eq (by rw [h.stock]; exact hnone) h.orders date
  obtain ⟨⟨hshares, hway⟩, ⟨hb, hsold, hle⟩, hempty⟩ := operate_shares h hpos hfit
  rw [hday]
  constructor
  · refine ⟨hstock.trans h.stock, by simp, ?_, ?_, ?_⟩
    all_goals
      simp only [totalShares, hshares, hway] at *
      omega
  · refine ⟨fun _ => ?_, fun hnot => ⟨?_, rfl⟩, hle⟩
    · simp only [totalShares, hshares, hway]
      omega
    · simp only [totalShares, hshares, hway, hempty hnot]
      exact (Int.add_zero _).trans (Int.sub_zero _)

theorem SharesInv.step (hpos : stock.Positive) (hnone : NoEntitlements u stock.symbol)
    {allowed : ℚ → Prop} (hstep : Step u allowed SharesFit t t') :
  SharesInv stock t'
  := by
  cases hstep with
  | buy | sell | sellAll =>
    refine ⟨h.stock, ?_, h.shares, h.sharesOnTheWay, h.total⟩
    exact List.forall_mem_append.mpr ⟨h.orders, List.forall_mem_singleton.mpr trivial⟩
  | nextDay hdate hfit hnext =>
    rw [nextDay_eq hdate hnext]
    exact (h.nextDayOn hpos hnone hfit).1

end

theorem SharesInv.run (hpos : stock.Positive) (hnone : NoEntitlements u stock.symbol)
    {allowed : ℚ → Prop} {startDate : Date}
    (hrun : Run u allowed SharesFit (new stock startDate) t) :
  SharesInv stock t
  := by
  induction hrun with
  | refl => exact ⟨rfl, by simp [new], le_refl 0, le_refl 0, by simp [totalShares, new]⟩
  | tail _ hstep ih => exact ih.step hpos hnone hstep

/-- In every run whose days fit, the shares are not negative, and every day that fits conserves
them. -/
theorem shares_conserved (hpos : stock.Positive) (hnone : NoEntitlements u stock.symbol)
    {startDate : Date} (hrun : Run u (fun _ => True) SharesFit (new stock startDate) t) :
  0 ≤ t.shares ∧ 0 ≤ t.sharesOnTheWay
    ∧ ∀ t' date, t.stock.getNextMarketOpenDate t.currentDate = some date → SharesFit t date →
      t.nextDay u = some t' → SharesConserved t t' date
  := by
  have hinv := SharesInv.run hpos hnone hrun
  refine ⟨hinv.shares, hinv.sharesOnTheWay, ?_⟩
  intro t' date hdate hfit hnext
  rw [nextDay_eq hdate hnext]
  exact (hinv.nextDayOn hpos hnone hfit).2

end Shares

/-- A day on which an order for 1500.00 buys one lot. -/
theorem shares_conserved_one_lot :
  SharesConserved ((new tradingStock 1).buy 1500)
    (((new tradingStock 1).buy 1500).nextDayOn noDividends 2) 2
  := by
  have hrun : Run noDividends (fun _ => True) SharesFit (new tradingStock 1)
      ((new tradingStock 1).buy 1500) :=
    Relation.ReflTransGen.single (Step.buy trivial)
  apply (shares_conserved tradingStock_positive (noDividends_none _) hrun).2.2 _ 2 rfl _ rfl
  constructor
  · intro hnot
    contradiction
  · decide +kernel

/-- An order to sell 100 shares of none is withdrawn, and 100 shares appear. -/
theorem not_sharesConserved_withdrawn_sale :
  Run noDividends (fun _ => True) (fun _ _ => True) (new suspendedStock 1)
      ((new suspendedStock 1).sell 100)
    ∧ ((new suspendedStock 1).sell 100).nextDay noDividends
      = some (((new suspendedStock 1).sell 100).nextDayOn noDividends 2)
    ∧ ¬ SharesConserved ((new suspendedStock 1).sell 100)
      (((new suspendedStock 1).sell 100).nextDayOn noDividends 2) 2
  := by
  refine ⟨Relation.ReflTransGen.single (Step.sell (by decide) (by decide)), rfl, ?_⟩
  intro h
  have htotal := (h.suspended rfl).1
  exact absurd htotal (by decide +kernel)

/-! ### Cash -/

/-- The money of a trade: its cash, what is on the way and what pending orders hold. -/
def totalCash (t : MyTrade) : ℚ := t.cash + t.cashOnTheWay + t.pendingMoney

/-- What a day does to the money: it changes by what the executed orders bring and take. -/
def CashConserved (t t' : MyTrade) (date : Date) : Prop :=
  t'.totalCash = t.totalCash + proceeds (t.fillsOn date) - paid (t.fillsOn date)

/-- The cash that orders overwrite: an order that buys nothing replaces the cash there is by its
own money. -/
def overwritten (price : ℚ) : (cash : ℚ) → List Operation → ℚ
  | _, [] => 0
  | cash, .buy money :: ops =>
    if Buys price money then
      let amount := price * buyVolume money price
      overwritten price (cash + (money - (amount + cost amount buyTax))) ops
    else
      cash + overwritten price money ops
  | cash, .dr _ :: ops => overwritten price cash ops
  | cash, .sell _ _ :: ops => overwritten price cash ops

/-- The days on which the slip of `BuyOperation.action` does no harm: the stock does not trade,
or the cash that the pending orders overwrite comes to nothing. -/
def CashKept (t : MyTrade) (date : Date) : Prop :=
  ∀ price, t.stock.getOpenPrice date = some price →
    overwritten price (t.cash + t.cashOnTheWay) t.operations = 0

section Cash

variable {u : DividendUtil} {stock : MyStock} {t t' : MyTrade} {date : Date} {price money : ℚ}
  {volume : ℤ} {all : Bool}

theorem isCents_cost (amount tax : ℚ) :
  IsCents (cost amount tax)
  := isCents_roundCents _

/-- The cash after a purchase in whole cents. -/
theorem buyAction_cash (hprice : IsCents price) (hmoney : IsCents money)
    (hbuys : Buys price money) :
  (t.buyAction money price).cash
      = t.cash + (money - (price * buyVolume money price
        + cost (price * buyVolume money price) buyTax))
    ∧ (t.buyAction money price).cashOnTheWay = t.cashOnTheWay
    ∧ (t.buyAction money price).shares = t.shares
  := by
  have hamount := hprice.mul_int (buyVolume money price)
  have hleft : IsCents (money - (price * buyVolume money price
      + cost (price * buyVolume money price) buyTax)) :=
    hmoney.sub (hamount.add (isCents_cost _ _))
  rw [buyAction_of hbuys, hamount.roundCents_eq, hleft.roundCents_eq]
  exact ⟨rfl, rfl, rfl⟩

/-- The cash after a sale in whole cents. -/
theorem sellAction_cash (hprice : IsCents price)
    (hsells : Sells price (sellVolume t.shares volume all)) :
  (t.sellAction volume all price).cash = t.cash
    ∧ (t.sellAction volume all price).cashOnTheWay
      = t.cashOnTheWay + (price * sellVolume t.shares volume all
        - cost (price * sellVolume t.shares volume all) sellTax)
  := by
  have hamount := hprice.mul_int (sellVolume t.shares volume all)
  have hnet := hamount.sub (isCents_cost (price * sellVolume t.shares volume all) sellTax)
  obtain ⟨hcash, hway⟩ := sellAction_money (t := t) hsells
  rw [mul_comm ((sellVolume t.shares volume all : ℤ) : ℚ) price, hamount.roundCents_eq,
    hnet.roundCents_eq, ite_self] at hway
  exact ⟨hcash, hway⟩

theorem paid_cons (f : Fill) (fs : List Fill) :
  paid (f :: fs) = f.paid + paid fs
  := List.sum_cons

theorem proceeds_cons (f : Fill) (fs : List Fill) :
  proceeds (f :: fs) = f.proceeds + proceeds fs
  := List.sum_cons

/-- The cash after orders are carried out at a price. -/
theorem foldl_action_cash {ops : List Operation} (hp : 0 < price) (hcents : IsCents price)
    (hprice : t.stock.getOpenPrice t.currentDate = some price) (hops : ∀ op ∈ ops, Order op)
    (hmoney : ∀ op ∈ ops, IsCents (moneyOf op)) (hlt : t.shares < 2 ^ 31) :
  (ops.foldl action t).cash
      = t.cash + (ops.map moneyOf).sum - paid (fills price t.shares ops)
        - overwritten price t.cash ops
    ∧ (ops.foldl action t).cashOnTheWay
      = t.cashOnTheWay + proceeds (fills price t.shares ops)
  := by
  have hinv := foldl_action_invariant price
    (I := fun t' rest => (∀ op ∈ rest, IsCents (moneyOf op)) ∧ t'.shares < 2 ^ 31
      ∧ t'.cash + (rest.map moneyOf).sum - paid (fills price t'.shares rest)
          - overwritten price t'.cash rest
        = t.cash + (ops.map moneyOf).sum - paid (fills price t.shares ops)
          - overwritten price t.cash ops
      ∧ t'.cashOnTheWay + proceeds (fills price t'.shares rest)
        = t.cashOnTheWay + proceeds (fills price t.shares ops))
    ?_ ?_ hprice hops ⟨hmoney, hlt, rfl, rfl⟩
  · obtain ⟨-, -, hcash, hway⟩ := hinv
    simpa [fills, paid, proceeds, overwritten] using And.intro hcash hway
  · rintro t' money rest ⟨hmoney', hlt', hcash, hway⟩
    obtain ⟨hm, hmrest⟩ := List.forall_mem_cons.mp hmoney'
    simp only [List.map_cons, List.sum_cons, moneyOf] at hm hcash
    by_cases hbuys : Buys price money
    · obtain ⟨hc, hw, hs⟩ := buyAction_cash (t := t') hcents hm hbuys
      rw [fills_buy hbuys, paid_cons] at hcash
      rw [fills_buy hbuys, proceeds_cons] at hway
      simp only [overwritten, if_pos hbuys, Fill.paid, Fill.proceeds] at hcash hway
      rw [hc, hw, hs]
      exact ⟨hmrest, hlt', by linarith, by linarith⟩
    · rw [fills_buy_of_not hbuys] at hcash hway
      simp only [overwritten, if_neg hbuys] at hcash
      rw [buyAction_of_not hbuys]
      exact ⟨hmrest, hlt', by linarith, hway⟩
  · rintro t' volume all rest ⟨hmoney', hlt', hcash, hway⟩
    obtain ⟨-, hmrest⟩ := List.forall_mem_cons.mp hmoney'
    simp only [List.map_cons, List.sum_cons, moneyOf, zero_add] at hcash
    by_cases hsells : Sells price (sellVolume t'.shares volume all)
    · have hpos := hsells.volume_pos hp
      obtain ⟨hs, -⟩ := sellAction_shares hp hlt' hsells
      obtain ⟨hc, hw⟩ := sellAction_cash (t := t') hcents hsells
      rw [fills_sell hsells, paid_cons] at hcash
      rw [fills_sell hsells, proceeds_cons] at hway
      simp only [overwritten, Fill.paid, Fill.proceeds] at hcash hway
      rw [hc, hw, hs]
      exact ⟨hmrest, by omega, by linarith, by linarith⟩
    · rw [fills_sell_of_not hsells] at hcash hway
      rw [sellAction_of_not hsells]
      exact ⟨hmrest, hlt', hcash, hway⟩

/-- Orders that are withdrawn give their money back. -/
theorem foldl_withdraw_cash (t : MyTrade) (ops : List Operation) :
  (ops.foldl withdraw t).cash = t.cash + (ops.map moneyOf).sum
    ∧ (ops.foldl withdraw t).cashOnTheWay = t.cashOnTheWay
  := by
  induction ops generalizing t with
  | nil => simp
  | cons op ops ih =>
    obtain ⟨hcash, hway⟩ := ih (t.withdraw op)
    rw [List.foldl_cons, List.map_cons, List.sum_cons, hcash, hway]
    cases op with
    | dr volume => simp [withdraw, moneyOf]
    | buy money =>
      simp only [withdraw, moneyOf]
      constructor
      · ring
      · trivial
    | sell volume all => simp [withdraw, moneyOf]

/-- What every run in whole cents keeps of the orders. -/
structure CashInv (stock : MyStock) (t : MyTrade) : Prop where
  stock : t.stock = stock
  orders : ∀ op ∈ t.operations, Order op
  money : ∀ op ∈ t.operations, IsCents (moneyOf op)

/-- The money after a day, whatever was overwritten. -/
theorem CashInv.nextDayOn (h : CashInv stock t) (hpos : stock.Positive)
    (hcents : ∀ r ∈ stock.prices, IsCents r.openPrice) (hnone : NoEntitlements u stock.symbol) :
  CashConserved t (t.nextDayOn u date) date ↔ CashKept t date
  := by
  obtain ⟨hday, -⟩ := nextDayOn_eq (by rw [h.stock]; exact hnone) h.orders date
  have htotal : (t.nextDayOn u date).totalCash
      = (operate (t.arrive date)).cash + (operate (t.arrive date)).cashOnTheWay := by
    rw [hday]
    simp [totalCash, pendingMoney]
  cases hprice : t.stock.getOpenPrice date with
  | some price =>
    have hrow : stock.getOpenPrice date = some price := by
      rw [← h.stock]
      exact hprice
    obtain ⟨r, hr, hrprice⟩ := MyStock.exists_row hrow
    have hc : IsCents price := by
      rw [← hrprice]
      exact hcents r hr
    have hshares := openDay_arrive_shares t date
    obtain ⟨hcash, hway⟩ := foldl_action_cash (t := (t.arrive date).openDay)
      (hpos.openPrice hrow) hc hprice h.orders h.money (by rw [hshares]; exact i32_lt _)
    have hfills : t.fillsOn date
        = fills price (i32 (t.shares + t.sharesOnTheWay)) t.operations := by
      simp only [fillsOn, hprice]
    obtain ⟨hcash₀, hway₀⟩ := openDay_arrive_cash t date
    rw [hshares, ← hfills, hcash₀] at hcash
    rw [hshares, ← hfills, hway₀] at hway
    have hkept : CashKept t date
        ↔ overwritten price (t.cash + t.cashOnTheWay) t.operations = 0 := by
      constructor
      · intro hk
        exact hk price hprice
      · intro hz price' hprice'
        rw [hprice] at hprice'
        rw [← Option.some.inj hprice']
        exact hz
    have harrive : (t.arrive date).operations = t.operations := rfl
    rw [hkept, CashConserved, htotal, operate_of_price (t := t.arrive date) hprice, harrive,
      hcash, hway, totalCash, pendingMoney]
    constructor
    · intro heq
      linarith
    · intro hz
      rw [hz]
      ring
  | none =>
    have hempty : t.fillsOn date = [] := by
      simp only [fillsOn, hprice]
    obtain ⟨hcash, hway⟩ := foldl_withdraw_cash (t.arrive date) t.operations
    have harrive : (t.arrive date).operations = t.operations := rfl
    have hconserved : CashConserved t (t.nextDayOn u date) date := by
      rw [CashConserved, htotal, operate_of_none (t := t.arrive date) hprice, harrive, hcash,
        hway, hempty]
      simp only [MyTrade.arrive, totalCash, pendingMoney, proceeds, paid, List.map_nil,
        List.sum_nil]
      ring
    have hkept : CashKept t date := by
      intro price hsome
      rw [hprice] at hsome
      contradiction
    exact iff_of_true hconserved hkept

theorem CashInv.addOrder (h : CashInv stock t) {op : Operation} (hop : Order op)
    (hmoney : IsCents (moneyOf op)) :
  CashInv stock { t with operations := t.operations ++ [op] }
  := by
  refine ⟨h.stock, ?_, ?_⟩
  · exact List.forall_mem_append.mpr ⟨h.orders, List.forall_mem_singleton.mpr hop⟩
  · exact List.forall_mem_append.mpr ⟨h.money, List.forall_mem_singleton.mpr hmoney⟩

theorem CashInv.afterDay (h : CashInv stock t) (hnone : NoEntitlements u stock.symbol) :
  CashInv stock (t.nextDayOn u date)
  := by
  obtain ⟨hday, hstock⟩ := nextDayOn_eq (by rw [h.stock]; exact hnone) h.orders date
  rw [hday]
  exact ⟨hstock.trans h.stock, by simp, by simp⟩

theorem CashInv.step (h : CashInv stock t) (hnone : NoEntitlements u stock.symbol)
    {cond : MyTrade → Date → Prop} (hstep : Step u IsCents cond t t') :
  CashInv stock t'
  := by
  cases hstep with
  | buy hmoney => exact h.addOrder trivial hmoney
  | sell | sellAll => exact h.addOrder trivial IsCents.zero
  | nextDay hdate _ hnext =>
    rw [nextDay_eq hdate hnext]
    exact h.afterDay hnone

theorem CashInv.run (hnone : NoEntitlements u stock.symbol) {cond : MyTrade → Date → Prop}
    {startDate : Date} (hrun : Run u IsCents cond (new stock startDate) t) :
  CashInv stock t
  := by
  induction hrun with
  | refl => exact ⟨rfl, by simp [new], by simp [new]⟩
  | tail _ hstep ih => exact ih.step hnone hstep

/-- In every state that a run in whole cents reaches, the coming day conserves the money exactly
if the cash that its orders overwrite comes to nothing. -/
theorem cash_conserved_iff (hpos : stock.Positive)
    (hcents : ∀ r ∈ stock.prices, IsCents r.openPrice) (hnone : NoEntitlements u stock.symbol)
    {startDate : Date} (hrun : Run u IsCents (fun _ _ => True) (new stock startDate) t)
    (hdate : t.stock.getNextMarketOpenDate t.currentDate = some date)
    (hnext : t.nextDay u = some t') :
  CashConserved t t' date ↔ CashKept t date
  := by
  rw [nextDay_eq hdate hnext]
  exact (CashInv.run hnone hrun).nextDayOn hpos hcents hnone

end Cash

/-- The day on which an order for 1500.00 buys one lot. -/
theorem cash_conserved_iff_one_lot :
  CashConserved ((new tradingStock 1).buy 1500)
    (((new tradingStock 1).buy 1500).nextDayOn noDividends 2) 2
  := by
  have hrun : Run noDividends IsCents (fun _ _ => True) (new tradingStock 1)
      ((new tradingStock 1).buy 1500) :=
    Relation.ReflTransGen.single (Step.buy ⟨150000, by norm_num⟩)
  apply (cash_conserved_iff tradingStock_positive tradingStock_cents (noDividends_none _) hrun
    rfl rfl).mpr
  intro price hprice
  obtain rfl : 10 = price := Option.some.inj hprice
  decide +kernel

/-- An order for 1500.00 buys one lot and leaves 495.00; the order for 500.00 after it buys
nothing and puts its money in their place. -/
theorem not_cashConserved_small_order :
  Run noDividends IsCents (fun _ _ => True) (new tradingStock 1)
      (((new tradingStock 1).buy 1500).buy 500)
    ∧ (((new tradingStock 1).buy 1500).buy 500).nextDay noDividends
      = some ((((new tradingStock 1).buy 1500).buy 500).nextDayOn noDividends 2)
    ∧ ¬ CashConserved (((new tradingStock 1).buy 1500).buy 500)
      ((((new tradingStock 1).buy 1500).buy 500).nextDayOn noDividends 2) 2
  := by
  have hfirst : Step noDividends IsCents (fun _ _ => True) (new tradingStock 1)
      ((new tradingStock 1).buy 1500) :=
    Step.buy ⟨150000, by norm_num⟩
  refine ⟨(Relation.ReflTransGen.single hfirst).tail (Step.buy ⟨50000, by norm_num⟩), rfl, ?_⟩
  unfold CashConserved
  decide +kernel

end MyTrade
