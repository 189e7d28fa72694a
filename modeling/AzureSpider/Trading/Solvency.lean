import AzureSpider.Trading.MyPortfolio
import Mathlib.Algebra.Order.BigOperators.Group.List

/-!
# Solvency

The cash of a portfolio, over runs of its calls.  An order may cost more than the money that it
reserves: its lots are counted for all of the money, and the commission comes on top.  A sale
of less than the least commission costs more than it brings.  Where neither happens, the cash
is never negative.
-/

open Machine Decimal

namespace MyTrade

/-! ### Costs -/

/-- The orders that a day executes are covered: an order to buy leaves enough of its money
beside its lots for the commission, and a sale is worth 5.01 at least. -/
structure Covered (t : MyTrade) (date : Date) : Prop where
  buys : ∀ price money, t.stock.getOpenPrice date = some price → .buy money ∈ t.operations →
    Buys price money → cost (roundCents (price * buyVolume money price)) buyTax
      ≤ money - roundCents (price * buyVolume money price)
  sells : ∀ volume amount cost, .sold volume amount cost ∈ t.fillsOn date →
    501 / 100 ≤ roundCents amount

theorem roundCents_le {x : ℚ} (hx : 0 ≤ x) :
  roundCents x ≤ x + 1 / 200
  := by
  have hfloor := Int.floor_le (x * 100 + 1 / 2)
  rw [roundCents, if_pos hx]
  linarith

/-- A sale in whole cents that is worth 5.01 brings what it costs. -/
theorem cost_le_amount {amount : ℚ} (hcents : IsCents amount) (h : 501 / 100 ≤ amount) :
  cost amount sellTax ≤ amount
  := by
  obtain ⟨n, rfl⟩ := hcents
  have hn : 501 ≤ n := by
    have hq : (501 : ℚ) ≤ n := by linarith
    exact_mod_cast hq
  rcases eq_or_lt_of_le hn with rfl | hlt
  · decide +kernel
  have hq : (502 : ℚ) ≤ n := by exact_mod_cast hlt
  -- the commission is the least one or a thousandth
  have hcomm : roundCents (max minCommision ((n : ℚ) / 100 * commision))
      ≤ max 5 ((n : ℚ) / 100000 + 1 / 200) := by
    unfold minCommision commision
    rcases le_total ((n : ℚ) / 100 * (1 / 1000)) 5 with hle | hge
    · rw [max_eq_left hle]
      have hfive : IsCents 5 := ⟨500, by norm_num⟩
      rw [hfive.roundCents_eq]
      exact le_max_left _ _
    · rw [max_eq_right hge]
      apply le_trans (roundCents_le (by linarith))
      apply le_trans _ (le_max_right _ _)
      linarith
  have hnonneg : 0 ≤ roundCents (max minCommision ((n : ℚ) / 100 * commision)) := by
    apply roundCents_nonneg
    unfold minCommision
    exact le_trans (by norm_num) (le_max_left _ _)
  have htax : (n : ℚ) / 100 * sellTax = n / 100000 := by
    unfold sellTax
    ring
  unfold cost
  rw [htax]
  apply le_trans (roundCents_le (by linarith))
  rcases le_max_iff.mp hcomm with hle | hle
  · linarith
  · linarith

/-! ### Trades -/

/-- A trade that owes nothing. -/
structure Solvent (t : MyTrade) : Prop where
  cash : 0 ≤ t.cash
  cashOnTheWay : 0 ≤ t.cashOnTheWay
  orders : ∀ op ∈ t.operations, Order op
  money : ∀ op ∈ t.operations, 0 ≤ moneyOf op
  allocShares : t.allocShares = 0
  bonusCash : 0 ≤ t.bonusCash
  positive : t.stock.Positive

/-- There are no allocations, and bonuses pay no negative amounts. -/
structure PaysOnly (u : DividendUtil) : Prop where
  allocWeights : ∀ symbol, u.allocWeights symbol = []
  weights : ∀ symbol, ∀ d ∈ u.weights symbol, 0 ≤ d.cashDiv

section Trades

variable {u : DividendUtil} {t : MyTrade} {date : Date} {price : ℚ} {ops : List Operation}

/-- The money after covered orders are carried out. -/
theorem foldl_action_solvent (hp : 0 < price)
    (hprice : t.stock.getOpenPrice t.currentDate = some price) (hops : ∀ op ∈ ops, Order op)
    (hmoney : ∀ op ∈ ops, 0 ≤ moneyOf op) (hlt : t.shares < 2 ^ 31)
    (hbuys : ∀ money, .buy money ∈ ops → Buys price money →
      cost (roundCents (price * buyVolume money price)) buyTax
        ≤ money - roundCents (price * buyVolume money price))
    (hsells : ∀ volume amount cost, .sold volume amount cost ∈ fills price t.shares ops →
      501 / 100 ≤ roundCents amount)
    (hcash : 0 ≤ t.cash) (hway : 0 ≤ t.cashOnTheWay) :
  0 ≤ (ops.foldl action t).cash ∧ 0 ≤ (ops.foldl action t).cashOnTheWay
  := by
  have hinv := foldl_action_invariant price
    (I := fun t' rest => (∀ op ∈ rest, op ∈ ops) ∧ t'.shares < 2 ^ 31
      ∧ (∀ volume amount cost, .sold volume amount cost ∈ fills price t'.shares rest →
        501 / 100 ≤ roundCents amount)
      ∧ 0 ≤ t'.cash ∧ 0 ≤ t'.cashOnTheWay)
    ?_ ?_ hprice hops ⟨fun _ h => h, hlt, hsells, hcash, hway⟩
  · exact hinv.2.2.2
  · rintro t' money rest ⟨hmem, hlt', hsells', hcash', hway'⟩
    obtain ⟨hop, hrest⟩ := List.forall_mem_cons.mp hmem
    by_cases hb : Buys price money
    · rw [fills_buy hb] at hsells'
      have hcover := hbuys money hop hb
      have hleft : 0 ≤ roundCents (money - (roundCents (price * buyVolume money price)
          + cost (roundCents (price * buyVolume money price)) buyTax)) :=
        roundCents_nonneg (by linarith)
      rw [buyAction_of hb]
      refine ⟨hrest, hlt', ?_, add_nonneg hcash' hleft, hway'⟩
      intro volume amount cost hsold
      exact hsells' volume amount cost (List.mem_cons_of_mem _ hsold)
    · rw [fills_buy_of_not hb] at hsells'
      rw [buyAction_of_not hb]
      exact ⟨hrest, hlt', hsells', hmoney _ hop, hway'⟩
  · rintro t' volume all rest ⟨hmem, hlt', hsells', hcash', hway'⟩
    obtain ⟨-, hrest⟩ := List.forall_mem_cons.mp hmem
    by_cases hs : Sells price (sellVolume t'.shares volume all)
    · rw [fills_sell hs] at hsells'
      have hvol := hs.volume_pos hp
      obtain ⟨hshares, -⟩ := sellAction_shares hp hlt' hs
      have hworth := hsells' _ _ _ List.mem_cons_self
      rw [mul_comm] at hworth
      have hnet := cost_le_amount (isCents_roundCents _) hworth
      obtain ⟨hc, hw⟩ := sellAction_money (t := t') hs
      rw [hshares, hc, hw]
      refine ⟨hrest, by omega, ?_, hcash', add_nonneg hway' ?_⟩
      · intro volume' amount' cost' hsold
        exact hsells' volume' amount' cost' (List.mem_cons_of_mem _ hsold)
      · split
        · linarith
        · apply roundCents_nonneg
          linarith
    · rw [fills_sell_of_not hs] at hsells'
      rw [sellAction_of_not hs]
      exact ⟨hrest, hlt', hsells', hcash', hway'⟩

/-- A settlement, if there is one, comes after the orders. -/
theorem addEntitlement_cases (u : DividendUtil) (t : MyTrade) :
  addEntitlement u t = t
    ∨ 0 < t.entitledVolume
      ∧ addEntitlement u t = { t with operations := t.operations ++ [.dr t.entitledVolume] }
  := by
  unfold addEntitlement
  split
  · rename_i h
    exact .inr ⟨h.2, rfl⟩
  · exact .inl rfl

/-- What the operations of a day leave in a trade. -/
structure Operated (t t' : MyTrade) : Prop where
  cash : 0 ≤ t'.cash
  cashOnTheWay : 0 ≤ t'.cashOnTheWay
  allocShares : t'.allocShares = 0
  bonusCash : 0 ≤ t'.bonusCash
  stock : t'.stock = t.stock

/-- A settlement without an allocation pays. -/
theorem Operated.drAction {t' : MyTrade} (h : Operated t t') {volume : ℤ} (hv : 0 < volume) :
  Operated t (t'.drAction volume)
  := by
  have hq : (0 : ℚ) ≤ volume := by exact_mod_cast hv.le
  have hpay : 0 ≤ roundCents (volume * t'.bonusCash) :=
    roundCents_nonneg (mul_nonneg hq h.bonusCash)
  have halloc : toInt32 (volume * t'.allocShares) = 0 := by
    rw [h.allocShares, mul_zero]
    exact toInt32_intCast (n := 0) (by decide) (by decide)
  have hcharge : roundCents ((toInt32 (volume * t'.allocShares) : ℤ) * t'.allocPrice) = 0 := by
    rw [halloc, Int.cast_zero, zero_mul, IsCents.zero.roundCents_eq]
  refine ⟨h.cash, ?_, h.allocShares, le_refl 0, h.stock⟩
  show 0 ≤ t'.cashOnTheWay - roundCents (toInt32 (volume * t'.allocShares) * t'.allocPrice)
    + roundCents (volume * t'.bonusCash)
  have hway := h.cashOnTheWay
  rw [hcharge]
  linarith

theorem Operated.of_same {t₁ t₂ : MyTrade} (h : Solvent t) (hsame : SameTrade t₁ t₂)
    (hregistered : t₁.registered = t.registered) (hstock : t₁.stock = t.stock)
    (hcash : 0 ≤ t₂.cash) (hway : 0 ≤ t₂.cashOnTheWay) :
  Operated t t₂
  := by
  have hreg := hsame.registered.trans hregistered
  refine ⟨hcash, hway, ?_, ?_, hsame.stock.trans hstock⟩
  · exact (congrArg Registered.allocShares hreg).trans h.allocShares
  · exact le_of_le_of_eq h.bonusCash (congrArg Registered.bonusCash hreg).symm

/-- The orders of a day, carried out. -/
theorem Solvent.carryOut (h : Solvent t) (hc : Covered t date)
    (hprice : t.stock.getOpenPrice date = some price) {l : List Operation} :
  Operated t (t.operations.foldl action { t.arrive date with operations := l }.openDay)
  := by
  have hshares : ({ t.arrive date with operations := l } : MyTrade).openDay.shares
      = i32 (t.shares + t.sharesOnTheWay) := openDay_arrive_shares t date
  have hfills : t.fillsOn date
      = fills price ({ t.arrive date with operations := l } : MyTrade).openDay.shares
        t.operations := by
    rw [hshares]
    simp only [fillsOn, hprice]
  obtain ⟨hcash, hway⟩ := foldl_action_solvent
    (t := ({ t.arrive date with operations := l } : MyTrade).openDay)
    (h.positive.openPrice hprice) hprice h.orders h.money (by rw [hshares]; exact i32_lt _)
    (fun money hmem hb => hc.buys price money hprice hmem hb)
    (by rw [← hfills]; exact hc.sells) (add_nonneg h.cash h.cashOnTheWay) (le_refl 0)
  have hsame := foldl_same (fun t op hop => action_same t (h.orders op hop))
    ({ t.arrive date with operations := l } : MyTrade).openDay
  exact Operated.of_same h hsame rfl rfl hcash hway

theorem sum_moneyOf_nonneg (hmoney : ∀ op ∈ ops, 0 ≤ moneyOf op) :
  0 ≤ (ops.map moneyOf).sum
  := by
  apply List.sum_nonneg
  intro x hx
  obtain ⟨op, hop, rfl⟩ := List.mem_map.mp hx
  exact hmoney op hop

/-- The orders of a day, withdrawn. -/
theorem Solvent.takeBack (h : Solvent t) {l : List Operation} :
  Operated t (t.operations.foldl withdraw { t.arrive date with operations := l })
  := by
  obtain ⟨hcash, hway⟩ :=
    foldl_withdraw_cash ({ t.arrive date with operations := l } : MyTrade) t.operations
  have hsum := sum_moneyOf_nonneg h.money
  have hframe : SameTrade { t.arrive date with operations := l }
      (t.operations.foldl withdraw { t.arrive date with operations := l }) :=
    foldl_same (fun t op _ => withdraw_same t op) _
  apply Operated.of_same h hframe rfl rfl
  · rw [hcash]
    exact add_nonneg (add_nonneg h.cash h.cashOnTheWay) hsum
  · rw [hway]
    exact le_refl 0

theorem Solvent.operate (h : Solvent t) (hc : Covered t date) :
  Operated t (operate (addEntitlement u (t.arrive date)))
  := by
  cases hprice : t.stock.getOpenPrice date with
  | some price =>
    rcases addEntitlement_cases u (t.arrive date) with heq | ⟨hv, heq⟩
    · rw [heq, operate_of_price (t := t.arrive date) hprice]
      exact h.carryOut hc hprice (l := t.operations)
    · rw [heq, operate_of_price (by exact hprice), List.foldl_append]
      exact (h.carryOut hc hprice).drAction hv
  | none =>
    rcases addEntitlement_cases u (t.arrive date) with heq | ⟨-, heq⟩
    · rw [heq, operate_of_none (t := t.arrive date) hprice]
      exact h.takeBack (l := t.operations)
    · rw [heq, operate_of_none (by exact hprice), List.foldl_append]
      exact h.takeBack

/-- Registering a bonus keeps what the operations left. -/
theorem Operated.registerBonus {t' : MyTrade} (hu : PaysOnly u) (h : Operated t t') :
  Operated t (registerBonus u t')
  := by
  unfold MyTrade.registerBonus
  split
  · rename_i bonus hbonus
    obtain ⟨hmem, -⟩ := DividendUtil.find_mem hbonus
    exact ⟨h.cash, h.cashOnTheWay, h.allocShares, hu.weights _ bonus hmem, h.stock⟩
  · exact h

theorem registerAlloc_eq (hu : PaysOnly u) (t : MyTrade) :
  registerAlloc u t = t
  := by
  unfold MyTrade.registerAlloc DividendUtil.getAllocEntitlement
  rw [hu.allocWeights]
  rfl

theorem Solvent.nextDayOn (h : Solvent t) (hu : PaysOnly u) (hc : Covered t date) :
  Solvent (t.nextDayOn u date)
  := by
  obtain ⟨hcash, hway, halloc, hbonus, hstock⟩ := (h.operate (u := u) hc).registerBonus hu
  rw [MyTrade.nextDayOn, registerAlloc_eq hu]
  refine ⟨hcash, hway, by simp, by simp, halloc, hbonus, ?_⟩
  simp only [hstock]
  exact h.positive

theorem Solvent.addOrder (h : Solvent t) {op : Operation} (hop : Order op)
    (hmoney : 0 ≤ moneyOf op) :
  Solvent { t with operations := t.operations ++ [op] }
  := by
  refine { h with orders := ?_, money := ?_ }
  · exact List.forall_mem_append.mpr ⟨h.orders, List.forall_mem_singleton.mpr hop⟩
  · exact List.forall_mem_append.mpr ⟨h.money, List.forall_mem_singleton.mpr hmoney⟩

end Trades

end MyTrade

namespace MyPortfolio

open MyTrade

/-- A portfolio that has not spent more than it had. -/
structure Solvent (p : MyPortfolio) : Prop where
  cash : 0 ≤ p.cash
  trades : ∀ t ∈ p.trades, t.Solvent

/-- The coming day of every trade is covered. -/
def Covered (p : MyPortfolio) : Prop :=
  ∀ t ∈ p.trades, ∀ date, t.stock.getNextMarketOpenDate t.currentDate = some date →
    t.Covered date

/-- A call on a portfolio; a day is begun under the condition `cond`. -/
inductive Step (db : StockDb) (u : DividendUtil) (cond : MyPortfolio → Prop) :
    MyPortfolio → MyPortfolio → Prop
  | buy (p : MyPortfolio) (symbol : String) (amount : ℚ) :
      Step db u cond p (p.buy db symbol amount)
  | sell (p : MyPortfolio) (symbol : String) (volume : ℤ) :
      Step db u cond p (p.sell symbol volume)
  | sellAll (p : MyPortfolio) (symbol : String) : Step db u cond p (p.sellAll symbol)
  | sellAmount (p : MyPortfolio) (symbol : String) (amount : ℚ) :
      Step db u cond p (p.sellAmount symbol amount)
  | trade (p : MyPortfolio) (weights : List (String × ℚ)) : Step db u cond p (p.trade db weights)
  | nextDay (p : MyPortfolio) (h : cond p) : Step db u cond p (p.nextDay u)

section Portfolios

variable {db : StockDb} {u : DividendUtil} {p p' : MyPortfolio} {symbol : String} {amount : ℚ}

/-- The prices in the database are positive. -/
def Positive (db : StockDb) : Prop := ∀ symbol, ∀ r ∈ db.prices symbol, 0 < r.openPrice

theorem onFirst_forall {P : MyTrade → Prop} {f : MyTrade → MyTrade} {ts ts' : List MyTrade}
    (h : onFirst symbol f ts = some ts') (hts : ∀ t ∈ ts, P t) (hf : ∀ t, P t → P (f t)) :
  ∀ t ∈ ts', P t
  := by
  induction ts generalizing ts' with
  | nil => simp [onFirst] at h
  | cons t ts ih =>
    obtain ⟨hhead, htail⟩ := List.forall_mem_cons.mp hts
    unfold onFirst at h
    split at h
    · obtain rfl := Option.some.inj h
      exact List.forall_mem_cons.mpr ⟨hf t hhead, htail⟩
    · obtain ⟨ts₁, hts₁, rfl⟩ := Option.map_eq_some_iff.mp h
      exact List.forall_mem_cons.mpr ⟨hhead, ih hts₁ htail⟩

theorem Solvent.tryBuy (h : p.Solvent) (hdb : Positive db)
    (hp : p.tryBuy db symbol amount = some p') :
  p'.Solvent
  := by
  unfold MyPortfolio.tryBuy at hp
  split at hp
  · obtain rfl := Option.some.inj hp
    exact h
  · rename_i hguard
    obtain ⟨hle, hmin⟩ := not_or.mp hguard
    have hamount : 0 ≤ amount := by linarith
    have hcash : 0 ≤ p.cash - amount := by linarith
    split at hp
    · rename_i trades htrades
      obtain rfl := Option.some.inj hp
      refine ⟨hcash, ?_⟩
      apply onFirst_forall htrades h.trades
      intro t ht
      exact ht.addOrder trivial hamount
    · obtain ⟨today, -, rfl⟩ := Option.map_eq_some_iff.mp hp
      have hnew : (MyTrade.new (MyStock.load db symbol today p.endDate) today).Solvent := by
        refine ⟨le_refl 0, le_refl 0, by simp [MyTrade.new], by simp [MyTrade.new], rfl,
          le_refl 0, ?_⟩
        intro r hr
        exact hdb symbol r (List.mem_of_mem_filter hr)
      refine ⟨hcash, List.forall_mem_append.mpr ⟨h.trades, ?_⟩⟩
      exact List.forall_mem_singleton.mpr (hnew.addOrder trivial hamount)

theorem Solvent.change (h : p.Solvent) {f : MyTrade → MyTrade}
    (hf : ∀ t : MyTrade, t.Solvent → (f t).Solvent) :
  (p.change symbol f).Solvent
  := by
  unfold MyPortfolio.change
  split
  · rename_i trades htrades
    exact ⟨h.cash, onFirst_forall htrades h.trades hf⟩
  · exact h

theorem Solvent.sell (h : p.Solvent) (volume : ℤ) :
  (p.sell symbol volume).Solvent
  := by
  apply h.change
  intro t ht
  exact ht.addOrder trivial (le_refl 0)

theorem Solvent.trySellAmount (h : p.Solvent) (hp : p.trySellAmount symbol amount = some p') :
  p'.Solvent
  := by
  unfold MyPortfolio.trySellAmount at hp
  split at hp
  · obtain rfl := Option.some.inj hp
    exact h
  · split at hp
    · split at hp
      · contradiction
      · obtain rfl := Option.some.inj hp
        exact h.sell _
    · obtain rfl := Option.some.inj hp
      exact h

theorem getD_forall {α : Type} {P : α → Prop} {o : Option α} {a : α} (ha : P a)
    (ho : ∀ b, o = some b → P b) :
  P (o.getD a)
  := by
  cases o with
  | none => exact ha
  | some b => exact ho b rfl

theorem holdings_forall {P : MyTrade → Prop} {pandL : ℚ} {weights : List (String × ℚ)}
    {ts : List MyTrade} (hts : ∀ t ∈ ts, P t) (hsell : ∀ t, P t → P t.sellAll) :
  ∀ t ∈ (holdings pandL weights ts).1, P t
  := by
  induction ts with
  | nil => simp [holdings]
  | cons t ts ih =>
    obtain ⟨hhead, htail⟩ := List.forall_mem_cons.mp hts
    unfold holdings
    split
    · split
      · exact hts
      · exact List.forall_mem_cons.mpr ⟨hhead, ih htail⟩
    · exact List.forall_mem_cons.mpr ⟨hsell t hhead, ih htail⟩

theorem Solvent.rebalance (h : p.Solvent) (hdb : Positive db) {currentCash weight : ℚ}
    {held : List (String × ℚ)}
    (hp : MyPortfolio.rebalance db currentCash held p symbol weight = some p') :
  p'.Solvent
  := by
  unfold MyPortfolio.rebalance at hp
  split at hp
  · exact h.tryBuy hdb hp
  · split at hp
    · exact h.tryBuy hdb hp
    · exact h.trySellAmount hp

theorem Solvent.rebalanceAll (h : p.Solvent) (hdb : Positive db) {currentCash : ℚ}
    {held weights : List (String × ℚ)} :
  (MyPortfolio.rebalanceAll db currentCash held weights p).Solvent
  := by
  induction weights generalizing p with
  | nil => exact h
  | cons w rest ih =>
    obtain ⟨sym, weight⟩ := w
    unfold MyPortfolio.rebalanceAll
    split
    · rename_i p' hp'
      exact ih (h.rebalance hdb hp')
    · exact h

theorem Solvent.trade (h : p.Solvent) (hdb : Positive db) (weights : List (String × ℚ)) :
  (p.trade db weights).Solvent
  := by
  have hfirst :
      ({ p with trades := (holdings p.pandL weights p.trades).1 } : MyPortfolio).Solvent :=
    ⟨h.cash, holdings_forall h.trades fun t ht => ht.addOrder trivial (le_refl 0)⟩
  unfold MyPortfolio.trade
  simp only
  split
  · exact hfirst.rebalanceAll hdb
  · exact hfirst

/-- The loop of a day over covered trades. -/
theorem sweep_solvent (hu : PaysOnly u) {ts : List MyTrade} {cash : ℚ} (hcash : 0 ≤ cash)
    (hts : ∀ t ∈ ts, t.Solvent)
    (hc : ∀ t ∈ ts, ∀ date, t.stock.getNextMarketOpenDate t.currentDate = some date →
      t.Covered date) :
  (∀ t ∈ (sweep u ts cash).1, t.Solvent) ∧ 0 ≤ (sweep u ts cash).2.1
  := by
  induction ts generalizing cash with
  | nil => exact ⟨by simp [sweep], hcash⟩
  | cons t ts ih =>
    obtain ⟨hhead, htail⟩ := List.forall_mem_cons.mp hts
    obtain ⟨hchead, hctail⟩ := List.forall_mem_cons.mp hc
    unfold sweep
    split
    · rename_i t' hnext
      obtain ⟨date, hdate, rfl⟩ := Option.map_eq_some_iff.mp hnext
      have hday := hhead.nextDayOn hu (hchead date hdate)
      have hswept : 0 ≤ cash + (t.nextDayOn u date).getCash :=
        add_nonneg hcash (roundCents_nonneg hday.cash)
      obtain ⟨hrest, hcash'⟩ := ih hswept htail hctail
      refine ⟨List.forall_mem_cons.mpr ⟨?_, hrest⟩, hcash'⟩
      exact { hday with cash := le_refl 0 }
    · exact ⟨hts, hcash⟩

theorem Solvent.nextDay (h : p.Solvent) (hu : PaysOnly u) (hc : p.Covered) :
  (p.nextDay u).Solvent
  := by
  obtain ⟨htrades, hcash⟩ := sweep_solvent hu h.cash h.trades hc
  unfold MyPortfolio.nextDay
  simp only
  split
  · exact ⟨hcash, fun t ht => htrades t (List.mem_of_mem_filter ht)⟩
  · exact ⟨hcash, htrades⟩

theorem Solvent.step (h : p.Solvent) (hdb : Positive db) (hu : PaysOnly u)
    (hstep : Step db u Covered p p') :
  p'.Solvent
  := by
  cases hstep with
  | buy symbol amount => exact getD_forall h fun _ hp => h.tryBuy hdb hp
  | sell symbol volume => exact h.sell volume
  | sellAll symbol => exact h.change fun t ht => ht.addOrder trivial (le_refl 0)
  | sellAmount symbol amount => exact getD_forall h fun _ hp => h.trySellAmount hp
  | trade weights => exact h.trade hdb weights
  | nextDay hc => exact h.nextDay hu hc

/-- In every run whose days are covered, the cash of the portfolio is never negative. -/
theorem cash_nonneg_of_covered (hdb : Positive db) (hu : PaysOnly u) {tradingDates : List Date}
    {endDate : Date} {initCash : ℚ} (hinit : 0 ≤ initCash)
    (hrun : Relation.ReflTransGen (Step db u Covered) (new tradingDates endDate initCash) p) :
  0 ≤ p.cash
  := by
  have hsolvent : p.Solvent := by
    induction hrun with
    | refl => exact ⟨hinit, by simp [new]⟩
    | tail _ hstep ih => exact ih.step hdb hu hstep
  exact hsolvent.cash

end Portfolios

/-- A database with one stock, which trades at 10.00 on the second of three days. -/
def oneStock : StockDb where
  prices := fun _ => [⟨2, 10, 10⟩]
  marketOpenDates := [1, 2, 3]

theorem oneStock_positive :
  Positive oneStock
  := by
  intro symbol r hr
  rw [List.mem_singleton.mp hr]
  decide

theorem noDividends_paysOnly :
  PaysOnly noDividends
  := ⟨fun _ => rfl, fun _ _ hd => absurd hd List.not_mem_nil⟩

/-- An order for 1500.00 buys one lot, and what is left covers the commission. -/
theorem cash_nonneg_of_covered_one_lot :
  0 ≤ (((new [1, 2, 3] 3 2000).buy oneStock "600000.sh" 1500).nextDay noDividends).cash
  := by
  have hbuy : Step oneStock noDividends Covered (new [1, 2, 3] 3 2000)
      ((new [1, 2, 3] 3 2000).buy oneStock "600000.sh" 1500) := Step.buy _ _ _
  have htrades : ((new [1, 2, 3] 3 2000).buy oneStock "600000.sh" 1500).trades
      = [(MyTrade.new (MyStock.load oneStock "600000.sh" 1 3) 1).buy 1500] := by
    decide +kernel
  have hcovered : ((new [1, 2, 3] 3 2000).buy oneStock "600000.sh" 1500).Covered := by
    intro t ht date hdate
    rw [htrades] at ht
    obtain rfl := List.mem_singleton.mp ht
    obtain rfl : 2 = date := Option.some.inj hdate
    constructor
    · intro price money hprice hmoney _
      obtain rfl : 10 = price := Option.some.inj hprice
      obtain rfl : money = 1500 := by simpa using List.mem_singleton.mp hmoney
      decide +kernel
    · intro volume amount cost hmem
      have hfills : ((MyTrade.new (MyStock.load oneStock "600000.sh" 1 3) 1).buy 1500).fillsOn 2
          = [.bought 100 1000 5] := by
        decide +kernel
      rw [hfills] at hmem
      simp at hmem
  apply cash_nonneg_of_covered oneStock_positive noDividends_paysOnly (by norm_num : (0 : ℚ) ≤ 2000)
    ((Relation.ReflTransGen.single hbuy).tail (Step.nextDay _ hcovered))

/-- An order for all of the cash, 1000.00, buys one lot for 1000.00, and the commission of 5.00
is owed. -/
theorem not_cash_nonneg_whole_cash :
  Relation.ReflTransGen (Step oneStock noDividends fun _ => True) (new [1, 2, 3] 3 1000)
      (((new [1, 2, 3] 3 1000).buy oneStock "600000.sh" 1000).nextDay noDividends)
    ∧ ¬ 0 ≤ (((new [1, 2, 3] 3 1000).buy oneStock "600000.sh" 1000).nextDay noDividends).cash
  := by
  refine ⟨?_, by decide +kernel⟩
  exact (Relation.ReflTransGen.single (Step.buy _ _ _)).tail (Step.nextDay _ trivial)

end MyPortfolio
