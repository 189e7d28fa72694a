import AzureSpider.Trading.Conservation

/-!
# Entitlements

Bonuses and allocations of shares, over runs of a trade.  On the registration date of a record
the shares held are entitled; on the next day the market is open, which is the date of the
record, its shares and its cash are credited.

Two slips limit this.  A settlement that meets a suspension of the stock is dropped, and its
rates stay behind; and the rates of an allocation stay behind in any case.  What stays behind
is settled once more with a later record.
-/

open Machine Decimal

namespace MyTrade

/-! ### Credits -/

/-- Shares and cash that are credited. -/
structure Credit where
  shares : ℤ
  cash : ℚ
  deriving DecidableEq

/-- No credit. -/
def Credit.none : Credit := ⟨0, 0⟩

/-- The shares held. -/
def held (t : MyTrade) : ℤ := i32 (t.shares + t.sharesOnTheWay)

/-- The credit of a bonus for so many shares. -/
def bonusCredit (r : Dividend) (h : ℤ) : Credit :=
  ⟨i32 (toInt32 (h * r.stockDiv) + toInt32 (h * r.tranDiv)), roundCents (h * r.cashDiv)⟩

/-- The credit of an allocation for so many shares, which is paid for. -/
def allocCredit (r : Dividend) (h : ℤ) : Credit :=
  ⟨toInt32 (h * r.allocShare), -roundCents (toInt32 (h * r.allocShare) * r.allocPrice)⟩

/-- The credit that is due on the day after: that of the record that is registered today. -/
def due (u : DividendUtil) (t : MyTrade) : Credit :=
  if 0 < t.held then
    match u.getEntitlement t.stock.symbol t.currentDate .regDate with
    | some r => bonusCredit r t.held
    | none =>
      match u.getAllocEntitlement t.stock.symbol t.currentDate .regDate with
      | some r => allocCredit r t.held
      | none => Credit.none
  else
    Credit.none

/-- What a day does beyond its orders is to credit `c`: the accounts are those that carrying out
or withdrawing the orders leaves, but for the credit. -/
structure Credited (t t' : MyTrade) (date : Date) (c : Credit) : Prop where
  shares : t'.shares = (operate (t.arrive date)).shares
  sharesOnTheWay : t'.sharesOnTheWay = (operate (t.arrive date)).sharesOnTheWay + c.shares
  cash : t'.cash = (operate (t.arrive date)).cash
  cashOnTheWay : t'.cashOnTheWay = (operate (t.arrive date)).cashOnTheWay + c.cash

/-! ### Records -/

/-- `x` is the first day after `c` that the market is open. -/
structure FirstOpenAfter (stock : MyStock) (c x : Date) : Prop where
  mem : x ∈ stock.marketOpenDates
  lt : c < x
  least : ∀ y ∈ stock.marketOpenDates, c < y → x ≤ y

/-- The records of a symbol, of either kind. -/
def records (u : DividendUtil) (symbol : String) : List Dividend :=
  u.weights symbol ++ u.allocWeights symbol

/-- The calendar is in order, the date of each record is the first open day after its
registration, and no two records are registered on one date. -/
structure Orderly (u : DividendUtil) (stock : MyStock) : Prop where
  increasing : stock.marketOpenDates.Pairwise (· < ·)
  xDate : ∀ r ∈ records u stock.symbol, ∀ c, r.regDate = some c →
    ∃ x, r.xDate = some x ∧ FirstOpenAfter stock c x
  distinct : ((records u stock.symbol).map Dividend.regDate).Nodup

section Records

variable {u : DividendUtil} {stock : MyStock} {c d x : Date} {r : Dividend}

/-- The date that follows in a calendar in order is the first open day after. -/
theorem firstOpenAfter (h : stock.marketOpenDates.Pairwise (· < ·))
    (hc : c ∈ stock.marketOpenDates) (hd : stock.getNextMarketOpenDate c = some d) :
  FirstOpenAfter stock c d
  := by
  obtain ⟨i, hi⟩ := Option.isSome_iff_exists.mp (List.isSome_idxOf?.mpr hc)
  simp only [MyStock.getNextMarketOpenDate, hi] at hd
  obtain ⟨hlt, rfl, -⟩ := List.idxOf?_eq_some_iff.mp hi
  obtain ⟨hlt', rfl⟩ := List.getElem?_eq_some_iff.mp hd
  have hsorted := List.pairwise_iff_getElem.mp h
  refine ⟨List.getElem_mem hlt', hsorted i (i + 1) hlt hlt' (Nat.lt_succ_self i), ?_⟩
  intro y hy hcy
  obtain ⟨j, hj, rfl⟩ := List.getElem_of_mem hy
  -- an entry after the one at `i` is not before the one at `i + 1`
  rcases Nat.lt_trichotomy j (i + 1) with hji | rfl | hij
  · rcases Nat.lt_or_eq_of_le (Nat.le_of_lt_succ hji) with hlt | rfl
    · exact absurd (hsorted j i hj _ hlt) (Nat.lt_asymm hcy)
    · exact absurd hcy (Nat.lt_irrefl _)
  · exact Nat.le_refl _
  · exact Nat.le_of_lt (hsorted (i + 1) j hlt' hj hij)

theorem FirstOpenAfter.unique (h : FirstOpenAfter stock c x) (h' : FirstOpenAfter stock c d) :
  x = d
  := Nat.le_antisymm (h.least d h'.mem h'.lt) (h'.least x h.mem h.lt)

/-- A record registered on a date of the calendar is dated the next one. -/
theorem Orderly.xDate_eq (h : Orderly u stock) (hr : r ∈ records u stock.symbol)
    (hreg : r.regDate = some c) (hnext : FirstOpenAfter stock c d) :
  r.xDate = some d
  := by
  obtain ⟨x, hx, hfirst⟩ := h.xDate r hr c hreg
  rw [hx, hfirst.unique hnext]

/-- A bonus and an allocation are not registered on one date. -/
theorem Orderly.alloc_none (h : Orderly u stock)
    (hbonus : u.getEntitlement stock.symbol c .regDate = some r) :
  u.getAllocEntitlement stock.symbol c .regDate = none
  := by
  by_contra hsome
  obtain ⟨r', halloc⟩ := Option.ne_none_iff_exists'.mp hsome
  obtain ⟨hmem, hdate⟩ := DividendUtil.find_mem hbonus
  obtain ⟨hmem', hdate'⟩ := DividendUtil.find_mem halloc
  have hnodup := h.distinct
  rw [records, List.map_append] at hnodup
  have hdisjoint := (List.nodup_append.mp hnodup).2.2
  exact hdisjoint _ (List.mem_map_of_mem hmem) _ (List.mem_map_of_mem hmem')
    (hdate.trans hdate'.symm)

/-- On the date of a record, a search for one is successful. -/
theorem isSome_of_mem (hr : r ∈ records u stock.symbol) (hx : r.xDate = some d) :
  (u.getAllocEntitlement stock.symbol d .xDate).isSome
    ∨ (u.getEntitlement stock.symbol d .xDate).isSome
  := by
  have hfound : ∀ ds : List Dividend, r ∈ ds → (DividendUtil.find ds d .xDate).isSome := by
    intro ds hmem
    rw [DividendUtil.find, List.find?_isSome]
    exact ⟨r, hmem, by simp [DividendUtil.dateOf, hx]⟩
  rcases List.mem_append.mp hr with hweight | halloc
  · exact .inr (hfound _ hweight)
  · exact .inl (hfound _ halloc)

end Records

/-! ### The settlement of a day -/

/-- The days on which the slips do no harm.  An entitlement is settled on a day the stock
trades; an earlier allocation has no shares left for the volume of a bonus, and an earlier bonus
has no rates left when an allocation is settled. -/
structure Settles (u : DividendUtil) (t : MyTrade) (date : Date) : Prop where
  trading : 0 < t.entitledVolume → t.stock.isTradeDate date = true
  bonus : (u.getEntitlement t.stock.symbol t.currentDate .regDate).isSome →
    toInt32 (t.entitledVolume * t.allocShares) = 0
  alloc : (u.getAllocEntitlement t.stock.symbol t.currentDate .regDate).isSome →
    t.bonusCash = 0 ∧ t.bonusShares = 0 ∧ t.tranShares = 0

/-- What every run keeps: a trade has registered the record of its date, and no other. -/
structure EntitledInv (u : DividendUtil) (stock : MyStock) (t : MyTrade) : Prop where
  orders : ∀ op ∈ t.operations, Order op
  mem : t.currentDate ∈ stock.marketOpenDates
  bonus : ∀ r, u.getEntitlement stock.symbol t.currentDate .regDate = some r →
    t.entitledVolume = t.held
      ∧ (0 < t.held → t.bonusCash = r.cashDiv ∧ t.bonusShares = r.stockDiv
        ∧ t.tranShares = r.tranDiv)
  alloc : ∀ r, u.getAllocEntitlement stock.symbol t.currentDate .regDate = some r →
    t.entitledVolume = t.held
      ∧ (0 < t.held → t.allocShares = r.allocShare ∧ t.allocPrice = r.allocPrice)
  none : u.getEntitlement stock.symbol t.currentDate .regDate = none →
    u.getAllocEntitlement stock.symbol t.currentDate .regDate = none → t.entitledVolume ≤ 0
  stock : t.stock = stock

section Days

variable {u : DividendUtil} {stock : MyStock} {t t' : MyTrade} {date : Date}

/-- Carrying out an order does not look at the list of the operations. -/
theorem action_operations (t : MyTrade) {op : Operation} (h : Order op) (l : List Operation) :
  action { t with operations := l } op = { action t op with operations := l }
  := by
  cases op with
  | dr volume => exact h.elim
  | buy money =>
    cases hprice : t.stock.getOpenPrice t.currentDate with
    | none => simp only [action, hprice]
    | some price =>
      simp only [action, hprice]
      by_cases hbuys : Buys price money
      · rw [buyAction_of hbuys, buyAction_of hbuys]
      · rw [buyAction_of_not hbuys, buyAction_of_not hbuys]
  | sell volume all =>
    cases hprice : t.stock.getOpenPrice t.currentDate with
    | none => simp only [action, hprice]
    | some price =>
      simp only [action, hprice, sellAction]
      split
      · rfl
      · rfl

theorem foldl_action_operations {ops : List Operation} (h : ∀ op ∈ ops, Order op) (t : MyTrade)
    (l : List Operation) :
  ops.foldl action { t with operations := l } = { ops.foldl action t with operations := l }
  := by
  induction ops generalizing t with
  | nil => rfl
  | cons op ops ih =>
    rw [List.foldl_cons, List.foldl_cons, action_operations t (h op List.mem_cons_self)]
    apply ih
    intro op hop
    exact h op (List.mem_cons_of_mem _ hop)

/-- Orders that have no fills leave the shares on the way. -/
theorem foldl_action_of_fills_nil {price : ℚ} {ops : List Operation}
    (hprice : t.stock.getOpenPrice t.currentDate = some price) (hops : ∀ op ∈ ops, Order op)
    (hfills : fills price t.shares ops = []) :
  (ops.foldl action t).sharesOnTheWay = t.sharesOnTheWay
  := by
  induction ops generalizing t with
  | nil => rfl
  | cons op ops ih =>
    have hrest : ∀ op ∈ ops, Order op := fun op h => hops op (List.mem_cons_of_mem _ h)
    rw [List.foldl_cons]
    cases op with
    | dr volume => exact (hops _ List.mem_cons_self).elim
    | buy money =>
      by_cases hbuys : Buys price money
      · rw [fills_buy hbuys] at hfills
        contradiction
      · rw [fills_buy_of_not hbuys] at hfills
        rw [action_buy hprice, buyAction_of_not hbuys]
        exact ih (t := { t with cash := money }) hprice hrest hfills
    | sell volume all =>
      by_cases hsells : Sells price (sellVolume t.shares volume all)
      · rw [fills_sell hsells] at hfills
        contradiction
      · rw [fills_sell_of_not hsells] at hfills
        rw [action_sell hprice, sellAction_of_not hsells]
        exact ih hprice hrest hfills

/-- A day whose orders are not executed has no shares on the way from them. -/
theorem operate_sharesOnTheWay (hops : ∀ op ∈ t.operations, Order op)
    (htrade : t.stock.isTradeDate date = true) (hfills : t.fillsOn date = []) :
  (operate (t.arrive date)).sharesOnTheWay = 0
  := by
  obtain ⟨price, hprice⟩ := MyStock.isTradeDate_iff.mp htrade
  simp only [fillsOn, hprice] at hfills
  rw [← openDay_arrive_shares t date] at hfills
  rw [operate, if_pos (show (t.arrive date).stock.isTradeDate (t.arrive date).currentDate = true
    from htrade)]
  exact foldl_action_of_fills_nil (t := (t.arrive date).openDay) hprice hops hfills

/-- A day on which an entitlement is settled: the settlement comes after the orders. -/
theorem operate_addEntitlement (hops : ∀ op ∈ t.operations, Order op)
    (htrade : t.stock.isTradeDate t.currentDate = true)
    (hfound : (u.getAllocEntitlement t.stock.symbol t.currentDate .xDate).isSome
      ∨ (u.getEntitlement t.stock.symbol t.currentDate .xDate).isSome)
    (hvolume : 0 < t.entitledVolume) :
  ∃ l, operate (addEntitlement u t)
    = drAction { operate t with operations := l } t.entitledVolume
  := by
  use t.operations ++ [.dr t.entitledVolume]
  rw [addEntitlement, if_pos ⟨hfound, hvolume⟩, operate, operate, if_pos htrade, if_pos htrade,
    List.foldl_append, ← foldl_action_operations hops]
  rfl

/-- A day on which none is settled. -/
theorem addEntitlement_eq (h : t.entitledVolume ≤ 0) :
  addEntitlement u t = t
  := by
  rw [addEntitlement, if_neg]
  rintro ⟨-, hpos⟩
  omega

/-- `t'` has the accounts of `t`, and its stock and date. -/
structure SameAccounts (t t' : MyTrade) : Prop where
  shares : t'.shares = t.shares
  sharesOnTheWay : t'.sharesOnTheWay = t.sharesOnTheWay
  cash : t'.cash = t.cash
  cashOnTheWay : t'.cashOnTheWay = t.cashOnTheWay
  stock : t'.stock = t.stock
  currentDate : t'.currentDate = t.currentDate

/-- Registration leaves the accounts. -/
theorem register_same (u : DividendUtil) (t : MyTrade) :
  SameAccounts t { registerAlloc u (registerBonus u t) with operations := [] }
  := by
  have hbonus : SameAccounts t (registerBonus u t) := by
    unfold registerBonus
    split <;> exact ⟨rfl, rfl, rfl, rfl, rfl, rfl⟩
  obtain ⟨h₁, h₂, h₃, h₄, h₅, h₆⟩ := hbonus
  unfold registerAlloc
  split <;> exact ⟨h₁, h₂, h₃, h₄, h₅, h₆⟩

/-- Registration of the record of the date, by a trade that has registered none. -/
theorem EntitledInv.register (horderly : Orderly u stock) (hstock : t.stock = stock)
    (hmem : t.currentDate ∈ stock.marketOpenDates) (hvolume : t.entitledVolume ≤ 0) :
  EntitledInv u stock { registerAlloc u (registerBonus u t) with operations := [] }
  := by
  subst hstock
  cases hbonus : u.getEntitlement t.stock.symbol t.currentDate .regDate with
  | some r =>
    have halloc := horderly.alloc_none hbonus
    simp only [registerBonus, registerAlloc, hbonus, halloc]
    refine ⟨by simp, hmem, ?_, ?_, ?_, rfl⟩ <;> simp [hbonus, halloc, held]
  | none =>
    cases halloc : u.getAllocEntitlement t.stock.symbol t.currentDate .regDate with
    | some r =>
      simp only [registerBonus, registerAlloc, hbonus, halloc]
      refine ⟨by simp, hmem, ?_, ?_, ?_, rfl⟩ <;> simp [hbonus, halloc, held]
    | none =>
      simp only [registerBonus, registerAlloc, hbonus, halloc]
      refine ⟨by simp, hmem, ?_, ?_, ?_, rfl⟩ <;> simp [hbonus, halloc, hvolume]

theorem drAction_bonus {r : Dividend} {volume : ℤ} (hway : t.sharesOnTheWay = 0)
    (halloc : toInt32 (volume * t.allocShares) = 0) (hcash : t.bonusCash = r.cashDiv)
    (hshares : t.bonusShares = r.stockDiv) (htran : t.tranShares = r.tranDiv) :
  (t.drAction volume).sharesOnTheWay = (bonusCredit r volume).shares
    ∧ (t.drAction volume).cashOnTheWay = t.cashOnTheWay + (bonusCredit r volume).cash
  := by
  have hzero : toInt32 0 = 0 := toInt32_intCast (by norm_num) (by norm_num)
  simp only [drAction, bonusCredit, halloc, hway, hcash, hshares, htran, Int.cast_zero, add_zero,
    hzero, zero_mul, IsCents.zero.roundCents_eq, sub_zero, and_true]
  have h := i32_add (toInt32 (volume * r.stockDiv) + toInt32 (volume * r.tranDiv)) 0
  rw [Int.add_zero, Int.add_zero] at h
  rw [Int.zero_add, h]

theorem drAction_alloc {r : Dividend} {volume : ℤ} (hway : t.sharesOnTheWay = 0)
    (halloc : t.allocShares = r.allocShare) (hprice : t.allocPrice = r.allocPrice)
    (hcash : t.bonusCash = 0) (hshares : t.bonusShares = 0) (htran : t.tranShares = 0) :
  (t.drAction volume).sharesOnTheWay = (allocCredit r volume).shares
    ∧ (t.drAction volume).cashOnTheWay = t.cashOnTheWay + (allocCredit r volume).cash
  := by
  have hzero : toInt32 0 = 0 := toInt32_intCast (by norm_num) (by norm_num)
  obtain ⟨hge, hlt⟩ := toInt32_mem (volume * r.allocShare)
  simp only [drAction, allocCredit, halloc, hprice, hway, hcash, hshares, htran, Int.cast_zero,
    zero_add, mul_zero, add_zero, hzero, IsCents.zero.roundCents_eq]
  refine ⟨?_, by ring⟩
  rw [toInt32_intCast hge hlt, show i32 0 = 0 from rfl, Int.add_zero, i32_of_mem hge hlt]

/-- A trade is entitled: it holds shares on the registration date of a record. -/
def Entitled (u : DividendUtil) (t : MyTrade) : Prop :=
  0 < t.held ∧ ((u.getEntitlement t.stock.symbol t.currentDate .regDate).isSome
    ∨ (u.getAllocEntitlement t.stock.symbol t.currentDate .regDate).isSome)

/-- A trade that has registered shares is entitled. -/
theorem EntitledInv.entitled (h : EntitledInv u stock t) (hpos : 0 < t.entitledVolume) :
  Entitled u t
  := by
  unfold Entitled
  rw [h.stock]
  cases hbonus : u.getEntitlement stock.symbol t.currentDate .regDate with
  | some r =>
    obtain ⟨hvolume, -⟩ := h.bonus r hbonus
    exact ⟨hvolume ▸ hpos, .inl rfl⟩
  | none =>
    cases halloc : u.getAllocEntitlement stock.symbol t.currentDate .regDate with
    | some r =>
      obtain ⟨hvolume, -⟩ := h.alloc r halloc
      exact ⟨hvolume ▸ hpos, .inr rfl⟩
    | none => exact absurd (h.none hbonus halloc) (not_le.mpr hpos)

/-- On the day after, a settlement is found for a trade that is entitled. -/
theorem Entitled.isSome (h : Entitled u t) (horderly : Orderly u t.stock)
    (hfirst : FirstOpenAfter t.stock t.currentDate date) :
  (u.getAllocEntitlement t.stock.symbol date .xDate).isSome
    ∨ (u.getEntitlement t.stock.symbol date .xDate).isSome
  := by
  obtain ⟨-, hbonus | halloc⟩ := h
  · obtain ⟨r, hr⟩ := Option.isSome_iff_exists.mp hbonus
    obtain ⟨hfound, hreg⟩ := DividendUtil.find_mem hr
    have hmem : r ∈ records u t.stock.symbol := List.mem_append_left _ hfound
    exact isSome_of_mem hmem (horderly.xDate_eq hmem hreg hfirst)
  · obtain ⟨r, hr⟩ := Option.isSome_iff_exists.mp halloc
    obtain ⟨hfound, hreg⟩ := DividendUtil.find_mem hr
    have hmem : r ∈ records u t.stock.symbol := List.mem_append_right _ hfound
    exact isSome_of_mem hmem (horderly.xDate_eq hmem hreg hfirst)

section

variable (h : EntitledInv u stock t)
include h

/-- Nothing is due to a trade that has registered no shares. -/
theorem EntitledInv.due_eq_none (hle : t.entitledVolume ≤ 0) :
  due u t = Credit.none
  := by
  unfold due
  rw [h.stock]
  split_ifs with hheld
  · cases hbonus : u.getEntitlement stock.symbol t.currentDate .regDate with
    | some r =>
      obtain ⟨hvolume, -⟩ := h.bonus r hbonus
      omega
    | none =>
      cases halloc : u.getAllocEntitlement stock.symbol t.currentDate .regDate with
      | some r =>
        obtain ⟨hvolume, -⟩ := h.alloc r halloc
        omega
      | none => rfl
  · rfl

/-- The settlement of a trade that has registered shares, on accounts without shares on the way,
credits what is due. -/
theorem EntitledInv.drAction (hset : Settles u t date) (hpos : 0 < t.entitledVolume) {t' : MyTrade}
    (hregistered : t'.registered = t.registered) (hway : t'.sharesOnTheWay = 0) :
  (t'.drAction t.entitledVolume).sharesOnTheWay = (due u t).shares
    ∧ (t'.drAction t.entitledVolume).cashOnTheWay = t'.cashOnTheWay + (due u t).cash
  := by
  obtain ⟨hheld, -⟩ := h.entitled hpos
  simp only [registered, Registered.mk.injEq] at hregistered
  obtain ⟨-, hcash, hshares, htran, halloc, hprice⟩ := hregistered
  have hsetbonus := hset.bonus
  have hsetalloc := hset.alloc
  rw [due, if_pos hheld]
  rw [h.stock] at hsetbonus hsetalloc ⊢
  cases hbonus : u.getEntitlement stock.symbol t.currentDate .regDate with
  | some r =>
    obtain ⟨hvolume, hrates⟩ := h.bonus r hbonus
    obtain ⟨hr₁, hr₂, hr₃⟩ := hrates hheld
    have hzero := hsetbonus (by rw [hbonus]; rfl)
    rw [← halloc] at hzero
    rw [← hvolume]
    exact drAction_bonus hway hzero (hcash.trans hr₁) (hshares.trans hr₂) (htran.trans hr₃)
  | none =>
    cases hrecord : u.getAllocEntitlement stock.symbol t.currentDate .regDate with
    | some r =>
      obtain ⟨hvolume, hrates⟩ := h.alloc r hrecord
      obtain ⟨hr₁, hr₂⟩ := hrates hheld
      obtain ⟨hz₁, hz₂, hz₃⟩ := hsetalloc (by rw [hrecord]; rfl)
      rw [← hvolume]
      exact drAction_alloc hway (halloc.trans hr₁) (hprice.trans hr₂) (hcash.trans hz₁)
        (hshares.trans hz₂) (htran.trans hz₃)
    | none => exact absurd (h.none hbonus hrecord) (not_le.mpr hpos)

/-- A day keeps what every run keeps, and credits what is due. -/
theorem EntitledInv.nextDayOn (horderly : Orderly u stock)
    (hfirst : FirstOpenAfter stock t.currentDate date) (hset : Settles u t date) :
  EntitledInv u stock (t.nextDayOn u date)
    ∧ ((Entitled u t → t.fillsOn date = []) → Credited t (t.nextDayOn u date) date (due u t))
  := by
  have hsame := operate_same (t := t.arrive date) h.orders
  have haccounts := register_same u (operate (addEntitlement u (t.arrive date)))
  unfold MyTrade.nextDayOn
  rcases lt_or_ge 0 t.entitledVolume with hpos | hle
  · have hentitled := h.entitled hpos
    have htrade := hset.trading hpos
    have hfound := hentitled.isSome (h.stock ▸ horderly) (h.stock ▸ hfirst)
    obtain ⟨l, hday⟩ := operate_addEntitlement (u := u) (t := t.arrive date) h.orders htrade hfound
      hpos
    rw [hday] at haccounts ⊢
    constructor
    · apply EntitledInv.register horderly
      · exact hsame.stock.trans h.stock
      · have hmem : (operate (t.arrive date)).currentDate ∈ stock.marketOpenDates := by
          rw [hsame.currentDate]
          exact hfirst.mem
        exact hmem
      · exact le_refl 0
    · intro hfills
      have hway := operate_sharesOnTheWay h.orders htrade (hfills hentitled)
      have hregistered : ({ operate (t.arrive date) with operations := l } : MyTrade).registered
          = t.registered := hsame.registered
      obtain ⟨hshares, hcash⟩ := h.drAction hset hpos hregistered hway
      refine ⟨haccounts.shares, ?_, haccounts.cash, ?_⟩
      · rw [haccounts.sharesOnTheWay, hway, Int.zero_add]
        exact hshares
      · rw [haccounts.cashOnTheWay]
        exact hcash
  · have hday : addEntitlement u (t.arrive date) = t.arrive date := addEntitlement_eq hle
    rw [hday] at haccounts ⊢
    constructor
    · apply EntitledInv.register horderly
      · exact hsame.stock.trans h.stock
      · rw [hsame.currentDate]
        exact hfirst.mem
      · have hregistered := hsame.registered
        simp only [registered, Registered.mk.injEq] at hregistered
        rw [hregistered.1]
        exact hle
    · intro _
      rw [h.due_eq_none hle]
      refine ⟨haccounts.shares, ?_, haccounts.cash, ?_⟩
      · rw [haccounts.sharesOnTheWay, Credit.none, Int.add_zero]
      · rw [haccounts.cashOnTheWay, Credit.none, add_zero]

theorem EntitledInv.addOrder {op : Operation} (hop : Order op) :
  EntitledInv u stock { t with operations := t.operations ++ [op] }
  := by
  refine { h with orders := ?_ }
  intro op' hop'
  rcases List.mem_append.mp hop' with hold | hnew
  · exact h.orders op' hold
  · rw [List.mem_singleton.mp hnew]
    exact hop

theorem EntitledInv.step (horderly : Orderly u stock) {allowed : ℚ → Prop}
    (hstep : Step u allowed (Settles u) t t') :
  EntitledInv u stock t'
  := by
  cases hstep with
  | buy | sell | sellAll => exact h.addOrder trivial
  | nextDay hdate hset hnext =>
    rw [nextDay_eq hdate hnext]
    rw [h.stock] at hdate
    exact (h.nextDayOn horderly (firstOpenAfter horderly.increasing h.mem hdate) hset).1

end

theorem EntitledInv.run (horderly : Orderly u stock) {allowed : ℚ → Prop} {startDate : Date}
    (hstart : startDate ∈ stock.marketOpenDates)
    (hrun : Run u allowed (Settles u) (new stock startDate) t) :
  EntitledInv u stock t
  := by
  induction hrun with
  | refl =>
    refine ⟨by simp [new], hstart, ?_, ?_, ?_, rfl⟩
    · exact fun r _ => ⟨rfl, fun hpos => absurd hpos (Int.lt_irrefl 0)⟩
    · exact fun r _ => ⟨rfl, fun hpos => absurd hpos (Int.lt_irrefl 0)⟩
    · exact fun _ _ => le_refl 0
  | tail _ hstep ih => exact ih.step horderly hstep

/-- In every run whose days settle, a day credits, beyond its orders, exactly what is due for the
record registered on the day before, whose date it is: nothing if there is no such record, and
otherwise the shares of the record, in whole shares, and its cash, in whole cents. -/
theorem entitlement_credited_once (horderly : Orderly u stock) {startDate : Date}
    (hstart : startDate ∈ stock.marketOpenDates)
    (hrun : Run u (fun _ => True) (Settles u) (new stock startDate) t)
    (hdate : t.stock.getNextMarketOpenDate t.currentDate = some date) (hset : Settles u t date)
    (hfills : Entitled u t → t.fillsOn date = []) (hnext : t.nextDay u = some t') :
  Credited t t' date (due u t) ∧ t.currentDate < date
    ∧ ∀ r ∈ records u stock.symbol, r.regDate = some t.currentDate → r.xDate = some date
  := by
  have hinv := EntitledInv.run horderly hstart hrun
  rw [nextDay_eq hdate hnext]
  rw [hinv.stock] at hdate
  have hfirst := firstOpenAfter horderly.increasing hinv.mem hdate
  refine ⟨(hinv.nextDayOn horderly hfirst hset).2 hfills, hfirst.lt, ?_⟩
  intro r hr hreg
  exact horderly.xDate_eq hr hreg hfirst

end Days

/-! ### Small tables -/

/-- A bonus of so much cash for a share, registered on a day and dated the next one. -/
def cashBonus (cash : ℚ) (c : Date) : Dividend := ⟨cash, 0, 0, some (c + 1), none, some c, 0, 0⟩

/-- An allocation of 3 shares for 10 at 5.00. -/
def smallAllocation (c : Date) : Dividend := ⟨0, 0, 0, some (c + 1), none, some c, 3 / 10, 5⟩

/-- The same records for every symbol. -/
def table (weights allocWeights : List Dividend) : DividendUtil :=
  ⟨fun _ => weights, fun _ => allocWeights⟩

/-- A bonus of 0.00123. -/
def smallBonus : DividendUtil := table [cashBonus (123 / 100000) 2] []

/-- A bonus of 1.00. -/
def wholeBonus : DividendUtil := table [cashBonus 1 2] []

/-- An allocation and a bonus after it. -/
def allocationBonus : DividendUtil := table [cashBonus 1 4] [smallAllocation 2]

/-- A bonus and an allocation after it. -/
def bonusAllocation : DividendUtil := table [cashBonus 1 2] [smallAllocation 4]

/-- A stock with a calendar of five days that trades at 10.00 on some of them. -/
def stockTrading (dates : List Date) : MyStock :=
  ⟨"600000.sh", dates.map fun date => ⟨date, 10, 10⟩, [1, 2, 3, 4, 5]⟩

/-- The trade that has bought one lot, at the end of day 2. -/
def oneLot (u : DividendUtil) (stock : MyStock) : MyTrade :=
  ((new stock 1).buy 1500).nextDayOn u 2

/-- Records that are dated the day after their registration. -/
theorem orderly_table {weights allocWeights : List Dividend} (dates : List Date)
    (hdate : ∀ r ∈ weights ++ allocWeights, ∃ c, r.regDate = some c ∧ r.xDate = some (c + 1)
      ∧ c + 1 ∈ [1, 2, 3, 4, 5])
    (hdistinct : ((weights ++ allocWeights).map Dividend.regDate).Nodup) :
  Orderly (table weights allocWeights) (stockTrading dates)
  := by
  refine ⟨?_, ?_, hdistinct⟩
  · change [1, 2, 3, 4, 5].Pairwise (· < ·)
    decide
  · intro r hr c hc
    obtain ⟨c', hreg, hx, hopen⟩ := hdate r hr
    obtain rfl := Option.some.inj (hreg.symm.trans hc)
    exact ⟨c' + 1, hx, hopen, Nat.lt_succ_self c', fun _ _ hlt => hlt⟩

theorem orderly_cashBonus (cash : ℚ) (dates : List Date) :
  Orderly (table [cashBonus cash 2] []) (stockTrading dates)
  := by
  apply orderly_table
  · simp [cashBonus]
  · exact List.pairwise_singleton _ _

theorem nextDay_eq_some {u : DividendUtil} {t : MyTrade} {date : Date}
    (hdate : t.stock.getNextMarketOpenDate t.currentDate = some date) :
  t.nextDay u = some (t.nextDayOn u date)
  := by
  rw [nextDay, hdate, Option.map_some]

/-- One lot is reached by a run if its first day settles. -/
theorem run_oneLot (u : DividendUtil) (dates : List Date)
    (hset : Settles u ((new (stockTrading dates) 1).buy 1500) 2) :
  Run u (fun _ => True) (Settles u) (new (stockTrading dates) 1) (oneLot u (stockTrading dates))
  := by
  have hdate : (stockTrading dates).getNextMarketOpenDate 1 = some 2 := rfl
  apply Relation.ReflTransGen.head (Step.buy trivial)
  apply Relation.ReflTransGen.single
  exact Step.nextDay hdate hset (nextDay_eq_some hdate)

/-- A bonus of 0.00123 for each of 100 shares is credited as 0.12. -/
theorem entitlement_credited_once_small_bonus :
  Credited (oneLot smallBonus (stockTrading [2, 3]))
    ((oneLot smallBonus (stockTrading [2, 3])).nextDayOn smallBonus 3) 3 ⟨0, 12 / 100⟩
  := by
  let t := oneLot smallBonus (stockTrading [2, 3])
  have hdate : t.stock.getNextMarketOpenDate t.currentDate = some 3 := by decide +kernel
  have hset : Settles smallBonus t 3 := ⟨by decide +kernel, by decide +kernel, by decide +kernel⟩
  have hdue : due smallBonus t = ⟨0, 12 / 100⟩ := by decide +kernel
  have hrun := run_oneLot smallBonus [2, 3]
    ⟨by decide +kernel, by decide +kernel, by decide +kernel⟩
  have h := entitlement_credited_once (u := smallBonus) (orderly_cashBonus _ [2, 3])
    (by decide) hrun hdate hset (fun _ => by decide +kernel) (nextDay_eq_some hdate)
  exact hdue ▸ h.1

/-- Entitlements of 100 shares that are not credited as the records say.  The cash of a bonus is
rounded to cents, by design.  And there are the slips: a bonus whose date meets a suspension
is credited neither then nor on the day the stock trades again, a bonus that follows an
allocation is credited with shares of the allocation once more, and an allocation is credited with
the cash of a bonus that was registered before there were any shares. -/
theorem not_credited_exactly :
  (Orderly smallBonus (stockTrading [2, 3])
    ∧ (oneLot smallBonus (stockTrading [2, 3])).held = 100
    ∧ ¬ Credited (oneLot smallBonus (stockTrading [2, 3]))
        ((oneLot smallBonus (stockTrading [2, 3])).nextDayOn smallBonus 3) 3
        ⟨0, 100 * (123 / 100000)⟩)
    ∧ (Orderly wholeBonus (stockTrading [2, 4])
      ∧ (oneLot wholeBonus (stockTrading [2, 4])).held = 100
      ∧ ¬ Credited (oneLot wholeBonus (stockTrading [2, 4]))
          ((oneLot wholeBonus (stockTrading [2, 4])).nextDayOn wholeBonus 3) 3 ⟨0, 100⟩
      ∧ ¬ Credited ((oneLot wholeBonus (stockTrading [2, 4])).nextDayOn wholeBonus 3)
          (((oneLot wholeBonus (stockTrading [2, 4])).nextDayOn wholeBonus 3).nextDayOn
            wholeBonus 4) 4 ⟨0, 100⟩)
    ∧ (Orderly allocationBonus (stockTrading [2, 3, 4, 5])
      ∧ ∃ t, t = ((oneLot allocationBonus (stockTrading [2, 3, 4, 5])).nextDayOn
          allocationBonus 3).nextDayOn allocationBonus 4
        ∧ t.held = 130
        ∧ ¬ Credited t (t.nextDayOn allocationBonus 5) 5 ⟨0, 130⟩)
    ∧ (Orderly bonusAllocation (stockTrading [2, 3, 4, 5])
      ∧ ∃ t, t = ((((new (stockTrading [2, 3, 4, 5]) 1).nextDayOn bonusAllocation 2).nextDayOn
          bonusAllocation 3).buy 1500).nextDayOn bonusAllocation 4
        ∧ t.held = 100
        ∧ ¬ Credited t (t.nextDayOn bonusAllocation 5) 5 ⟨30, -150⟩)
  := by
  refine ⟨⟨orderly_cashBonus _ _, by decide +kernel, ?_⟩,
    ⟨orderly_cashBonus _ _, by decide +kernel, ?_, ?_⟩,
    ⟨orderly_table _ (by simp [cashBonus, smallAllocation]) (by decide), _, rfl, by decide +kernel,
      fun h => absurd h.sharesOnTheWay (by decide +kernel)⟩,
    ⟨orderly_table _ (by simp [cashBonus, smallAllocation]) (by decide), _, rfl, by decide +kernel,
      ?_⟩⟩
  all_goals
    intro h
    exact absurd h.cashOnTheWay (by decide +kernel)

end MyTrade
