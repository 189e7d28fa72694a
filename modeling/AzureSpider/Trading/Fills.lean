import AzureSpider.Trading.MyTrade

/-!
# Executed orders

What the pending orders of a trade come to at an open price: the list of its fills, which says
of each order that is executed how many shares change hands, for what amount and at what cost.
It is stated without reference to the accounts of the trade; the theorems relate what the
operations do to the accounts to the fills.
-/

open Machine Decimal

/-- An executed order: the volume, the amount and the cost. -/
inductive Fill where
  | bought (volume : ℤ) (amount cost : ℚ)
  | sold (volume : ℤ) (amount cost : ℚ)
  deriving DecidableEq

namespace Fill

/-- The volume of a purchase. -/
def boughtVolume : Fill → ℤ
  | bought volume _ _ => volume
  | sold _ _ _ => 0

/-- The volume of a sale. -/
def soldVolume : Fill → ℤ
  | bought _ _ _ => 0
  | sold volume _ _ => volume

/-- The money that a purchase takes. -/
def paid : Fill → ℚ
  | bought _ amount cost => amount + cost
  | sold _ _ _ => 0

/-- The money that a sale brings. -/
def proceeds : Fill → ℚ
  | bought _ _ _ => 0
  | sold _ amount cost => amount - cost

end Fill

namespace MyTrade

/-- The shares bought. -/
def bought (fs : List Fill) : ℤ := (fs.map Fill.boughtVolume).sum

/-- The shares sold. -/
def sold (fs : List Fill) : ℤ := (fs.map Fill.soldVolume).sum

/-- The money paid. -/
def paid (fs : List Fill) : ℚ := (fs.map Fill.paid).sum

/-- The money brought in. -/
def proceeds (fs : List Fill) : ℚ := (fs.map Fill.proceeds).sum

/-- Money buys something at a price: the lots are worth a cent. -/
def Buys (price money : ℚ) : Prop := 0 < roundCents (price * buyVolume money price)

/-- A sale of a volume at a price is worth a cent. -/
def Sells (price : ℚ) (volume : ℤ) : Prop := 0 < roundCents (volume * price)

instance (price money : ℚ) : Decidable (Buys price money) := by unfold Buys; infer_instance

instance (price : ℚ) (volume : ℤ) : Decidable (Sells price volume) := by
  unfold Sells; infer_instance

/-- The fills of orders at a price, in turn, with so many shares to sell. -/
def fills (price : ℚ) : (shares : ℤ) → List Operation → List Fill
  | _, [] => []
  | shares, .dr _ :: ops => fills price shares ops
  | shares, .buy money :: ops =>
    if Buys price money then
      let amount := price * buyVolume money price
      .bought (buyVolume money price) amount (cost amount buyTax) :: fills price shares ops
    else
      fills price shares ops
  | shares, .sell volume all :: ops =>
    if Sells price (sellVolume shares volume all) then
      let v := sellVolume shares volume all
      .sold v (price * v) (cost (price * v) sellTax) :: fills price (shares - v) ops
    else
      fills price shares ops

/-- The fills of the pending orders of a trade on the coming day. -/
def fillsOn (t : MyTrade) (date : Date) : List Fill :=
  match t.stock.getOpenPrice date with
  | some price => fills price (i32 (t.shares + t.sharesOnTheWay)) t.operations
  | none => []

/-! ### Single orders -/

variable {price money : ℚ} {shares volume : ℤ} {all : Bool}

theorem Buys.volume_pos (h : Buys price money) (hp : 0 < price) :
  0 < buyVolume money price
  := by
  have hpos := (mul_pos_iff_of_pos_left hp).mp (pos_of_roundCents_pos h)
  exact_mod_cast hpos

theorem Sells.volume_pos (h : Sells price volume) (hp : 0 < price) :
  0 < volume
  := by
  have hpos := (mul_pos_iff_of_pos_right hp).mp (pos_of_roundCents_pos h)
  exact_mod_cast hpos

theorem sellVolume_le (shares volume : ℤ) (all : Bool) :
  sellVolume shares volume all ≤ shares
  := by
  unfold sellVolume
  split
  · exact le_refl _
  · split
    · exact le_refl _
    · omega

/-! ### Accounts after the orders -/

/-- An order, and no settlement. -/
def Order : Operation → Prop
  | .dr _ => False
  | .buy _ => True
  | .sell _ _ => True

/-- What a trade has registered of an entitlement: the volume, the rates of a bonus and those of
an allocation. -/
structure Registered where
  entitledVolume : ℤ
  bonusCash : ℚ
  bonusShares : ℚ
  tranShares : ℚ
  allocShares : ℚ
  allocPrice : ℚ
  deriving DecidableEq

/-- The entitlement of a trade. -/
def registered (t : MyTrade) : Registered :=
  ⟨t.entitledVolume, t.bonusCash, t.bonusShares, t.tranShares, t.allocShares, t.allocPrice⟩

/-- `t'` is `t` with other accounts of cash and shares. -/
structure SameTrade (t t' : MyTrade) : Prop where
  currentDate : t'.currentDate = t.currentDate
  stock : t'.stock = t.stock
  operations : t'.operations = t.operations
  registered : t'.registered = t.registered

theorem SameTrade.refl (t : MyTrade) :
  SameTrade t t
  := ⟨rfl, rfl, rfl, rfl⟩

theorem SameTrade.trans {t t' t'' : MyTrade} (h : SameTrade t t') (h' : SameTrade t' t'') :
  SameTrade t t''
  := ⟨h'.currentDate.trans h.currentDate, h'.stock.trans h.stock,
    h'.operations.trans h.operations, h'.registered.trans h.registered⟩

theorem buyAction_same (t : MyTrade) (money price : ℚ) :
  SameTrade t (t.buyAction money price)
  := by
  unfold buyAction
  simp only
  split <;> exact ⟨rfl, rfl, rfl, rfl⟩

theorem sellAction_same (t : MyTrade) (volume : ℤ) (all : Bool) (price : ℚ) :
  SameTrade t (t.sellAction volume all price)
  := by
  unfold sellAction
  simp only
  split <;> exact ⟨rfl, rfl, rfl, rfl⟩

variable {t : MyTrade}

theorem action_buy (h : t.stock.getOpenPrice t.currentDate = some price) :
  t.action (.buy money) = t.buyAction money price
  := by
  simp only [action, h]

theorem action_sell (h : t.stock.getOpenPrice t.currentDate = some price) :
  t.action (.sell volume all) = t.sellAction volume all price
  := by
  simp only [action, h]

theorem withdraw_same (t : MyTrade) (op : Operation) :
  SameTrade t (t.withdraw op)
  := by
  cases op with
  | dr volume => exact SameTrade.refl t
  | buy | sell => exact ⟨rfl, rfl, rfl, rfl⟩

/-- The shares that are left after a sale that is executed. -/
theorem sellAction_shares (hp : 0 < price) (hlt : t.shares < 2 ^ 31)
    (hsells : Sells price (sellVolume t.shares volume all)) :
  (t.sellAction volume all price).shares = t.shares - sellVolume t.shares volume all
    ∧ (t.sellAction volume all price).sharesOnTheWay = t.sharesOnTheWay
  := by
  have hpos := hsells.volume_pos hp
  have hle := sellVolume_le t.shares volume all
  have hif : 0 < roundCents ((sellVolume t.shares volume all : ℤ) * price) := hsells
  simp only [sellAction, if_pos hif]
  refine ⟨?_, trivial⟩
  cases all with
  | true => simp [sellVolume]
  | false =>
    simp only [Bool.false_eq_true, if_false]
    rw [i32_of_mem (by omega) (by omega)]

/-- The money after a sale that is executed. -/
theorem sellAction_money (hsells : Sells price (sellVolume t.shares volume all)) :
  (t.sellAction volume all price).cash = t.cash
    ∧ (t.sellAction volume all price).cashOnTheWay
      = t.cashOnTheWay
        + if all then roundCents (sellVolume t.shares volume all * price)
            - cost (roundCents (sellVolume t.shares volume all * price)) sellTax
          else roundCents (roundCents (sellVolume t.shares volume all * price)
            - cost (roundCents (sellVolume t.shares volume all * price)) sellTax)
  := by
  have hif : 0 < roundCents ((sellVolume t.shares volume all : ℤ) * price) := hsells
  simp only [sellAction, if_pos hif]
  exact ⟨trivial, trivial⟩

theorem sellAction_of_not (h : ¬ Sells price (sellVolume t.shares volume all)) :
  t.sellAction volume all price = t
  := if_neg h

/-- A purchase that is executed. -/
theorem buyAction_of (h : Buys price money) :
  t.buyAction money price
    = { t with
        sharesOnTheWay := i32 (t.sharesOnTheWay + buyVolume money price)
        cash := t.cash + roundCents (money
          - (roundCents (price * buyVolume money price)
            + cost (roundCents (price * buyVolume money price)) buyTax)) }
  := if_pos h

theorem buyAction_of_not (h : ¬ Buys price money) :
  t.buyAction money price = { t with cash := money }
  := if_neg h

/-! The fills of a first order that is executed, or is not. -/

variable {ops : List Operation}

theorem fills_buy (h : Buys price money) :
  fills price shares (.buy money :: ops)
    = .bought (buyVolume money price) (price * buyVolume money price)
        (cost (price * buyVolume money price) buyTax) :: fills price shares ops
  := if_pos h

theorem fills_buy_of_not (h : ¬ Buys price money) :
  fills price shares (.buy money :: ops) = fills price shares ops
  := if_neg h

theorem fills_sell (h : Sells price (sellVolume shares volume all)) :
  fills price shares (.sell volume all :: ops)
    = .sold (sellVolume shares volume all) (price * sellVolume shares volume all)
        (cost (price * sellVolume shares volume all) sellTax)
      :: fills price (shares - sellVolume shares volume all) ops
  := if_pos h

theorem fills_sell_of_not (h : ¬ Sells price (sellVolume shares volume all)) :
  fills price shares (.sell volume all :: ops) = fills price shares ops
  := if_neg h

theorem bought_cons (f : Fill) (fs : List Fill) :
  bought (f :: fs) = f.boughtVolume + bought fs
  := List.sum_cons

theorem sold_cons (f : Fill) (fs : List Fill) :
  sold (f :: fs) = f.soldVolume + sold fs
  := List.sum_cons

/-- Nothing is bought, and no more is sold than there is. -/
theorem fills_bounds (hp : 0 < price) (hshares : 0 ≤ shares) (ops : List Operation) :
  0 ≤ bought (fills price shares ops) ∧ 0 ≤ sold (fills price shares ops)
    ∧ sold (fills price shares ops) ≤ shares
  := by
  induction ops generalizing shares with
  | nil => exact ⟨le_refl 0, le_refl 0, hshares⟩
  | cons op ops ih =>
    cases op with
    | dr volume => exact ih hshares
    | buy money =>
      obtain ⟨hb, hs, hle⟩ := ih hshares
      by_cases hbuys : Buys price money
      · have hpos := hbuys.volume_pos hp
        rw [fills_buy hbuys, bought_cons, sold_cons]
        simp only [Fill.boughtVolume, Fill.soldVolume]
        omega
      · rw [fills_buy_of_not hbuys]
        exact ⟨hb, hs, hle⟩
    | sell volume all =>
      by_cases hsells : Sells price (sellVolume shares volume all)
      · have hpos := hsells.volume_pos hp
        have hvol := sellVolume_le shares volume all
        have hrest : 0 ≤ shares - sellVolume shares volume all := by omega
        obtain ⟨hb, hs, hle⟩ := ih hrest
        rw [fills_sell hsells, bought_cons, sold_cons]
        simp only [Fill.boughtVolume, Fill.soldVolume]
        omega
      · rw [fills_sell_of_not hsells]
        exact ih hshares

/-- The rule for orders that are carried out at a price: what each of them keeps of the trade
and the orders behind it holds when they are done. -/
theorem foldl_action_invariant (price : ℚ) {I : MyTrade → List Operation → Prop}
    (hbuy : ∀ t money ops, I t (.buy money :: ops) → I (t.buyAction money price) ops)
    (hsell : ∀ t volume all ops, I t (.sell volume all :: ops) →
      I (t.sellAction volume all price) ops)
    (hprice : t.stock.getOpenPrice t.currentDate = some price) (hops : ∀ op ∈ ops, Order op)
    (h : I t ops) :
  I (ops.foldl action t) []
  := by
  induction ops generalizing t with
  | nil => exact h
  | cons op ops ih =>
    obtain ⟨hop, hrest⟩ := List.forall_mem_cons.mp hops
    rw [List.foldl_cons]
    cases op with
    | dr volume => exact hop.elim
    | buy money =>
      have hsame := buyAction_same t money price
      rw [action_buy hprice]
      apply ih (by rw [hsame.stock, hsame.currentDate, hprice]) hrest (hbuy t money ops h)
    | sell volume all =>
      have hsame := sellAction_same t volume all price
      rw [action_sell hprice]
      apply ih (by rw [hsame.stock, hsame.currentDate, hprice]) hrest (hsell t volume all ops h)

/-- The shares after orders are carried out at a price. -/
theorem foldl_action_shares (hp : 0 < price)
    (hprice : t.stock.getOpenPrice t.currentDate = some price) (hops : ∀ op ∈ ops, Order op)
    (hshares : 0 ≤ t.shares) (hlt : t.shares < 2 ^ 31) (hway : 0 ≤ t.sharesOnTheWay)
    (hfit : t.sharesOnTheWay + bought (fills price t.shares ops) < 2 ^ 31) :
  (ops.foldl action t).shares = t.shares - sold (fills price t.shares ops)
    ∧ (ops.foldl action t).sharesOnTheWay
      = t.sharesOnTheWay + bought (fills price t.shares ops)
  := by
  -- carried along: what is held and what is still to be bought and sold add up to the same
  have hinv := foldl_action_invariant price
    (I := fun t' rest => 0 ≤ t'.shares ∧ t'.shares < 2 ^ 31 ∧ 0 ≤ t'.sharesOnTheWay
      ∧ t'.shares - sold (fills price t'.shares rest) = t.shares - sold (fills price t.shares ops)
      ∧ t'.sharesOnTheWay + bought (fills price t'.shares rest)
        = t.sharesOnTheWay + bought (fills price t.shares ops))
    ?_ ?_ hprice hops ⟨hshares, hlt, hway, rfl, rfl⟩
  · obtain ⟨-, -, -, hsold, hbought⟩ := hinv
    simpa [fills, sold, bought] using And.intro hsold hbought
  · rintro t' money rest ⟨hshares', hlt', hway', hsold, hbought⟩
    by_cases hbuys : Buys price money
    · have hpos := hbuys.volume_pos hp
      obtain ⟨hb, -, -⟩ := fills_bounds hp hshares' rest
      rw [fills_buy hbuys, sold_cons] at hsold
      rw [fills_buy hbuys, bought_cons] at hbought
      simp only [Fill.boughtVolume, Fill.soldVolume] at hsold hbought
      have hway := i32_of_mem (z := t'.sharesOnTheWay + buyVolume money price) (by omega) (by omega)
      rw [buyAction_of hbuys, hway]
      dsimp only
      omega
    · rw [fills_buy_of_not hbuys] at hsold hbought
      rw [buyAction_of_not hbuys]
      exact ⟨hshares', hlt', hway', hsold, hbought⟩
  · rintro t' volume all rest ⟨hshares', hlt', hway', hsold, hbought⟩
    by_cases hsells : Sells price (sellVolume t'.shares volume all)
    · have hpos := hsells.volume_pos hp
      have hvol := sellVolume_le t'.shares volume all
      rw [fills_sell hsells, sold_cons] at hsold
      rw [fills_sell hsells, bought_cons] at hbought
      simp only [Fill.boughtVolume, Fill.soldVolume] at hsold hbought
      obtain ⟨hs, hw⟩ := sellAction_shares hp hlt' hsells
      rw [hs, hw]
      omega
    · rw [fills_sell_of_not hsells] at hsold hbought
      rw [sellAction_of_not hsells]
      exact ⟨hshares', hlt', hway', hsold, hbought⟩

end MyTrade
