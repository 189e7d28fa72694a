import AzureSpider.Strategy.Rolling
import Mathlib.Algebra.Order.BigOperators.Group.List

/-!
# The wealth of the rolling strategy

The final cash of a strategy is its cash and the worth of its positions at the close prices of a
date, with what is in flight.  Settling what is in flight does not change it, and a purchase or
a sale changes it by the stamp tax and the commission on the value traded.  Neither the cash nor
a position becomes negative.
-/

open Machine Decimal

namespace PositionEntry

/-- The amount and what is in flight are not negative. -/
structure Nonneg (e : PositionEntry) : Prop where
  amount : 0 ≤ e.amount
  inflightPos : 0 ≤ e.getInflightPos
  inflightCash : 0 ≤ e.getInflightCash

variable {u : DividendUtil} {e : PositionEntry} {date : Date}

theorem Nonneg.settle (h : e.Nonneg) (date : Date) :
  0 ≤ (e.evaluateInflightCash date).1 ∧ (e.settle date).Nonneg
  := by
  obtain ⟨hamount, hpos, hcash⟩ := h
  have hsum : 0 ≤ e.amount + inflight e.inflightAmt := add_nonneg hamount hpos
  unfold PositionEntry.settle evaluateInflightCash
  split
  · refine ⟨hcash, ?_⟩
    unfold evaluateInflightPos
    split
    · exact ⟨hsum, le_refl 0, le_refl 0⟩
    · exact ⟨hamount, hpos, le_refl 0⟩
  · refine ⟨le_refl 0, ?_⟩
    unfold evaluateInflightPos
    split
    · exact ⟨hsum, le_refl 0, hcash⟩
    · exact ⟨hamount, hpos, hcash⟩

theorem Nonneg.entitle (h : e.Nonneg) (u : DividendUtil) (date : Date) :
  (e.entitle u date).Nonneg
  := by
  unfold PositionEntry.entitle
  split
  · next d _ =>
      refine ⟨h.amount, ?_, ?_⟩
      · simp only [getInflightPos, increaseInflight]
        split_ifs with hpos
        · exact mul_nonneg (le_of_lt hpos) h.amount
        · exact h.inflightPos
      · simp only [getInflightCash, increaseInflight]
        split_ifs with hpos
        · exact mul_nonneg (le_of_lt hpos) h.amount
        · exact h.inflightCash
  · exact h

theorem Nonneg.setAmount (h : e.Nonneg) {amount : ℚ} (hamount : 0 ≤ amount) :
  (e.setAmount amount).Nonneg
  := ⟨hamount, h.inflightPos, h.inflightCash⟩

/-- What arrives was in flight. -/
theorem worth_settle (close : String → Date → ℚ) (date day : Date) (e : PositionEntry) :
  RollingStrategy.worth close day (e.settle date) + (e.evaluateInflightCash date).1
    = RollingStrategy.worth close day e
  := by
  have hsymbol := symbol_settle date e
  simp only [RollingStrategy.worth, hsymbol]
  unfold settle evaluateInflightCash
  split
  · unfold evaluateInflightPos
    split
    all_goals
      simp only [getInflightPos, getInflightCash, inflight, Option.map_none, Option.getD_none]
      ring
  · unfold evaluateInflightPos
    split
    · simp only [getInflightPos, getInflightCash, inflight, Option.map_none, Option.getD_none]
      ring
    · simp only [add_zero]

end PositionEntry

namespace RollingStrategy

/-- The cash and the positions are not negative. -/
structure Solvent (s : RollingStrategy) : Prop where
  cash : 0 ≤ s.cash
  position : ∀ e ∈ s.position.entries, e.Nonneg

/-- The amount of a symbol that is held. -/
def amountOf (s : RollingStrategy) (symbol : String) : ℚ :=
  ((s.position.get symbol).map PositionEntry.amount).getD 0

/-- The symbol is in the position map. -/
def Held (s : RollingStrategy) (symbol : String) : Prop := (s.position.get symbol).isSome

/-- The close prices are positive. -/
def Priced (close : String → Date → ℚ) : Prop := ∀ symbol date, 0 < close symbol date

section

variable {close : String → Date → ℚ} {u : DividendUtil} {s s' : RollingStrategy}
  {date day : Date} {symbol : String} {symbols : List String}

/-! ### Dividends -/

theorem held_map {f : PositionEntry → PositionEntry} {hf : ∀ e, (f e).symbol = e.symbol}
    {cash : ℚ} :
  Held ⟨s.position.map f hf, cash⟩ symbol ↔ s.Held symbol
  := by
  simp only [Held, Keyed.get_map, Option.isSome_map]

theorem getFinalCash_processInflightPB (close : String → Date → ℚ) (date day : Date)
    (s : RollingStrategy) :
  (s.processInflightPB date).getFinalCash close day = s.getFinalCash close day
  := by
  simp only [getFinalCash, processInflightPB]
  rw [Keyed.total_map, add_assoc, ← Keyed.total_add]
  congr 1
  apply Keyed.total_congr
  intro e _
  rw [add_comm]
  exact PositionEntry.worth_settle close date day e

theorem total_nonneg {m : Keyed PositionEntry.symbol} {g : PositionEntry → ℚ}
    (h : ∀ e ∈ m.entries, 0 ≤ g e) :
  0 ≤ m.total g
  := by
  apply List.sum_nonneg
  intro x hx
  obtain ⟨e, he, rfl⟩ := List.mem_map.mp hx
  exact h e he

theorem Solvent.processInflightPB (h : s.Solvent) (date : Date) :
  (s.processInflightPB date).Solvent
  := by
  constructor
  · apply add_nonneg h.cash
    apply total_nonneg
    intro e he
    exact ((h.position e he).settle date).1
  · intro e he
    obtain ⟨e', he', rfl⟩ := (Keyed.mem_map (PositionEntry.symbol_settle date)).mp he
    exact ((h.position e' he').settle date).2

theorem Solvent.processEntitlement (h : s.Solvent) (u : DividendUtil) (date : Date) :
  (s.processEntitlement u date).Solvent
  := by
  refine ⟨h.cash, ?_⟩
  intro e he
  obtain ⟨e', he', rfl⟩ := (Keyed.mem_map (PositionEntry.symbol_entitle u date)).mp he
  exact (h.position e' he').entitle u date

/-! ### Sales -/

/-- The value of the amounts held of some symbols. -/
def valueHeld (close : String → Date → ℚ) (date : Date) (s : RollingStrategy)
    (symbols : List String) : ℚ :=
  (symbols.map fun symbol => s.amountOf symbol * close symbol date).sum

/-- What a sale of distinct symbols does: the final cash is less by the costs, the symbols are
sold, the others are left, and an entry is removed only if nothing of it is left. -/
structure Sold (close : String → Date → ℚ) (date : Date) (symbols : List String)
    (s s' : RollingStrategy) : Prop where
  finalCash : s'.getFinalCash close date
    = s.getFinalCash close date - (sellStampTax + commission) * s.valueHeld close date symbols
  sold : ∀ symbol ∈ symbols, s'.amountOf symbol = 0
  others : ∀ symbol, symbol ∉ symbols → s'.position.get symbol = s.position.get symbol
  removed : ∀ e ∈ s.position.entries, ¬ s'.Held e.symbol →
    e.symbol ∈ symbols ∧ (e.setAmount 0).isSoldOut = true

theorem sellOne_spec (date : Date) (h : s.Solvent) (hprice : Priced close) {pe : PositionEntry}
    (hpe : s.position.get symbol = some pe) :
  ∃ s', s.sellOne close date sellStampTax commission symbol = some s' ∧ s'.Solvent
    ∧ Sold close date [symbol] s s'
  := by
  obtain ⟨hmem, rfl⟩ := Keyed.mem_of_get hpe
  have hnonneg := h.position pe hmem
  have hprice := hprice pe.symbol date
  have hamount : s.amountOf pe.symbol = pe.amount := by
    simp only [amountOf, hpe, Option.map_some, Option.getD_some]
  have hcash : 0 ≤ s.cash + pe.amount * close pe.symbol date * (1 - sellStampTax - commission) := by
    apply add_nonneg h.cash
    apply mul_nonneg (mul_nonneg hnonneg.amount (le_of_lt hprice))
    norm_num [sellStampTax, commission]
  have hworth := Keyed.total_of_get hpe (worth close date)
  simp only [sellOne, hpe, Option.map_some]
  refine ⟨_, rfl, ?_⟩
  split
  · next hsold =>
      have hout : pe.inflightAmt = none ∧ pe.inflightCash = none := by
        simpa [PositionEntry.isSoldOut, PositionEntry.setAmount] using hsold
      refine ⟨⟨hcash, ?_⟩, ?_, ?_, ?_, ?_⟩
      · intro e he
        exact h.position e (Keyed.mem_remove.mp he).1
      · simp only [getFinalCash, valueHeld, List.map_singleton, List.sum_singleton, hamount]
        rw [hworth]
        simp only [worth, PositionEntry.getInflightPos, PositionEntry.getInflightCash,
          PositionEntry.inflight, hout.1, hout.2, Option.map_none, Option.getD_none]
        ring
      · intro k hk
        rw [List.mem_singleton.mp hk]
        simp only [amountOf, Keyed.get_remove_self, Option.map_none, Option.getD_none]
      · intro k hk
        exact Keyed.get_remove_of_ne fun heq => hk (List.mem_singleton.mpr heq)
      · intro e he hgone
        rcases eq_or_ne e.symbol pe.symbol with hkey | hkey
        · have heq := (Keyed.get_of_mem he).symm.trans (hkey ▸ hpe)
          obtain rfl := Option.some.inj heq
          exact ⟨List.mem_singleton_self _, hsold⟩
        · rw [Held, Keyed.get_remove_of_ne hkey, Keyed.get_of_mem he] at hgone
          exact absurd rfl hgone
  · next hleft =>
      refine ⟨⟨hcash, ?_⟩, ?_, ?_, ?_, ?_⟩
      · intro e he
        rcases Keyed.mem_put.mp he with ⟨hold, -⟩ | rfl
        · exact h.position e hold
        · exact hnonneg.setAmount (le_refl 0)
      · simp only [getFinalCash, valueHeld, List.map_singleton, List.sum_singleton, hamount,
          Keyed.total_put]
        rw [hworth]
        simp only [worth, PositionEntry.setAmount, PositionEntry.getInflightPos,
          PositionEntry.getInflightCash]
        ring
      · intro k hk
        rw [List.mem_singleton.mp hk, amountOf,
          show pe.symbol = (pe.setAmount 0).symbol from rfl, Keyed.get_put_self]
        rfl
      · intro k hk
        exact Keyed.get_put_of_ne fun heq => hk (List.mem_singleton.mpr heq)
      · intro e he hgone
        rcases eq_or_ne e.symbol pe.symbol with hkey | hkey
        · rw [Held, hkey, show pe.symbol = (pe.setAmount 0).symbol from rfl,
            Keyed.get_put_self] at hgone
          exact absurd rfl hgone
        · rw [Held, Keyed.get_put_of_ne (show e.symbol ≠ (pe.setAmount 0).symbol from hkey),
            Keyed.get_of_mem he] at hgone
          exact absurd rfl hgone

theorem Sold.refl (close : String → Date → ℚ) (date : Date) (s : RollingStrategy) :
  Sold close date [] s s
  := by
  refine ⟨by simp [valueHeld], by simp, fun _ _ => rfl, ?_⟩
  intro e he hgone
  rw [Held, Keyed.get_of_mem he] at hgone
  exact absurd rfl hgone

/-- A sale of one symbol followed by a sale of others. -/
theorem Sold.cons {s'' : RollingStrategy} (h : Sold close date [symbol] s s')
    (h' : Sold close date symbols s' s'') (hnot : symbol ∉ symbols) :
  Sold close date (symbol :: symbols) s s''
  := by
  have hothers : ∀ k ∈ symbols, s'.position.get k = s.position.get k := by
    intro k hk
    apply h.others
    rw [List.mem_singleton]
    rintro rfl
    exact hnot hk
  have hvalue : s'.valueHeld close date symbols = s.valueHeld close date symbols := by
    unfold valueHeld
    congr 1
    apply List.map_congr_left
    intro k hk
    rw [amountOf, amountOf, hothers k hk]
  refine ⟨?_, ?_, ?_, ?_⟩
  · rw [h'.finalCash, h.finalCash, hvalue]
    simp only [valueHeld, List.map_cons, List.map_nil, List.sum_cons, List.sum_nil]
    ring
  · intro k hk
    rcases List.mem_cons.mp hk with rfl | hk
    · rw [amountOf, h'.others k hnot]
      exact h.sold k (List.mem_singleton_self k)
    · exact h'.sold k hk
  · intro k hk
    rw [List.mem_cons, not_or] at hk
    rw [h'.others k hk.2, h.others k (by rw [List.mem_singleton]; exact hk.1)]
  · intro e he hgone
    by_cases hmid : s'.Held e.symbol
    · obtain ⟨e', he'⟩ := Option.isSome_iff_exists.mp hmid
      rcases eq_or_ne e.symbol symbol with hkey | hkey
      · rw [Held, h'.others _ (hkey ▸ hnot), he'] at hgone
        exact absurd rfl hgone
      · have hsame := h.others e.symbol (by rw [List.mem_singleton]; exact hkey)
        rw [Keyed.get_of_mem he] at hsame
        obtain ⟨hmem, hout⟩ := h'.removed e (Keyed.mem_of_get hsame).1 hgone
        exact ⟨List.mem_cons_of_mem _ hmem, hout⟩
    · obtain ⟨hmem, hout⟩ := h.removed e he hmid
      rw [List.mem_singleton] at hmem
      exact ⟨hmem ▸ List.mem_cons_self, hout⟩

/-- `sell` of distinct symbols that are held. -/
theorem sell_spec (h : s.Solvent) (hprice : Priced close) (hnodup : symbols.Nodup)
    (hheld : ∀ symbol ∈ symbols, s.Held symbol) :
  ∃ s', s.sell close date sellStampTax commission symbols = some s' ∧ s'.Solvent
    ∧ Sold close date symbols s s'
  := by
  induction symbols generalizing s with
  | nil => exact ⟨s, rfl, h, Sold.refl close date s⟩
  | cons symbol symbols ih =>
    obtain ⟨hnot, hnodup⟩ := List.nodup_cons.mp hnodup
    obtain ⟨pe, hpe⟩ := Option.isSome_iff_exists.mp (hheld symbol List.mem_cons_self)
    obtain ⟨s₁, hone, hsolvent, hsold⟩ := sellOne_spec date h hprice hpe
    have hrest : ∀ k ∈ symbols, s₁.Held k := by
      intro k hk
      rw [Held, hsold.others k]
      · exact hheld k (List.mem_cons_of_mem _ hk)
      · rw [List.mem_singleton]
        rintro rfl
        exact hnot hk
    obtain ⟨s', hsell, hsolvent', hsold'⟩ := ih hsolvent hnodup hrest
    refine ⟨s', ?_, hsolvent', hsold.cons hsold' hnot⟩
    rw [sell, hone, Option.bind_some, hsell]

/-! ### Purchases -/

/-- A purchase: the cash then left, the price and the shares. -/
structure Purchase where
  symbol : String
  cash : ℚ
  price : ℚ
  shares : ℤ
  deriving DecidableEq

/-- The value of a purchase, before costs. -/
def Purchase.value (p : Purchase) : ℚ := p.shares * p.price

/-- The purchase of a symbol. -/
def purchaseOf (close : String → Date → ℚ) (date : Date) (cash : ℚ) (symbol : String) :
    Purchase :=
  ⟨symbol, cash, close symbol date, sharesFor cash (close symbol date)⟩

/-- The purchases of some symbols, each with the cash that the ones before it leave. -/
def purchases (close : String → Date → ℚ) (date : Date) : ℚ → List String → List Purchase
  | _, [] => []
  | cash, symbol :: symbols =>
    let p := purchaseOf close date cash symbol
    p :: purchases close date (cash - p.value * (1 + buyStampTax + commission)) symbols

/-- The value of some purchases. -/
def valueBought (ps : List Purchase) : ℚ := (ps.map Purchase.value).sum

/-- The shares of a symbol that some purchases buy. -/
def sharesBought (ps : List Purchase) (symbol : String) : ℤ :=
  (ps.map fun p => if p.symbol = symbol then p.shares else 0).sum

/-- The number of lots of a purchase is below `2 ^ 31 / 100`. -/
def Purchase.Fits (p : Purchase) : Prop := p.cash * (1 / 10) / p.price / 100 < 2 ^ 31 / 100

instance (p : Purchase) : Decidable p.Fits := inferInstanceAs (Decidable (_ < _))

/-- A purchase uses at most a tenth of the cash, before costs. -/
structure Purchase.Modest (p : Purchase) : Prop where
  shares : 0 ≤ p.shares
  value : p.value ≤ p.cash / 10

/-- What a purchase of the symbols of a list does, which is carried out as `ps`. -/
structure Bought (close : String → Date → ℚ) (date : Date) (ps : List Purchase)
    (s s' : RollingStrategy) : Prop where
  modest : ∀ p ∈ ps, p.Modest
  finalCash : s'.getFinalCash close date
    = s.getFinalCash close date - (buyStampTax + commission) * valueBought ps
  amounts : ∀ symbol, s'.amountOf symbol = s.amountOf symbol + sharesBought ps symbol
  kept : ∀ symbol, s.Held symbol → s'.Held symbol

/-- The shares that fit are whole lots for at most a tenth of the cash. -/
theorem sharesFor_spec {cash price : ℚ} (hcash : 0 ≤ cash) (hprice : 0 < price)
    (hfit : cash * (1 / 10) / price / 100 < 2 ^ 31 / 100) :
  0 ≤ sharesFor cash price ∧ sharesFor cash price * price ≤ cash / 10
  := by
  have hx : 0 ≤ cash * (1 / 10) / price / 100 := by positivity
  have hfloor : toInt32 (cash * (1 / 10) / price / 100) = ⌊cash * (1 / 10) / price / 100⌋ :=
    toInt32_of_nonneg hx (lt_trans hfit (by norm_num))
  have hle := Int.floor_le (cash * (1 / 10) / price / 100)
  have hnonneg := Int.floor_nonneg.mpr hx
  have hlt : ⌊cash * (1 / 10) / price / 100⌋ * 100 < 2 ^ 31 := by
    have hq : (⌊cash * (1 / 10) / price / 100⌋ : ℚ) * 100 < 2 ^ 31 := by linarith
    exact_mod_cast hq
  have hshares : sharesFor cash price = ⌊cash * (1 / 10) / price / 100⌋ * 100 := by
    rw [sharesFor, hfloor, i32_of_mem (by omega) hlt]
  rw [hshares]
  refine ⟨by omega, ?_⟩
  push_cast
  calc (⌊cash * (1 / 10) / price / 100⌋ : ℚ) * 100 * price
      ≤ cash * (1 / 10) / price / 100 * 100 * price := by gcongr
    _ = cash / 10 := by field_simp

theorem buyOne_spec (h : s.Solvent) (hprice : Priced close)
    (hfit : (purchaseOf close date s.cash symbol).Fits) :
  (s.buyOne close date buyStampTax commission symbol).Solvent
    ∧ Bought close date [purchaseOf close date s.cash symbol] s
        (s.buyOne close date buyStampTax commission symbol)
  := by
  obtain ⟨hshares, hvalue⟩ := sharesFor_spec h.cash (hprice symbol date) hfit
  have hshares' : (0 : ℚ) ≤ sharesFor s.cash (close symbol date) := by exact_mod_cast hshares
  have hcash : 0 ≤ s.cash - sharesFor s.cash (close symbol date) * close symbol date
      * (1 + buyStampTax + commission) := by
    have hpos := h.cash
    norm_num [buyStampTax, commission]
    linarith
  have hmodest : ∀ p ∈ [purchaseOf close date s.cash symbol], p.Modest := by
    intro p hp
    rw [List.mem_singleton.mp hp]
    exact ⟨hshares, hvalue⟩
  -- the entry that is put, whose amount is larger by the shares
  obtain ⟨pe, hsymbol, hpe, hput, hamount, hworth⟩ : ∃ pe : PositionEntry,
      pe.symbol = symbol ∧ pe.Nonneg
        ∧ (s.buyOne close date buyStampTax commission symbol).position = s.position.put pe
        ∧ pe.amount = s.amountOf symbol + sharesFor s.cash (close symbol date)
        ∧ (s.position.remove symbol).total (worth close date) + worth close date pe
          = s.position.total (worth close date)
            + sharesFor s.cash (close symbol date) * close symbol date := by
    simp only [buyOne, amountOf]
    cases hget : s.position.get symbol with
    | none =>
      refine ⟨PositionEntry.new symbol (sharesFor s.cash (close symbol date)), rfl,
        ⟨hshares', le_refl 0, le_refl 0⟩, rfl, ?_, ?_⟩
      · simp [PositionEntry.new]
      · rw [Keyed.total_remove_of_none hget]
        simp [worth, PositionEntry.new, PositionEntry.getInflightPos,
          PositionEntry.getInflightCash, PositionEntry.inflight]
    | some pe =>
      obtain ⟨hmem, rfl⟩ := Keyed.mem_of_get hget
      have hpe := h.position pe hmem
      refine ⟨pe.setAmount (pe.amount + sharesFor s.cash (close pe.symbol date)), rfl,
        hpe.setAmount (add_nonneg hpe.amount hshares'), rfl, rfl, ?_⟩
      rw [Keyed.total_of_get hget (worth close date)]
      simp only [worth, PositionEntry.setAmount, PositionEntry.getInflightPos,
        PositionEntry.getInflightCash]
      ring
  subst hsymbol
  refine ⟨⟨hcash, ?_⟩, hmodest, ?_, ?_, ?_⟩
  · intro e he
    rw [hput] at he
    rcases Keyed.mem_put.mp he with ⟨hold, -⟩ | rfl
    · exact h.position e hold
    · exact hpe
  · rw [getFinalCash, hput, Keyed.total_put, hworth]
    simp only [getFinalCash, buyOne, valueBought, purchaseOf, Purchase.value, List.map_singleton,
      List.sum_singleton]
    ring
  · intro k
    simp only [sharesBought, purchaseOf, List.map_singleton, List.sum_singleton]
    rw [amountOf, hput]
    split_ifs with hkey
    · subst hkey
      rw [Keyed.get_put_self]
      exact hamount
    · rw [Keyed.get_put_of_ne (Ne.symm hkey), Int.cast_zero, add_zero]
      rfl
  · intro k hk
    rw [Held, hput]
    rcases eq_or_ne k pe.symbol with rfl | hkey
    · rw [Keyed.get_put_self]
      rfl
    · rw [Keyed.get_put_of_ne hkey]
      exact hk

theorem Bought.cons {s'' : RollingStrategy} {p : Purchase} {ps : List Purchase}
    (h : Bought close date [p] s s') (h' : Bought close date ps s' s'') :
  Bought close date (p :: ps) s s''
  := by
  refine ⟨?_, ?_, ?_, ?_⟩
  · intro q hq
    rcases List.mem_cons.mp hq with rfl | hq
    · exact h.modest q (List.mem_singleton_self q)
    · exact h'.modest q hq
  · rw [h'.finalCash, h.finalCash]
    simp only [valueBought, List.map_cons, List.map_nil, List.sum_cons, List.sum_nil]
    ring
  · intro k
    rw [h'.amounts, h.amounts]
    simp only [sharesBought, List.map_cons, List.map_nil, List.sum_cons, List.sum_nil]
    push_cast
    ring
  · intro k hk
    exact h'.kept k (h.kept k hk)

/-- The loop of `buy` reaches the symbols up to the index 6. -/
theorem buyFrom_spec {i : ℕ} (hi : i ≤ 6) (h : s.Solvent) (hprice : Priced close)
    (hfit : ∀ p ∈ purchases close date s.cash (symbols.take (6 - i)), p.Fits) :
  (s.buyFrom close date buyStampTax commission i symbols).Solvent
    ∧ Bought close date (purchases close date s.cash (symbols.take (6 - i))) s
        (s.buyFrom close date buyStampTax commission i symbols)
  := by
  induction symbols generalizing i s with
  | nil =>
    rw [List.take_nil, purchases, buyFrom]
    exact ⟨h, by simp, by simp [valueBought], by simp [sharesBought], fun _ hk => hk⟩
  | cons symbol symbols ih =>
    rw [buyFrom]
    split
    · next hsix =>
        subst hsix
        rw [Nat.sub_self, List.take_zero, purchases]
        exact ⟨h, by simp, by simp [valueBought], by simp [sharesBought], fun _ hk => hk⟩
    · next hlt =>
        have htake : 6 - i = (6 - (i + 1)) + 1 := by omega
        rw [htake, List.take_succ_cons, purchases] at hfit ⊢
        obtain ⟨hsolvent, hone⟩ := buyOne_spec h hprice (hfit _ List.mem_cons_self)
        obtain ⟨hsolvent', hrest⟩ := ih (i := i + 1) (by omega) hsolvent
          (fun p hp => hfit p (List.mem_cons_of_mem _ hp))
        exact ⟨hsolvent', hone.cons hrest⟩

end

/-! ### Runs -/

/-- A call on the strategy, with the rates of the class.  The symbols that are sold are distinct
and held, and the lots of a purchase fit. -/
inductive Step (close : String → Date → ℚ) (u : DividendUtil) :
    RollingStrategy → RollingStrategy → Prop
  | processInflightPB (s : RollingStrategy) (date : Date) :
      Step close u s (s.processInflightPB date)
  | processEntitlement (s : RollingStrategy) (date : Date) :
      Step close u s (s.processEntitlement u date)
  | sell {s s' : RollingStrategy} {date : Date} {symbols : List String} (hnodup : symbols.Nodup)
      (hheld : ∀ symbol ∈ symbols, s.Held symbol)
      (hsell : s.sell close date sellStampTax commission symbols = some s') : Step close u s s'
  | buy {s : RollingStrategy} {date : Date} {symbols : List String}
      (hfit : ∀ p ∈ purchases close date s.cash (symbols.take 6), p.Fits) :
      Step close u s (s.buy close date buyStampTax commission symbols)

/-- Any number of calls. -/
abbrev Run (close : String → Date → ℚ) (u : DividendUtil) :
    RollingStrategy → RollingStrategy → Prop :=
  Relation.ReflTransGen (Step close u)

/-- The accounts of a strategy, whatever is called next. -/
structure Accounted (close : String → Date → ℚ) (u : DividendUtil) (s : RollingStrategy) :
    Prop where
  cash : 0 ≤ s.cash
  amounts : ∀ e ∈ s.position.entries, 0 ≤ e.amount
  processInflightPB : ∀ date,
    (s.processInflightPB date).getFinalCash close date = s.getFinalCash close date
      ∧ ∀ symbol, (s.processInflightPB date).Held symbol ↔ s.Held symbol
  processEntitlement : ∀ date symbol, (s.processEntitlement u date).Held symbol ↔ s.Held symbol
  sell : ∀ symbols : List String, ∀ date, symbols.Nodup → (∀ symbol ∈ symbols, s.Held symbol) →
    ∃ s', s.sell close date sellStampTax commission symbols = some s' ∧ Sold close date symbols s s'
  buy : ∀ symbols date, (∀ p ∈ purchases close date s.cash (symbols.take 6), p.Fits) →
    Bought close date (purchases close date s.cash (symbols.take 6)) s
      (s.buy close date buyStampTax commission symbols)

section Runs

variable {close : String → Date → ℚ} {u : DividendUtil} {s s' : RollingStrategy}

theorem Solvent.step (h : s.Solvent) (hprice : Priced close) (hstep : Step close u s s') :
  s'.Solvent
  := by
  cases hstep with
  | processInflightPB date => exact h.processInflightPB date
  | processEntitlement date => exact h.processEntitlement u date
  | sell hnodup hheld hsell =>
    obtain ⟨s₁, hsell', hsolvent, -⟩ := sell_spec h hprice hnodup hheld
    obtain rfl := Option.some.inj (hsell'.symm.trans hsell)
    exact hsolvent
  | buy hfit => exact (buyFrom_spec (Nat.zero_le 6) h hprice hfit).1

theorem Solvent.run {cash : ℚ} (hcash : 0 ≤ cash) (hprice : Priced close)
    (hrun : Run close u (new cash) s) :
  s.Solvent
  := by
  induction hrun with
  | refl => exact ⟨hcash, fun e he => absurd he List.not_mem_nil⟩
  | tail _ hstep ih => exact ih.step hprice hstep

/-- In every run from cash that is not negative, the accounts are right: cash and positions are
not negative, and each call changes the final cash by its costs. -/
theorem wealth_accounted {cash : ℚ} (hcash : 0 ≤ cash) (hprice : Priced close)
    (hrun : Run close u (new cash) s) :
  Accounted close u s
  := by
  have h := Solvent.run hcash hprice hrun
  refine ⟨h.cash, fun e he => (h.position e he).amount, ?_, fun _ _ => held_map, ?_, ?_⟩
  · intro date
    exact ⟨getFinalCash_processInflightPB close date date s, fun _ => held_map⟩
  · intro symbols date hnodup hheld
    obtain ⟨s', hsell, -, hsold⟩ := sell_spec h hprice hnodup hheld
    exact ⟨s', hsell, hsold⟩
  · intro symbols date hfit
    exact (buyFrom_spec (Nat.zero_le 6) h hprice hfit).2

end Runs

/-- A dividend of 0.50 a share, registered on the second day and paid on the fifth. -/
def halfYuan : DividendUtil :=
  ⟨fun _ => [⟨1 / 2, 0, 0, some 5, none, some 2, 0, 0⟩], fun _ => []⟩

/-- A first purchase of ten lots at 10.00, for which the dividend is registered. -/
def tenLots : RollingStrategy :=
  ((new 100000).buy (fun _ _ => 10) 1 buyStampTax commission ["600000.sh"]).processEntitlement
    halfYuan 2

/-- The ten lots are sold before the dividend is paid.  The trades cost 10.00 and 20.00, and the
dividend is 500.00. -/
theorem wealth_accounted_tenLots :
  ∃ s, tenLots.sell (fun _ _ => 10) 5 sellStampTax commission ["600000.sh"] = some s
    ∧ s.amountOf "600000.sh" = 0
    ∧ (s.processInflightPB 5).getFinalCash (fun _ _ => 10) 5 = 100000 - 10 - 20 + 500
  := by
  have hregistered : Run (fun _ _ => 10) halfYuan (new 100000) tenLots :=
    (Relation.ReflTransGen.single (.buy (by decide +kernel))).tail (.processEntitlement _ 2)
  have hheld : ∀ symbol ∈ ["600000.sh"], tenLots.Held symbol := by
    unfold Held
    decide +kernel
  have h := wealth_accounted (by norm_num) (fun _ _ => by norm_num) hregistered
  obtain ⟨s, hsell, hsold⟩ := h.sell ["600000.sh"] 5 (by decide) hheld
  have h' := wealth_accounted (by norm_num) (fun _ _ => by norm_num)
    (hregistered.tail (.sell (by decide) hheld hsell))
  refine ⟨s, hsell, hsold.sold _ List.mem_cons_self, ?_⟩
  rw [(h'.processInflightPB 5).1, hsold.finalCash]
  decide +kernel

end RollingStrategy
