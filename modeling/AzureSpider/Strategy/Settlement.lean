import AzureSpider.Strategy.Wealth
import Mathlib.Algebra.BigOperators.Group.Multiset.Basic

/-!
# Dividends in flight

The daily cycle of the rolling strategy: what is listed on a date is settled, then the strategy
trades, and at the end of the date the records registered on it are put in flight.  What is put
in flight and what is settled is kept as a history.

`processInflightPB` settles what is listed on the very date.  A dividend with an empty list date,
or with a list date on which the strategy does not run, is never settled.
-/

open Machine Decimal

/-- Where a dividend goes. -/
inductive FlightKind where
  | cash | shares
  deriving DecidableEq

/-- A dividend in flight, of a position. -/
structure InFlight where
  symbol : String
  kind : FlightKind
  entry : PEDateValue
  deriving DecidableEq

namespace InFlight

/-- What the dividend adds to the cash. -/
def cash (x : InFlight) : ℚ := if x.kind = .cash then x.entry.value else 0

/-- What the dividend adds to the amount of a symbol. -/
def shares (symbol : String) (x : InFlight) : ℚ :=
  if x.kind = .shares ∧ x.symbol = symbol then x.entry.value else 0

/-- The dividend is listed on the date. -/
def Listed (date : Date) (x : InFlight) : Prop := x.entry.listDate = some date

instance (date : Date) : DecidablePred (Listed date) :=
  fun _ => inferInstanceAs (Decidable (_ = _))

/-- One dividend, or none. -/
def one (symbol : String) (kind : FlightKind) (v : Option PEDateValue) : Multiset InFlight :=
  match v with
  | some p => {⟨symbol, kind, p⟩}
  | none => 0

variable {symbol : String} {kind : FlightKind}

theorem mem_one {v : Option PEDateValue} {x : InFlight} :
  x ∈ one symbol kind v ↔ x.symbol = symbol ∧ x.kind = kind ∧ v = some x.entry
  := by
  obtain ⟨symbol', kind', entry⟩ := x
  cases v with
  | none => simp [one]
  | some p => simp [one, eq_comm]

/-- The part of one dividend that is listed on a date. -/
theorem filter_one (symbol : String) (kind : FlightKind) (v : Option PEDateValue) (date : Date) :
  (one symbol kind v).filter (Listed date)
    = if PositionEntry.Due v date then one symbol kind v else 0
  := by
  cases v with
  | none => simp [one]
  | some p =>
    rw [one, Multiset.filter_singleton]
    apply if_congr _ rfl rfl
    simp [Listed, PositionEntry.Due]

/-- A dividend that takes the place of none is added. -/
theorem one_ite {c : Prop} [Decidable c]
    {v : Option PEDateValue} (p : PEDateValue) (h : c → v = none) :
  one symbol kind (if c then some p else v)
    = one symbol kind v + one symbol kind (if c then some p else none)
  := by
  split_ifs with hc
  · rw [h hc]
    simp [one]
  · simp [one]

theorem mem_one_ite {c : Prop} [Decidable c]
    {p : PEDateValue} {x : InFlight} :
  x ∈ one symbol kind (if c then some p else none) ↔ c ∧ x = ⟨symbol, kind, p⟩
  := by
  split <;> simp [one, *]

theorem sum_cash_one (symbol : String) (v : Option PEDateValue) :
  ((one symbol .cash v).map cash).sum = PositionEntry.inflight v
    ∧ ((one symbol .shares v).map cash).sum = 0
  := by
  cases v with
  | none => simp [one, PositionEntry.inflight]
  | some p => simp [one, PositionEntry.inflight, cash]

theorem sum_shares_one (symbol : String) (v : Option PEDateValue) :
  ((one symbol .shares v).map (shares symbol)).sum = PositionEntry.inflight v
    ∧ ((one symbol .cash v).map (shares symbol)).sum = 0
  := by
  cases v with
  | none => simp [one, PositionEntry.inflight]
  | some p => simp [one, PositionEntry.inflight, shares]

end InFlight

namespace PositionEntry

open InFlight

/-- The dividends of an entry that are in flight. -/
def pending (e : PositionEntry) : Multiset InFlight :=
  one e.symbol .cash e.inflightCash + one e.symbol .shares e.inflightAmt

/-- The dividends of an entry that are listed on a date. -/
def matured (date : Date) (e : PositionEntry) : Multiset InFlight :=
  e.pending.filter (Listed date)

/-- The dividends that a record registered on a date puts in flight. -/
def registered (u : DividendUtil) (date : Date) (e : PositionEntry) : Multiset InFlight :=
  match u.getEntitlement e.symbol date .regDate with
  | some d =>
    one e.symbol .cash
        (if d.cashDiv > 0 then some ⟨d.cashDiv * e.amount, d.regDate, d.listDate⟩ else none)
      + one e.symbol .shares
        (if d.getEntitledPos > 0 then some ⟨d.getEntitledPos * e.amount, d.regDate, d.listDate⟩
          else none)
  | none => 0

theorem symbol_of_mem_pending {e : PositionEntry} {x : InFlight} (h : x ∈ e.pending) :
  x.symbol = e.symbol
  := by
  rcases Multiset.mem_add.mp h with hx | hx <;> exact (mem_one.mp hx).1

/-- Settling keeps what is not listed on the date. -/
theorem pending_settle (e : PositionEntry) (date : Date) :
  (e.settle date).pending = e.pending.filter fun x => ¬ Listed date x
  := by
  have hsplit := Multiset.filter_add_not (Listed date) e.pending
  have hmatured : e.pending.filter (Listed date)
      = (if Due e.inflightCash date then one e.symbol .cash e.inflightCash else 0)
        + if Due e.inflightAmt date then one e.symbol .shares e.inflightAmt else 0 := by
    rw [pending, Multiset.filter_add, filter_one, filter_one]
  have hsettle : e.pending.filter (Listed date) + (e.settle date).pending = e.pending := by
    rw [hmatured]
    unfold settle evaluateInflightCash
    split
    · unfold evaluateInflightPos
      split <;> simp [pending, one]
    · unfold evaluateInflightPos
      split
      · simp [pending, one, add_comm]
      · simp
  exact add_left_cancel (hsettle.trans hsplit.symm)

theorem sum_matured (e : PositionEntry) (date : Date) (f : InFlight → ℚ) :
  ((e.matured date).map f).sum
    = (if Due e.inflightCash date then ((one e.symbol .cash e.inflightCash).map f).sum else 0)
      + if Due e.inflightAmt date then ((one e.symbol .shares e.inflightAmt).map f).sum else 0
  := by
  rw [matured, pending, Multiset.filter_add, filter_one, filter_one, Multiset.map_add,
    Multiset.sum_add]
  congr 1 <;> split <;> rfl

/-- The cash that arrives is that of the dividends listed on the date. -/
theorem evaluateInflightCash_eq (e : PositionEntry) (date : Date) :
  (e.evaluateInflightCash date).1 = ((e.matured date).map InFlight.cash).sum
  := by
  rw [sum_matured, (sum_cash_one _ _).1, (sum_cash_one _ _).2, ite_self, add_zero,
    evaluateInflightCash]
  split <;> rfl

/-- The shares that arrive are those of the dividends listed on the date. -/
theorem amount_settle (e : PositionEntry) (date : Date) :
  (e.settle date).amount = e.amount + ((e.matured date).map (InFlight.shares e.symbol)).sum
  := by
  have hsame : (e.evaluateInflightCash date).2.inflightAmt = e.inflightAmt
      ∧ (e.evaluateInflightCash date).2.amount = e.amount := by
    unfold evaluateInflightCash
    split
    · exact ⟨rfl, rfl⟩
    · exact ⟨rfl, rfl⟩
  rw [sum_matured, (sum_shares_one _ _).1, (sum_shares_one _ _).2, ite_self, zero_add, settle,
    evaluateInflightPos, hsame.1, hsame.2]
  split
  · rfl
  · rw [hsame.2, add_zero]

/-- A record does not replace what is in flight. -/
def Clear (e : PositionEntry) (d : Dividend) : Prop :=
  (d.cashDiv > 0 → e.inflightCash = none) ∧ (d.getEntitledPos > 0 → e.inflightAmt = none)

theorem pending_entitle {u : DividendUtil} {date : Date} {e : PositionEntry}
    (h : ∀ d, u.getEntitlement e.symbol date .regDate = some d → e.Clear d) :
  (e.entitle u date).pending = e.pending + e.registered u date
  := by
  cases hd : u.getEntitlement e.symbol date .regDate with
  | some d =>
    obtain ⟨hcash, hshares⟩ := h d hd
    simp only [entitle, registered, hd, pending, increaseInflight]
    rw [one_ite _ hcash, one_ite _ hshares]
    exact add_add_add_comm _ _ _ _
  | none => simp only [entitle, registered, hd, add_zero]

end PositionEntry

namespace RollingStrategy

open InFlight

/-- The dividends in flight. -/
def pending (s : RollingStrategy) : Multiset InFlight := s.position.total PositionEntry.pending

/-- The dividends in flight that are listed on a date. -/
def matured (s : RollingStrategy) (date : Date) : Multiset InFlight :=
  s.position.total (PositionEntry.matured date)

/-- The dividends that the records registered on a date put in flight. -/
def registered (u : DividendUtil) (s : RollingStrategy) (date : Date) : Multiset InFlight :=
  s.position.total (PositionEntry.registered u date)

section

variable {close : String → Date → ℚ} {u : DividendUtil} {s s' : RollingStrategy} {date : Date}
  {stampTax com : ℚ} {symbol : String} {symbols : List String} {x : InFlight}

theorem mem_total {m : Keyed PositionEntry.symbol} {g : PositionEntry → Multiset InFlight} :
  x ∈ m.total g ↔ ∃ e ∈ m.entries, x ∈ g e
  := by
  rw [Keyed.total]
  induction m.entries with
  | nil => simp
  | cons e es ih =>
    rw [List.map_cons, List.sum_cons, Multiset.mem_add, ih]
    simp

/-! ### What settling does -/

/-- The part of a multiset that has a property, as a homomorphism. -/
def filterHom (p : InFlight → Prop) [DecidablePred p] : Multiset InFlight →+ Multiset InFlight where
  toFun := Multiset.filter p
  map_zero' := Multiset.filter_zero p
  map_add' := Multiset.filter_add p

/-- The sum of a function over a multiset, as a homomorphism. -/
def sumHom (f : InFlight → ℚ) : Multiset InFlight →+ ℚ where
  toFun x := (x.map f).sum
  map_zero' := by simp
  map_add' := by simp

theorem matured_eq (s : RollingStrategy) (date : Date) :
  s.matured date = s.pending.filter (Listed date)
  := (s.position.map_total (filterHom (Listed date)) PositionEntry.pending).symm

theorem pending_processInflightPB (s : RollingStrategy) (date : Date) :
  (s.processInflightPB date).pending = s.pending.filter fun x => ¬ Listed date x
  := by
  have hfilter := s.position.map_total (filterHom fun x => ¬ Listed date x) PositionEntry.pending
  rw [pending, processInflightPB, Keyed.total_map]
  apply Eq.trans _ hfilter.symm
  apply Keyed.total_congr
  intro e _
  exact e.pending_settle date

/-- Settling adds the cash that is listed on the date. -/
theorem cash_processInflightPB (s : RollingStrategy) (date : Date) :
  (s.processInflightPB date).cash = s.cash + ((s.matured date).map InFlight.cash).sum
  := by
  have hsum := s.position.map_total (sumHom InFlight.cash) (PositionEntry.matured date)
  change s.cash + s.position.total (fun e => (e.evaluateInflightCash date).1)
    = s.cash + sumHom InFlight.cash (s.matured date)
  rw [matured, hsum]
  congr 1
  apply Keyed.total_congr
  intro e _
  exact e.evaluateInflightCash_eq date

/-- Settling adds the shares that are listed on the date. -/
theorem amountOf_processInflightPB (s : RollingStrategy) (date : Date) (symbol : String) :
  (s.processInflightPB date).amountOf symbol
    = s.amountOf symbol + ((s.matured date).map (InFlight.shares symbol)).sum
  := by
  have hsum := s.position.map_total (sumHom (InFlight.shares symbol)) (PositionEntry.matured date)
  -- an entry of another symbol adds nothing
  have hother : ∀ e ∈ s.position.entries, e.symbol ≠ symbol →
      (sumHom (InFlight.shares symbol) ∘ PositionEntry.matured date) e = 0 := by
    intro e _ hne
    apply Multiset.sum_eq_zero
    intro q hq
    obtain ⟨x, hx, rfl⟩ := Multiset.mem_map.mp hq
    have hsymbol := PositionEntry.symbol_of_mem_pending (Multiset.mem_filter.mp hx).1
    rw [InFlight.shares, if_neg]
    rintro ⟨-, rfl⟩
    exact hne hsymbol.symm
  change _ = _ + sumHom (InFlight.shares symbol) (s.matured date)
  rw [matured, hsum, amountOf, processInflightPB, Keyed.get_map]
  cases hget : s.position.get symbol with
  | none =>
    have hzero : s.position.total (sumHom (InFlight.shares symbol)
        ∘ PositionEntry.matured date) = 0 := by
      apply List.sum_eq_zero
      intro q hq
      obtain ⟨e, he, rfl⟩ := List.mem_map.mp hq
      exact hother e he (Keyed.get_eq_none.mp hget e he)
    rw [hzero, amountOf, hget]
    simp
  | some e =>
    obtain ⟨hmem, rfl⟩ := Keyed.mem_of_get hget
    rw [Keyed.total_eq_single hget hother, amountOf, hget]
    exact e.amount_settle date

/-! ### Trading leaves what is in flight -/

theorem pending_buyOne (s : RollingStrategy) (symbol : String) :
  (s.buyOne close date stampTax com symbol).pending = s.pending
  := by
  simp only [buyOne, pending]
  cases hget : s.position.get symbol with
  | none =>
    rw [Keyed.total_put, show (PositionEntry.new symbol _).symbol = symbol from rfl,
      Keyed.total_remove_of_none hget]
    exact add_zero _
  | some pe =>
    obtain ⟨-, rfl⟩ := Keyed.mem_of_get hget
    rw [Keyed.total_put, Keyed.total_of_get hget PositionEntry.pending]
    rfl

theorem pending_buyFrom (s : RollingStrategy) (symbols : List String) (i : ℕ) :
  (s.buyFrom close date stampTax com i symbols).pending = s.pending
  := by
  induction symbols generalizing s i with
  | nil => rfl
  | cons symbol symbols ih =>
    rw [buyFrom]
    split
    · rfl
    · rw [ih, pending_buyOne]

theorem pending_sellOne (h : s.sellOne close date stampTax com symbol = some s') :
  s'.pending = s.pending
  := by
  simp only [sellOne, Option.map_eq_some_iff] at h
  obtain ⟨pe, hget, rfl⟩ := h
  obtain ⟨-, rfl⟩ := Keyed.mem_of_get hget
  simp only [pending]
  rw [Keyed.total_of_get hget PositionEntry.pending]
  split_ifs with hsold
  · have hout : pe.inflightAmt = none ∧ pe.inflightCash = none := by
      simpa [PositionEntry.isSoldOut, PositionEntry.setAmount] using hsold
    simp only [PositionEntry.pending, hout.1, hout.2, one, add_zero]
  · exact Keyed.total_put _ _ _

theorem pending_sell (h : s.sell close date stampTax com symbols = some s') :
  s'.pending = s.pending
  := by
  induction symbols generalizing s with
  | nil =>
    obtain rfl := Option.some.inj h
    rfl
  | cons symbol symbols ih =>
    rw [sell, Option.bind_eq_some_iff] at h
    obtain ⟨s₁, hone, hrest⟩ := h
    rw [ih hrest, pending_sellOne hone]

/-! ### Registration -/

theorem pending_processEntitlement
    (h : ∀ e ∈ s.position.entries, ∀ d, u.getEntitlement e.symbol date .regDate = some d →
      e.Clear d) :
  (s.processEntitlement u date).pending = s.pending + s.registered u date
  := by
  rw [pending, processEntitlement, Keyed.total_map, pending, registered, ← Keyed.total_add]
  apply Keyed.total_congr
  intro e he
  exact PositionEntry.pending_entitle (h e he)

/-- A dividend that is put in flight comes from a record, for an entry of its symbol. -/
theorem mem_registered (h : x ∈ s.registered u date) :
  ∃ e ∈ s.position.entries, ∃ d, u.getEntitlement e.symbol date .regDate = some d
    ∧ (d.cashDiv > 0 ∨ d.getEntitledPos > 0) ∧ x.symbol = e.symbol
    ∧ x.entry.regDate = d.regDate ∧ x.entry.listDate = d.listDate
  := by
  obtain ⟨e, he, hx⟩ := mem_total.mp h
  unfold PositionEntry.registered at hx
  cases hd : u.getEntitlement e.symbol date .regDate with
  | none =>
    rw [hd] at hx
    exact absurd hx (Multiset.notMem_zero x)
  | some d =>
    rw [hd] at hx
    use e, he, d, hd
    rcases Multiset.mem_add.mp hx with hcash | hshares
    · obtain ⟨hpos, rfl⟩ := mem_one_ite.mp hcash
      exact ⟨.inl hpos, rfl, rfl, rfl⟩
    · obtain ⟨hpos, rfl⟩ := mem_one_ite.mp hshares
      exact ⟨.inr hpos, rfl, rfl, rfl⟩

end

/-! ### Runs -/

/-- A day of trading: any sales and purchases at the close prices of the date. -/
inductive Trade (close : String → Date → ℚ) (date : Date) :
    RollingStrategy → RollingStrategy → Prop
  | sell {s s' : RollingStrategy} {symbols : List String}
      (h : s.sell close date sellStampTax commission symbols = some s') : Trade close date s s'
  | buy (s : RollingStrategy) (symbols : List String) :
      Trade close date s (s.buy close date buyStampTax commission symbols)

/-- The daily cycle over some dates, from a new strategy, with the history of what was put in
flight and of what was settled, with its date.  `cond` is a condition on the strategy at the end
of a date, before the records of the date are put in flight. -/
inductive Days (close : String → Date → ℚ) (u : DividendUtil)
    (cond : RollingStrategy → Date → Prop) (cash : ℚ) :
    List Date → RollingStrategy → Multiset InFlight → Multiset (Date × InFlight) → Prop
  | start : Days close u cond cash [] (new cash) 0 0
  | day {dates : List Date} {s s' : RollingStrategy} {put : Multiset InFlight}
      {settled : Multiset (Date × InFlight)} {date : Date}
      (h : Days close u cond cash dates s put settled)
      (htrades : Relation.ReflTransGen (Trade close date) (s.processInflightPB date) s')
      (hcond : cond s' date) :
      Days close u cond cash (dates ++ [date]) (s'.processEntitlement u date)
        (put + s'.registered u date) (settled + (s.matured date).map fun x => (date, x))

/-- Each record is registered after the list dates of the records registered before it. -/
def Spaced (u : DividendUtil) : Prop :=
  ∀ symbol, ∀ r ∈ u.weights symbol, ∀ r' ∈ u.weights symbol, ∀ c c' l : Date,
    r.regDate = some c → r'.regDate = some c' → c < c' → r.listDate = some l → l < c'

/-- The records that the query admits have a list date or pay cash. -/
def Admitted (u : DividendUtil) : Prop :=
  ∀ symbol, ∀ r ∈ u.weights symbol, r.listDate ≠ none ∨ r.cashDiv ≠ 0

/-- A list date that is met: if a date of the run after the registration reaches it, it is a date
of the run after the registration itself. -/
def Met (dates : List Date) (c l : Date) : Prop :=
  (∃ d ∈ dates, c < d ∧ l ≤ d) → l ∈ dates ∧ c < l

/-- The condition under which the comparison for equality does no harm: what is put in flight for
an entry has a list date, and it is met. -/
def ListDatesMet (dates : List Date) (u : DividendUtil) (s : RollingStrategy) (date : Date) :
    Prop :=
  ∀ e ∈ s.position.entries, ∀ d, u.getEntitlement e.symbol date .regDate = some d →
    (d.cashDiv > 0 ∨ d.getEntitledPos > 0) → ∃ l, d.listDate = some l ∧ Met dates date l

/-- What is known of a dividend in flight after some dates of the run: it comes from a record, its
list date is met, and no date after the registration has reached it yet. -/
structure Flies (dates done : List Date) (u : DividendUtil) (x : InFlight) (c l : Date) :
    Prop where
  regDate : x.entry.regDate = some c
  listDate : x.entry.listDate = some l
  mem : c ∈ done
  record : ∃ r ∈ u.weights x.symbol, r.regDate = some c ∧ r.listDate = some l
  met : Met dates c l
  ahead : ∀ d ∈ done, c < d → d < l

/-- What every run keeps. -/
structure FlightInv (dates done : List Date) (u : DividendUtil) (s : RollingStrategy)
    (put : Multiset InFlight) (settled : Multiset (Date × InFlight)) : Prop where
  pending : ∀ x ∈ s.pending, ∃ c l, Flies dates done u x c l
  put : put = settled.map Prod.snd + s.pending
  settled : ∀ p ∈ settled, Listed p.1 p.2 ∧ p.1 ∈ done

/-- What settling on a date comes to: nothing is pending that is listed on or before the date or
has no list date, whatever was put in flight is settled or pending, what is settled was settled
once, on its list date, and it is added to the cash or the positions. -/
structure Settled (s : RollingStrategy) (date : Date) (put : Multiset InFlight)
    (settled : Multiset (Date × InFlight)) : Prop where
  pending : ∀ x ∈ (s.processInflightPB date).pending,
    ∃ l, x.entry.listDate = some l ∧ date < l
  put : put = (settled + (s.matured date).map fun x => (date, x)).map Prod.snd
    + (s.processInflightPB date).pending
  listed : ∀ p ∈ settled + (s.matured date).map (fun x => (date, x)), Listed p.1 p.2
  cash : (s.processInflightPB date).cash = s.cash + ((s.matured date).map InFlight.cash).sum
  amounts : ∀ symbol, (s.processInflightPB date).amountOf symbol
    = s.amountOf symbol + ((s.matured date).map (InFlight.shares symbol)).sum

section Runs

variable {close : String → Date → ℚ} {u : DividendUtil} {s s' : RollingStrategy} {date : Date}
  {done rest : List Date} {put : Multiset InFlight} {settled : Multiset (Date × InFlight)}
  {cash : ℚ} {x : InFlight}

theorem pending_trades (h : Relation.ReflTransGen (Trade close date) s s') :
  s'.pending = s.pending
  := by
  induction h with
  | refl => rfl
  | tail _ htrade ih =>
    cases htrade with
    | sell hsell => rw [pending_sell hsell, ih]
    | buy symbols => rw [buy, pending_buyFrom, ih]

/-- A date of the run before the next one is done. -/
theorem mem_done {l : Date} (hsorted : (done ++ date :: rest).Pairwise (· < ·))
    (hl : l ∈ done ++ date :: rest) (hlt : l < date) :
  l ∈ done
  := by
  rcases List.mem_append.mp hl with hdone | hlater
  · exact hdone
  · obtain ⟨-, hlater', -⟩ := List.pairwise_append.mp hsorted
    rcases List.mem_cons.mp hlater with rfl | hrest
    · exact absurd hlt (Nat.lt_irrefl l)
    · exact absurd ((List.pairwise_cons.mp hlater').1 l hrest) (Nat.lt_asymm hlt)

theorem lt_of_mem_done {d : Date} (hsorted : (done ++ date :: rest).Pairwise (· < ·))
    (hd : d ∈ done) :
  d < date
  := (List.pairwise_append.mp hsorted).2.2 d hd date List.mem_cons_self

/-- A dividend that is not listed on the next date is listed later. -/
theorem Flies.lt {c l : Date} (h : Flies (done ++ date :: rest) done u x c l)
    (hsorted : (done ++ date :: rest).Pairwise (· < ·)) (hnot : ¬ Listed date x) :
  date < l
  := by
  by_contra hle
  have hc := lt_of_mem_done hsorted h.mem
  obtain ⟨hmem, hlt⟩ := h.met ⟨date, by simp, hc, Nat.not_lt.mp hle⟩
  have hne : l ≠ date := by
    rintro rfl
    exact hnot h.listDate
  have hdone := mem_done hsorted hmem (Nat.lt_of_le_of_ne (Nat.not_lt.mp hle) hne)
  exact Nat.lt_irrefl l (h.ahead l hdone hlt)

section

variable (h : FlightInv (done ++ date :: rest) done u s put settled)
  (hsorted : (done ++ date :: rest).Pairwise (· < ·))
include h hsorted

/-- What is pending after a date is settled. -/
theorem FlightInv.pending_processInflightPB (hx : x ∈ (s.processInflightPB date).pending) :
  ∃ c l, Flies (done ++ date :: rest) done u x c l ∧ date < l
  := by
  rw [RollingStrategy.pending_processInflightPB] at hx
  obtain ⟨hmem, hnot⟩ := Multiset.mem_filter.mp hx
  obtain ⟨c, l, hflies⟩ := h.pending x hmem
  exact ⟨c, l, hflies, hflies.lt hsorted hnot⟩

/-- Settling on the next date. -/
theorem FlightInv.settle :
  Settled s date put settled
  := by
  refine ⟨?_, ?_, ?_, cash_processInflightPB s date, amountOf_processInflightPB s date⟩
  · intro x hx
    obtain ⟨c, l, hflies, hlt⟩ := h.pending_processInflightPB hsorted hx
    exact ⟨l, hflies.listDate, hlt⟩
  · rw [Multiset.map_add, Multiset.map_map, add_assoc, h.put]
    simp only [Function.comp_def, Multiset.map_id']
    rw [matured_eq, RollingStrategy.pending_processInflightPB, Multiset.filter_add_not]
  · intro p hp
    rcases Multiset.mem_add.mp hp with hold | hnew
    · exact (h.settled p hold).1
    · obtain ⟨x, hx, rfl⟩ := Multiset.mem_map.mp hnew
      rw [matured_eq] at hx
      exact (Multiset.mem_filter.mp hx).2

/-- No record replaces what is in flight. -/
theorem FlightInv.clear (hspaced : Spaced u)
    (hpending : s'.pending = (s.processInflightPB date).pending) {e : PositionEntry}
    (he : e ∈ s'.position.entries) {d : Dividend}
    (hd : u.getEntitlement e.symbol date .regDate = some d) :
  e.Clear d
  := by
  obtain ⟨hmem, hreg⟩ := DividendUtil.find_mem hd
  have hnone : ∀ x ∈ e.pending, False := by
    intro x hx
    have hflight : x ∈ (s.processInflightPB date).pending := by
      rw [← hpending]
      exact mem_total.mpr ⟨e, he, hx⟩
    obtain ⟨c, l, hflies, hlt⟩ := h.pending_processInflightPB hsorted hflight
    obtain ⟨r, hr, hrc, hrl⟩ := hflies.record
    rw [PositionEntry.symbol_of_mem_pending hx] at hr
    have hc := lt_of_mem_done hsorted hflies.mem
    exact Nat.lt_asymm hlt (hspaced e.symbol r hr d hmem c date l hrc hreg hc hrl)
  have hnil : ∀ kind v, one e.symbol kind v ≤ e.pending → v = none := by
    intro kind v hle
    cases v with
    | none => rfl
    | some p =>
      have hmem : (⟨e.symbol, kind, p⟩ : InFlight) ∈ one e.symbol kind (some p) :=
        mem_one.mpr ⟨rfl, rfl, rfl⟩
      exact (hnone _ (Multiset.mem_of_le hle hmem)).elim
  exact ⟨fun _ => hnil _ _ (Multiset.le_add_right _ _),
    fun _ => hnil _ _ (Multiset.le_add_left _ _)⟩

/-- A day keeps what every run keeps. -/
theorem FlightInv.day (hspaced : Spaced u)
    (htrades : Relation.ReflTransGen (Trade close date) (s.processInflightPB date) s')
    (hmet : ListDatesMet (done ++ date :: rest) u s' date) :
  FlightInv (done ++ date :: rest) (done ++ [date]) u (s'.processEntitlement u date)
    (put + s'.registered u date) (settled + (s.matured date).map fun x => (date, x))
  := by
  have hpending := pending_trades htrades
  have hentitle := pending_processEntitlement (u := u) (s := s') fun e he d hd =>
    h.clear hsorted hspaced hpending he hd
  have hsettled := h.settle hsorted
  refine ⟨?_, ?_, ?_⟩
  · intro x hx
    rw [hentitle, hpending] at hx
    rcases Multiset.mem_add.mp hx with hold | hnew
    · obtain ⟨c, l, hflies, hlt⟩ := h.pending_processInflightPB hsorted hold
      refine ⟨c, l, { hflies with mem := List.mem_append_left _ hflies.mem, ahead := ?_ }⟩
      intro d hd hcd
      rw [List.mem_append, List.mem_singleton] at hd
      rcases hd with hdone | rfl
      · exact hflies.ahead d hdone hcd
      · exact hlt
    · obtain ⟨e, he, d, hd, hpays, hsymbol, hreg, hlist⟩ := mem_registered hnew
      obtain ⟨l, hl, hmet⟩ := hmet e he d hd hpays
      obtain ⟨hmem, hdate⟩ := DividendUtil.find_mem hd
      refine ⟨date, l, hreg.trans hdate, hlist.trans hl, by simp, ?_, hmet, ?_⟩
      · rw [hsymbol]
        exact ⟨d, hmem, hdate, hl⟩
      · intro d' hd' hlt
        rcases List.mem_append.mp hd' with hdone | hlast
        · exact absurd hlt (Nat.lt_asymm (lt_of_mem_done hsorted hdone))
        · rw [List.mem_singleton.mp hlast] at hlt
          exact absurd hlt (Nat.lt_irrefl date)
  · rw [hentitle, hpending, ← add_assoc, ← hsettled.put]
  · intro p hp
    refine ⟨hsettled.listed p hp, ?_⟩
    rcases Multiset.mem_add.mp hp with hold | hnew
    · exact List.mem_append_left _ (h.settled p hold).2
    · obtain ⟨x, -, rfl⟩ := Multiset.mem_map.mp hnew
      exact List.mem_append_right _ (List.mem_singleton_self date)

end

theorem FlightInv.run {dates : List Date} (hsorted : dates.Pairwise (· < ·))
    (hspaced : Spaced u) (hdays : Days close u (ListDatesMet dates u) cash done s put settled)
    (hdates : done <+: dates) :
  FlightInv dates done u s put settled
  := by
  induction hdays with
  | start =>
    refine ⟨?_, ?_, ?_⟩
    · intro x hx
      exact absurd hx (Multiset.notMem_zero x)
    · rfl
    · intro p hp
      exact absurd hp (Multiset.notMem_zero p)
  | @day done s s' put settled date hdays htrades hmet ih =>
    obtain ⟨rest, rfl⟩ := hdates
    rw [List.append_assoc, List.singleton_append] at *
    exact (ih (List.prefix_append _ _)).day hsorted hspaced htrades hmet

/-- Over any increasing list of dates and any table whose records are spaced, in every run of the
daily cycle that puts in flight only what has a list date that is met, settling on the next date
leaves nothing that is listed on or before it, and everything that was ever put in flight has
been settled exactly once, on its list date, or is still pending. -/
theorem dividends_settled (hsorted : (done ++ date :: rest).Pairwise (· < ·)) (hspaced : Spaced u)
    (hdays : Days close u (ListDatesMet (done ++ date :: rest) u) cash done s put settled) :
  Settled s date put settled
  := (FlightInv.run hsorted hspaced hdays (List.prefix_append _ _)).settle hsorted

end Runs

/-- The close price of every stock is 10.00. -/
def flatPrice (_ : String) (_ : Date) : ℚ := 10

/-- A dividend of 1.00, registered on day 1. -/
def oneDividend (listDate : Option Date) : DividendUtil :=
  ⟨fun _ => [⟨1, 0, 0, none, listDate, some 1, 0, 0⟩], fun _ => []⟩

/-- The strategy that buys 1000 shares on day 1, at the end of the day before the registration. -/
def boughtOnDayOne : RollingStrategy :=
  ((new 100000).processInflightPB 1).buy flatPrice 1 buyStampTax commission ["600000.sh"]

/-- The strategy at the end of day 1. -/
def dayOne (listDate : Option Date) : RollingStrategy :=
  boughtOnDayOne.processEntitlement (oneDividend listDate) 1

theorem spaced_oneDividend (listDate : Option Date) :
  Spaced (oneDividend listDate)
  := by
  intro symbol r hr r' hr' c c' l hc hc' hlt
  rw [List.mem_singleton.mp hr] at hc
  rw [List.mem_singleton.mp hr'] at hc'
  obtain rfl : 1 = c := Option.some.inj hc
  obtain rfl : 1 = c' := Option.some.inj hc'
  exact absurd hlt (Nat.lt_irrefl 1)

theorem admitted_oneDividend (listDate : Option Date) :
  Admitted (oneDividend listDate)
  := by
  intro symbol r hr
  rw [List.mem_singleton.mp hr]
  exact .inr one_ne_zero

theorem days_dayOne {listDate : Option Date} {cond : RollingStrategy → Date → Prop}
    (hcond : cond boughtOnDayOne 1) :
  Days flatPrice (oneDividend listDate) cond 100000 [1] (dayOne listDate)
    (0 + boughtOnDayOne.registered (oneDividend listDate) 1)
    (0 + ((new 100000).matured 1).map fun x => (1, x))
  := Days.day Days.start (Relation.ReflTransGen.single (Trade.buy _ _)) hcond

/-- A dividend that is listed on day 2 is settled on day 2. -/
theorem dividends_settled_next_day :
  ((dayOne (some 2)).processInflightPB 2).cash = (dayOne (some 2)).cash + 1000
  := by
  have hmet : ListDatesMet [1, 2] (oneDividend (some 2)) boughtOnDayOne 1 := by
    intro e _ d hd _
    obtain rfl := Option.some.inj (show some _ = some d from hd)
    exact ⟨2, rfl, fun _ => ⟨by simp, by simp⟩⟩
  have hsorted : ([1] ++ 2 :: [] : List Date).Pairwise (· < ·) := by simp
  have h := dividends_settled hsorted (spaced_oneDividend (some 2)) (days_dayOne hmet)
  rw [h.cash]
  congr 1
  decide +kernel

/-- A dividend without a list date, and one that is listed on a day on which the strategy does
not run, are still pending afterwards. -/
theorem not_dividends_settled :
  (Admitted (oneDividend none) ∧ Spaced (oneDividend none)
    ∧ (∃ put settled, Days flatPrice (oneDividend none) (fun _ _ => True) 100000 [1]
        (dayOne none) put settled)
    ∧ ∃ x ∈ ((dayOne none).processInflightPB 2).pending, x.entry.listDate = none)
    ∧ (Admitted (oneDividend (some 2)) ∧ Spaced (oneDividend (some 2))
      ∧ (∃ put settled, Days flatPrice (oneDividend (some 2)) (fun _ _ => True) 100000 [1]
          (dayOne (some 2)) put settled)
      ∧ ∃ x ∈ ((dayOne (some 2)).processInflightPB 3).pending, x.entry.listDate = some 2)
  := by
  refine ⟨⟨admitted_oneDividend _, spaced_oneDividend _, ⟨_, _, days_dayOne trivial⟩, ?_⟩,
    ⟨admitted_oneDividend _, spaced_oneDividend _, ⟨_, _, days_dayOne trivial⟩, ?_⟩⟩
  · exact ⟨⟨"600000.sh", .cash, ⟨1000, some 1, none⟩⟩, by decide +kernel, rfl⟩
  · exact ⟨⟨"600000.sh", .cash, ⟨1000, some 1, some 2⟩⟩, by decide +kernel, rfl⟩

end RollingStrategy
