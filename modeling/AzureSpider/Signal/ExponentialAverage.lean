import AzureSpider.Signal.MovingAverage
import Mathlib.Algebra.Order.Field.Basic
import Mathlib.Algebra.Order.Ring.Rat
import Mathlib.Data.List.Sort
import Mathlib.Logic.Relation
import Mathlib.Tactic.Linarith

/-!
# The exponential moving average

`EMovingAverage.java` with the prices and the cache of `AbstractPriceMomentumSignal.java`.  A query
for a date that is not in the cache computes the averages of all dates of its symbol.  Numbers are
exact.
-/

namespace EMovingAverage

open PriceMomentum

/-- The prices and the cached averages of a symbol; the methods use no other symbol's. -/
structure State (D : Type) where
  stocks : List (Entry D) := []
  averages : D → Option ℚ := fun _ => none

variable {D : Type} [LinearOrder D]

/-- `addPrices` with the prices of the symbol; `addPrice` adds one. -/
def addPrices (t : State D) (batch : List (Entry D)) (sort : Bool) : State D :=
  let s := t.stocks ++ batch
  { t with stocks := if sort then s.insertionSort fun e e' => e.date ≤ e'.date else s }

/-- `calculateFactor`. -/
def calculateFactor (c : ℕ) : ℚ × ℚ := (1 / c, (c - 1) / c)

/-- The first rounds of the loop of `calculateEM`, which reads the average of the date before back
from the cache.  A missing price or average is an exception. -/
def rounds (c : ℕ) (stocks : List (Entry D)) (averages : D → Option ℚ) :
    ℕ → Option (D → Option ℚ)
  | 0 => some averages
  | i + 1 => do
      let averages ← rounds c stocks averages i
      let s ← stocks[i]?
      if i = 0 then return Function.update averages s.date (some s.value)
      let previous ← stocks[i - 1]? >>= fun s => averages s.date
      let v := s.value * (calculateFactor c).1 + previous * (calculateFactor c).2
      return Function.update averages s.date (some v)

/-- `calculate`.  It throws for a cycle that is not positive and without prices; the result `none`
is `NaN`. -/
def calculate (c : ℕ) (date : D) (t : State D) : Option (Option ℚ × State D) :=
  if c = 0 ∨ t.stocks = [] then none
  else if binarySearch t.stocks date < 0 then some (none, t)
  else do
    let averages ←
      if t.averages date = none then rounds c t.stocks t.averages t.stocks.length else t.averages
    let v ← averages date
    return (some v, { t with averages })

/-- `e₀ = p₀` and `eᵢ₊₁ = pᵢ₊₁ / c + eᵢ (c - 1) / c`. -/
def ema (c : ℕ) (p : ℕ → ℚ) : ℕ → ℚ
  | 0 => p 0
  | i + 1 => p (i + 1) / c + ema c p i * (c - 1) / c

/-- The price of index `i`. -/
def price (stocks : List (Entry D)) (i : ℕ) : ℚ := (stocks[i]?.map Entry.value).getD 0

variable {c i : ℕ} {p : ℕ → ℚ} {stocks batch : List (Entry D)} {averages : D → Option ℚ}
  {t t' u : State D} {date : D} {s : Entry D}

omit [LinearOrder D] in
/-- Later prices change no average. -/
theorem ema_append (hi : i < stocks.length) :
  ema c (price (stocks ++ batch)) i = ema c (price stocks) i
  := by
  induction i with
  | zero => rw [ema, price, List.getElem?_append_left hi, ema, price]
  | succ i ih => rw [ema, ih (by omega), price, List.getElem?_append_left hi, ema, price]

/-- The averages in the cache are those of the recursion. -/
structure Exact (c : ℕ) (stocks : List (Entry D)) (averages : D → Option ℚ) : Prop where
  sorted : Sorted stocks
  average : ∀ {date v}, averages date = some v →
    ∃ i s, stocks[i]? = some s ∧ s.date = date ∧ v = ema c (price stocks) i

theorem Exact.value (h : Exact c stocks averages) (hs : stocks[i]? = some s)
    (hne : averages s.date ≠ none) :
  averages s.date = some (ema c (price stocks) i)
  := by
  obtain ⟨v, hv⟩ := Option.ne_none_iff_exists'.mp hne
  obtain ⟨j, s', hs', hdate, rfl⟩ := h.average hv
  have hnodup : (stocks.map Entry.date).Nodup := List.pairwise_map.mpr (h.sorted.imp ne_of_lt)
  have hj := (List.getElem?_eq_some_iff.mp hs').1
  have hji : j = i := by
    apply (List.getElem?_inj (by simpa using hj) hnodup).mp
    simp [hs, hs', hdate]
  rw [hv, hji]

/-- The rounds fill in the averages of their dates. -/
theorem exists_rounds (h : Exact c stocks averages) {n : ℕ} (hn : n ≤ stocks.length) :
  ∃ averages', rounds c stocks averages n = some averages' ∧ Exact c stocks averages' ∧
    ∀ j s, j < n → stocks[j]? = some s → averages' s.date ≠ none
  := by
  induction n with
  | zero => exact ⟨averages, rfl, h, by simp⟩
  | succ i ih =>
    obtain ⟨averages', hrounds, h', hfilled⟩ := ih (by omega)
    have hs := List.getElem?_eq_getElem hn
    have hround : rounds c stocks averages (i + 1) = some (Function.update averages'
        stocks[i].date (some (ema c (price stocks) i))) := by
      rw [rounds, hrounds]
      cases i with
      | zero => simp [hs, ema, price]
      | succ i =>
        have hbefore := List.getElem?_eq_getElem (Nat.lt_of_succ_lt hn)
        have hvalue := h'.value hbefore (hfilled i _ i.lt_succ_self hbefore)
        simp [hs, hbefore, hvalue, ema, price, calculateFactor, div_eq_mul_inv, mul_assoc]
    refine ⟨_, hround, ⟨h.sorted, fun {date v} hv => ?_⟩, fun j s hj hsj => ?_⟩
    · rw [Function.update_apply] at hv
      split_ifs at hv with hdate
      · exact ⟨i, _, hs, hdate.symm, (Option.some.inj hv).symm⟩
      · apply h'.average hv
    · rw [Function.update_apply]
      split_ifs with hdate
      · nofun
      · refine hfilled j s ((Nat.lt_succ_iff_lt_or_eq.mp hj).resolve_right ?_) hsj
        rintro rfl
        exact hdate (congrArg Entry.date (Option.some.inj (hsj.symm.trans hs)))

/-- For a date of the list `calculate` returns its average. -/
theorem Exact.calculate (h : Exact c t.stocks t.averages) (hc : 1 ≤ c)
    (hs : t.stocks[i]? = some s) :
  ∃ averages, calculate c s.date t = some (some (ema c (price t.stocks) i), { t with averages }) ∧
    Exact c t.stocks averages
  := by
  have hindex : ¬ binarySearch t.stocks s.date < 0 := by
    obtain ⟨early, late, hsplit⟩ := List.append_of_mem (List.mem_of_getElem? hs)
    rw [hsplit, binarySearch_found (hsplit ▸ h.sorted)]
    omega
  have hsome : ¬ (c = 0 ∨ t.stocks = []) := by
    rintro (rfl | hnil)
    · contradiction
    · simp [hnil] at hs
  rw [EMovingAverage.calculate, if_neg hsome, if_neg hindex]
  split_ifs with hcached
  · obtain ⟨averages, hrounds, h', hfilled⟩ := exists_rounds h le_rfl
    have hv := h'.value hs (hfilled i s (List.getElem?_eq_some_iff.mp hs).1 hs)
    exact ⟨averages, by simp [hrounds, hv], h'⟩
  · exact ⟨t.averages, by simp [h.value hs hcached], h⟩

/-- Later prices are added, or an average is asked for. -/
inductive Step (c : ℕ) (t : State D) : State D → Prop
  | add {batch sort} (h : Sorted (t.stocks ++ batch)) : Step c t (addPrices t batch sort)
  | query {date r t'} (h : calculate c date t = some (r, t')) : Step c t t'

/-- A step leaves the averages right and the prices at their indices. -/
theorem Step.exact (h : Exact c t.stocks t.averages) (hstep : Step c t t') :
  Exact c t'.stocks t'.averages ∧ t.stocks <+: t'.stocks
  := by
  cases hstep with
  | @add batch sort hsorted =>
    have hsame : addPrices t batch sort = { t with stocks := t.stocks ++ batch } := by
      simp [addPrices, List.Pairwise.insertionSort_eq (hsorted.imp le_of_lt)]
    rw [hsame]
    refine ⟨⟨hsorted, fun hv => ?_⟩, List.prefix_append t.stocks batch⟩
    obtain ⟨i, s, hs, hdate, rfl⟩ := h.average hv
    have hi := (List.getElem?_eq_some_iff.mp hs).1
    exact ⟨i, s, (List.getElem?_append_left hi).trans hs, hdate, (ema_append hi).symm⟩
  | @query date r _ hcall =>
    by_cases hfound : t.stocks[t.stocks.countP (·.date < date)]?.map Entry.date = some date
    · have hc : c ≠ 0 := by
        rintro rfl
        simp [calculate] at hcall
      obtain ⟨s, hs, rfl⟩ := Option.map_eq_some_iff.mp hfound
      obtain ⟨averages, hu, hexact⟩ := h.calculate (Nat.one_le_iff_ne_zero.mpr hc) hs
      obtain ⟨-, rfl⟩ := Prod.mk.inj (Option.some.inj (hu.symm.trans hcall))
      exact ⟨hexact, List.prefix_rfl⟩
    · have hindex : binarySearch t.stocks date < 0 := by
        rw [binarySearch, if_neg hfound]
        omega
      simp only [calculate, if_pos hindex, Option.ite_none_left_eq_some, Option.some.injEq,
        Prod.mk.injEq] at hcall
      obtain ⟨-, -, rfl⟩ := hcall
      exact ⟨h, List.prefix_rfl⟩

end EMovingAverage
