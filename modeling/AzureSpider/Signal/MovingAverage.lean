import Mathlib.Algebra.BigOperators.Group.List.Basic
import Mathlib.Algebra.Field.Rat
import Mathlib.Data.Int.SuccPred

/-!
# The simple moving average

`SMovingAverage.java`: the mean of the last prices of a symbol.  The dates are the days of a
calendar, a linear order; `DateUtil.previousDay` is the predecessor.  Numbers are exact.
-/

namespace PriceMomentum

/-- `GenericComputableEntry`, of one symbol. -/
structure Entry (D : Type) where
  date : D
  value : ℚ
  deriving DecidableEq

variable {D : Type} [LinearOrder D]

/-- The entries are in the order of their dates, which are distinct. -/
def Sorted (stocks : List (Entry D)) : Prop := stocks.Pairwise fun e e' => e.date < e'.date

/-- `Collections.binarySearch` in a sorted list: the index of the date, or `-p - 1` if it is
missing and `p` is where it would be inserted. -/
def binarySearch (stocks : List (Entry D)) (date : D) : ℤ :=
  let p := stocks.countP fun e => e.date < date
  if stocks[p]?.map Entry.date = some date then p else -p - 1

variable {stocks early late : List (Entry D)} {date : D} {e : Entry D}

theorem Sorted.before (h : Sorted (early ++ e :: late)) : ∀ e' ∈ early, e'.date < e.date :=
  fun e' he' => (List.pairwise_append.mp h).2.2 e' he' e List.mem_cons_self

theorem Sorted.after (h : Sorted (early ++ e :: late)) : ∀ e' ∈ late, e.date < e'.date :=
  (List.pairwise_cons.mp (List.pairwise_append.mp h).2.1).1

/-- A date of the list is found at its index. -/
theorem binarySearch_found (h : Sorted (early ++ e :: late)) :
  binarySearch (early ++ e :: late) e.date = early.length
  := by
  have hearly : early.countP (fun e' => e'.date < e.date) = early.length := by
    simpa [List.countP_eq_length] using h.before
  have hlate : (e :: late).countP (fun e' => e'.date < e.date) = 0 := by
    simpa [List.countP_eq_zero] using fun e' he' => (h.after e' he').le
  simp [binarySearch, hearly, hlate, List.countP_append]

/-- Between two dates of the list, and at its ends, the place for an insertion is found. -/
theorem binarySearch_missing (hearly : ∀ e ∈ early, e.date < date)
    (hlate : ∀ e ∈ late, date < e.date) :
  binarySearch (early ++ late) date = -early.length - 1
  := by
  have hcount : (early ++ late).countP (fun e => e.date < date) = early.length := by
    rw [List.countP_append, List.countP_eq_length.mpr (by simpa using hearly),
      List.countP_eq_zero.mpr (by simpa using fun e he => (hlate e he).le), Nat.add_zero]
  have hne : (early ++ late)[early.length]?.map Entry.date ≠ some date := by
    rw [List.getElem?_append_right le_rfl, Nat.sub_self]
    intro hfound
    obtain ⟨e, he, hdate⟩ := Option.map_eq_some_iff.mp hfound
    exact (hlate e (List.mem_of_getElem? he)).ne' hdate
  simp only [binarySearch, hcount, if_neg hne]

end PriceMomentum

namespace SMovingAverage

open PriceMomentum

variable {D : Type} [LinearOrder D] [PredOrder D]

/-- The inner loop of `calculateMean`, which passes the days without a price; it ends where a
price is found or all prices are later.  Without fuel there is no result. -/
def search (stocks : List (Entry D)) : ℕ → D → Option (D × ℤ)
  | 0, _ => none
  | fuel + 1, date =>
    let index := binarySearch stocks date
    if index < 0 ∧ (index + 1).natAbs ≠ 0 then search stocks fuel (Order.pred date)
    else some (date, index)

/-- The loop of `calculateMean` over the cycle, with the values of `stat`. -/
def collect (stocks : List (Entry D)) (fuel : ℕ) : ℕ → D → List ℚ → Option (List ℚ)
  | 0, _, stat => some stat
  | i + 1, curDate, stat => do
      let (date, index) ← search stocks fuel curDate
      if 0 ≤ index then
        let e ← stocks[index.toNat]?
        collect stocks fuel i (Order.pred date) (stat ++ [e.value])
      else
        collect stocks fuel i (Order.pred date) stat

/-- `DescriptiveStatistics.getMean`, which is `NaN` without values. -/
def getMean (stat : List ℚ) : Option ℚ :=
  if stat = [] then none else some (stat.sum / stat.length)

/-- `calculateMean`. -/
def calculateMean (fuel : ℕ) (stocks : List (Entry D)) (cycle : ℕ) (date : D) :
    Option (Option ℚ) :=
  (collect stocks fuel cycle date []).map getMean

variable {stocks early late : List (Entry D)} {date : D} {e : Entry D} {fuel : ℕ}

/-- With every price later than the date the search ends at once. -/
theorem search_later (hlate : ∀ e ∈ stocks, date < e.date) :
  search stocks (fuel + 1) date = some (date, -1)
  := by
  have hindex := binarySearch_missing (List.forall_mem_nil _) hlate
  rw [List.nil_append] at hindex
  simp [search, hindex]

theorem search_found (h : Sorted (early ++ e :: late)) :
  search (early ++ e :: late) (fuel + 1) e.date = some (e.date, (early.length : ℤ))
  := by
  rw [search, binarySearch_found h, if_neg (by omega)]

/-- A day between the last price and the next one is passed. -/
theorem search_pass (h : Sorted (early ++ e :: late)) (hlate : ∀ e' ∈ late, date < e'.date)
    (hdate : e.date < date) :
  search (early ++ e :: late) (fuel + 1) date
    = search (early ++ e :: late) fuel (Order.pred date)
  := by
  have hearly : ∀ e' ∈ early ++ [e], e'.date < date := by
    intro e' he'
    rcases List.mem_append.mp he' with he' | he'
    · exact (h.before e' he').trans hdate
    · rwa [List.mem_singleton.mp he']
  have hindex := binarySearch_missing hearly hlate
  rw [List.append_assoc, List.singleton_append, List.length_append, List.length_singleton] at hindex
  rw [search, hindex, if_pos (by omega)]

/-- The search ends at the last price that is not later, as there are finitely many days from
it. -/
theorem exists_search [IsPredArchimedean D] (h : Sorted (early ++ e :: late))
    (hlate : ∀ e' ∈ late, date < e'.date) (hdate : e.date ≤ date) :
  ∃ least, ∀ fuel ≥ least,
    search (early ++ e :: late) fuel date = some (e.date, (early.length : ℤ))
  := by
  obtain ⟨n, hn⟩ := hdate.exists_pred_iterate
  use n + 1
  intro fuel hfuel
  obtain ⟨fuel, rfl⟩ := Nat.exists_eq_add_of_le' hfuel
  induction n generalizing date with
  | zero =>
    obtain rfl : date = e.date := hn
    exact search_found h
  | succ n ih =>
    rcases hdate.eq_or_lt with rfl | hlt
    · exact search_found h
    · rw [← Nat.add_assoc, search_pass h hlate hlt]
      apply ih (fun e' he' => (Order.pred_le date).trans_lt (hlate e' he'))
        (Order.le_pred_of_lt hlt) hn
      omega

/-- The prices that are not later than the date are collected from the last one on. -/
theorem exists_collect [NoMinOrder D] [IsPredArchimedean D] (cycle : ℕ) (stat : List ℚ)
    (h : Sorted (early ++ late)) (hearly : ∀ e ∈ early, e.date ≤ date)
    (hlate : ∀ e ∈ late, date < e.date) :
  ∃ least, ∀ fuel ≥ least, collect (early ++ late) fuel cycle date stat
    = some (stat ++ (early.reverse.take cycle).map Entry.value)
  := by
  induction cycle generalizing early late date stat with
  | zero => simp [collect]
  | succ cycle ih =>
    rcases early.eq_nil_or_concat with rfl | ⟨early, e, rfl⟩
    · obtain ⟨least, hleast⟩ := ih stat h (List.forall_mem_nil _)
        fun e he => (Order.pred_le date).trans_lt (hlate e he)
      use least + 1
      intro fuel hfuel
      obtain ⟨fuel, rfl⟩ := Nat.exists_eq_add_of_le' (Nat.one_le_of_lt hfuel)
      rw [collect, List.nil_append, search_later hlate]
      simpa using hleast (fuel + 1) (by omega)
    · -- the search for the price that comes next starts on the day before this one
      rw [List.concat_append] at h ⊢
      obtain ⟨least, hleast⟩ := ih (stat ++ [e.value]) h
        (fun e' he' => Order.le_pred_of_lt (h.before e' he'))
        (List.forall_mem_cons.mpr ⟨Order.pred_lt e.date,
          fun e' he' => (Order.pred_lt e.date).trans (h.after e' he')⟩)
      obtain ⟨enough, henough⟩ := exists_search h hlate (hearly e (by simp))
      use max least enough
      intro fuel hfuel
      have hrest := hleast fuel (le_of_max_le_left hfuel)
      rw [collect, henough fuel (le_of_max_le_right hfuel)]
      simpa using hrest

/-- For a date of the list `calculateMean` returns the mean of the last prices up to it, at most
`cycle` of them. -/
theorem calculateMean_returns [NoMinOrder D] [IsPredArchimedean D] {cycle : ℕ}
    (hcycle : 1 ≤ cycle) (h : Sorted stocks) (hdate : date ∈ stocks.map Entry.date) :
  ∃ least, ∀ fuel ≥ least, calculateMean fuel stocks cycle date = some (some
    ((((stocks.filter (·.date ≤ date)).reverse.take cycle).map Entry.value).sum
      / min cycle (stocks.countP (·.date ≤ date))))
  := by
  obtain ⟨e, he, rfl⟩ := List.mem_map.mp hdate
  obtain ⟨early, late, rfl⟩ := List.append_of_mem he
  have hfilter : (early ++ e :: late).filter (·.date ≤ e.date) = early ++ [e] := by
    rw [List.filter_append, List.filter_cons_of_pos (by simp),
      List.filter_eq_self.mpr fun e' he' => decide_eq_true (h.before e' he').le,
      List.filter_eq_nil_iff.mpr (by simpa using h.after)]
  have hearly : ∀ e' ∈ early ++ [e], e'.date ≤ e.date := by
    intro e' he'
    rw [← hfilter] at he'
    exact of_decide_eq_true (List.mem_filter.mp he').2
  obtain ⟨least, hleast⟩ := exists_collect cycle [] (by simpa using h) hearly h.after
  use least
  intro fuel hfuel
  have hcollect := hleast fuel hfuel
  rw [List.append_assoc, List.singleton_append, List.nil_append] at hcollect
  rw [calculateMean, hcollect, Option.map_some, getMean, if_neg, List.countP_eq_length_filter,
    hfilter]
  · simp
  · simp [Nat.one_le_iff_ne_zero.mp hcycle]

/-- The two prices that count are three days apart. -/
theorem calculateMean_gap :
  ∃ least, ∀ fuel ≥ least,
    calculateMean fuel [⟨10, 7⟩, ⟨11, 2⟩, ⟨14, 5⟩, ⟨15, 4⟩] 2 (14 : ℤ) = some (some ((5 + 2) / 2))
  := by
  have hsorted : Sorted (D := ℤ) [⟨10, 7⟩, ⟨11, 2⟩, ⟨14, 5⟩, ⟨15, 4⟩] := by
    simp [Sorted]
  have hdate : 14 ∈ ([10, 11, 14, 15] : List ℤ) := by decide
  simpa using calculateMean_returns (Nat.le_succ 1) hsorted hdate

end SMovingAverage
