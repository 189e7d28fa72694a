import AzureSpider.Trading.Market
import Mathlib.Data.Finset.Sort
import Mathlib.Data.List.MinMax
import Mathlib.Data.Set.Finite.Lemmas

/-!
# Signals

`AbstractMeanVolatilitySignal.java`, which caches a statistic of the last returns for every date,
and the signals of `fundmental`, which look up the record of a company that is in force on a date.
Numbers are exact; `none` is an exception, or the value `INVALID_VALUE`, which is `NaN`.
-/

/-! ### Moving statistics -/

namespace MeanVolatilitySignal

/-- `GenericComputableEntry`: the return of a date. -/
structure ComputableEntry where
  date : Date
  value : ℚ

/-- The variables of the loop of `doCalculation`: the list `moving_data`, and the values that were
added to the statistics since they were cleared. -/
structure Window where
  movingData : List ℚ
  stats : Multiset ℚ

/-- The part of a round that adds a value; `remove(0)` on an empty list throws. -/
def Window.add (cycle : ℤ) (w : Window) (val : ℚ) : Option Window :=
  if 0 < cycle then
    if cycle ≤ w.movingData.length + 1 then
      match w.movingData with
      | [] => none
      | _ :: rest => some ⟨rest ++ [val], ↑(rest ++ [val])⟩
    else
      some ⟨w.movingData ++ [val], w.stats + {val}⟩
  else
    some ⟨w.movingData, w.stats + {val}⟩

/-- The return of a date less the risk-free rate, which throws if there is no rate. -/
def excess (rate : Date → Option ℚ) (entries : List ComputableEntry) (date : Date) : Option ℚ := do
  let e ← entries.reverse.find? fun e => e.date = date
  let r ← rate date
  pure (e.value - r)

/-- The loop of `doCalculation`. -/
def calculateFrom (pickValue : Multiset ℚ → ℚ) (cycle : ℤ) (excess : Date → Option ℚ) :
    Window → List Date → Option (List (Date × ℚ))
  | _, [] => some []
  | w, date :: dates => do
      let val ← excess date
      let w ← w.add cycle val
      let rest ← calculateFrom pickValue cycle excess w dates
      pure ((date, pickValue w.stats) :: rest)

/-- The dates, in the order of the `TreeSet`. -/
def keySet (entries : List ComputableEntry) : List Date :=
  (entries.map ComputableEntry.date).toFinset.sort (· ≤ ·)

/-- `doCalculation`: what is cached, in the order of the dates. -/
def doCalculation (pickValue : Multiset ℚ → ℚ) (cycle : ℤ) (rate : Date → Option ℚ)
    (entries : List ComputableEntry) : Option (List (Date × ℚ)) :=
  calculateFrom pickValue cycle (excess rate entries) ⟨[], 0⟩ (keySet entries)

/-- The excess returns of the last `c` dates up to the one with the index `i`. -/
def windowAt (ex : Date → Option ℚ) (c : ℕ) (dates : List Date) (i : ℕ) : List ℚ :=
  ((dates.take (i + 1)).drop (i + 1 - c)).map fun d => (ex d).getD 0

/-- Whatever statistic is picked, the one that is cached for a date is that of its window. -/
def Windowed (c : ℕ) (rate : Date → Option ℚ) (entries : List ComputableEntry) : Prop :=
  ∀ pickValue, ∃ cached, doCalculation pickValue c rate entries = some cached
    ∧ ∀ i, cached[i]? = (keySet entries)[i]?.map fun date =>
      (date, pickValue (windowAt (excess rate entries) c (keySet entries) i))

variable {pickValue : Multiset ℚ → ℚ} {c : ℕ} {ex : Date → Option ℚ} {vals : List ℚ}
  {dates : List Date}

theorem Window.add_filling (h : vals.length + 1 < c) (v : ℚ) :
  Window.add c ⟨vals, vals⟩ v = some ⟨vals ++ [v], ↑(vals ++ [v])⟩
  := by
  rw [Window.add, if_pos (by omega), if_neg (by simp; omega)]
  rfl

/-- As long as the window is not full, all values are kept. -/
theorem calculateFrom_filling (hex : ∀ d ∈ dates, (ex d).isSome)
    (hlen : vals.length + dates.length < c) :
  ∃ cached, calculateFrom pickValue c ex ⟨vals, vals⟩ dates = some cached
    ∧ ∀ i, cached[i]? = dates[i]?.map fun date =>
      (date, pickValue ↑(vals ++ (dates.take (i + 1)).map fun d => (ex d).getD 0))
  := by
  induction dates generalizing vals with
  | nil => exact ⟨[], rfl, by simp⟩
  | cons d dates ih =>
    obtain ⟨hd, hrest⟩ := List.forall_mem_cons.mp hex
    obtain ⟨v, hv⟩ := Option.isSome_iff_exists.mp hd
    rw [List.length_cons] at hlen
    obtain ⟨cached, hrun, hcached⟩ := @ih (vals ++ [v]) hrest (by simp; omega)
    refine ⟨(d, pickValue ↑(vals ++ [v])) :: cached, ?_, ?_⟩
    · simp [calculateFrom, hv, Window.add_filling (show vals.length + 1 < c by omega) v, hrun]
    intro i
    cases i with
    | zero => simp [hv]
    | succ i => simp [hcached, hv]

/-- When the window is full, the number of values in it is not the cycle. -/
theorem calculateFrom_full (hpos : vals.length < c) (hlen : c ≤ vals.length + dates.length)
    {cached : List (Date × ℚ)}
    (hrun : calculateFrom (fun m => m.card) c ex ⟨vals, vals⟩ dates = some cached) :
  ∃ i d, ∃ n : ℚ, cached[i]? = some (d, n) ∧ vals.length + i + 1 = c ∧ n ≠ c
  := by
  induction dates generalizing vals cached with
  | nil => exact absurd hlen (Nat.not_le.mpr hpos)
  | cons d dates ih =>
    simp only [calculateFrom, Option.bind_eq_bind, Option.bind_eq_some_iff] at hrun
    obtain ⟨v, -, w, hadd, rest, hrest, hcached⟩ := hrun
    obtain rfl := Option.some.inj hcached
    rw [List.length_cons] at hlen
    by_cases hfull : vals.length + 1 = c
    · -- the first value is removed although there is room for one more
      rw [Window.add, if_pos (by omega), if_pos (by simp; omega)] at hadd
      refine ⟨0, d, _, rfl, by omega, ?_⟩
      cases vals with
      | nil => cases hadd
      | cons x vals =>
        obtain rfl := Option.some.inj hadd
        simp only [Multiset.coe_card, List.length_append, List.length_cons, List.length_nil]
          at hfull ⊢
        norm_cast
        omega
    · rw [Window.add_filling (by omega)] at hadd
      obtain rfl := Option.some.inj hadd
      have hsucc : (vals ++ [v]).length = vals.length + 1 := List.length_append
      obtain ⟨i, d', n, hi, hci, hn⟩ := ih (by omega) (by omega) hrest
      exact ⟨i + 1, d', n, hi, by omega, hn⟩

/-- The windows are the ones that were asked for exactly if there are fewer dates than the cycle
says, so that no window gets full. -/
theorem doCalculation_windowed_iff (c : ℕ) (hc : 1 ≤ c) (rate : Date → Option ℚ)
    (entries : List ComputableEntry) (hdistinct : (entries.map ComputableEntry.date).Nodup)
    (hrate : ∀ e ∈ entries, (rate e.date).isSome) :
  Windowed c rate entries ↔ entries.length < c
  := by
  have hlen : (keySet entries).length = entries.length := by
    rw [keySet, Finset.length_sort, List.toFinset_card_of_nodup hdistinct, List.length_map]
  have hex : ∀ d ∈ keySet entries, (excess rate entries d).isSome := by
    intro d hd
    rw [keySet, Finset.mem_sort, List.mem_toFinset, List.mem_map] at hd
    obtain ⟨e, he, rfl⟩ := hd
    obtain ⟨r, hr⟩ := Option.isSome_iff_exists.mp (hrate e he)
    have hfind : (entries.reverse.find? fun x => x.date = e.date).isSome := by
      rw [List.find?_isSome]
      exact ⟨e, List.mem_reverse.mpr he, by simp⟩
    obtain ⟨x, hx⟩ := Option.isSome_iff_exists.mp hfind
    simp [excess, hx, hr]
  constructor
  · intro h
    by_contra hnot
    obtain ⟨cached, hrun, hcached⟩ := h fun m => m.card
    have hempty : ([] : List ℚ).length < c := hc
    obtain ⟨i, d, n, hi, hci, hn⟩ := calculateFrom_full hempty (by simp; omega) hrun
    rw [hcached] at hi
    obtain ⟨d', hd', heq⟩ := Option.map_eq_some_iff.mp hi
    apply hn
    rw [← (Prod.mk.inj heq).2, Multiset.coe_card]
    simp [windowAt] at hci ⊢
    omega
  · intro hlt pickValue
    have hroom : ([] : List ℚ).length + (keySet entries).length < c := by
      simpa [hlen] using hlt
    obtain ⟨cached, hrun, hcached⟩ := @calculateFrom_filling pickValue _ _ _ _ hex hroom
    refine ⟨cached, hrun, ?_⟩
    intro i
    rw [hcached]
    apply Option.map_congr
    intro d hd
    have hi := (List.getElem?_eq_some_iff.mp hd).1
    rw [windowAt, Nat.sub_eq_zero_of_le (by omega), List.drop_zero, List.nil_append]

/-- Two returns, and a window of three. -/
theorem doCalculation_windowed_two :
  Windowed 3 (fun _ => some 0) [⟨20080102, 1 / 10⟩, ⟨20080103, 1 / 5⟩]
  := (doCalculation_windowed_iff 3 (by decide) _ _ (by simp) (by simp)).mpr (by simp)

/-- With a window of one, the list is empty when its first value is to be removed. -/
theorem not_windowed_one :
  ¬ Windowed 1 (fun _ => some 0) [⟨20080102, 1 / 10⟩]
  := by
  intro h
  obtain ⟨cached, hrun, -⟩ := h fun _ => 0
  simp [doCalculation, keySet, calculateFrom, excess, Window.add] at hrun

end MeanVolatilitySignal

/-! ### Fundamental signals -/

/-- `FundmentalData`. -/
structure FundmentalData where
  symbol : String
  announceDate : Date
  earningPerShare : ℚ
  cashPerShare : ℚ

namespace FundmentalSignal

/-- A `TreeMap` from dates to values; its comparator turns the order of the dates around. -/
abbrev TreeMap : Type := List (Dateᵒᵈ × ℚ)

/-- `TreeMap.put`. -/
def TreeMap.put (m : TreeMap) (key : Dateᵒᵈ) (value : ℚ) : TreeMap :=
  (key, value) :: m.filter fun e => e.1 ≠ key

/-- `TreeMap.floorEntry`: the entry with the greatest key that is not greater than the given one,
in the order of the map. -/
def TreeMap.floorEntry (m : TreeMap) (key : Dateᵒᵈ) : Option (Dateᵒᵈ × ℚ) :=
  (m.filter fun e => e.1 ≤ key).argmax Prod.fst

/-- The map `values`: for every symbol, its map. -/
abbrev Values : Type := String → Option TreeMap

/-- `addFundmentalData`, for a signal that takes the value `getData` from a record. -/
def addFundmentalData (getData : FundmentalData → ℚ) (values : Values)
    (dataList : List FundmentalData) : Values :=
  dataList.foldl (fun values data => Function.update values data.symbol
    (some (((values data.symbol).getD []).put (.toDual data.announceDate) (getData data)))) values

/-- `calculate`. -/
def calculate (values : Values) (symbol : String) (date : Date) : Option ℚ := do
  let map ← values symbol
  let entry ← map.floorEntry (.toDual date)
  pure entry.2

/-- `calculate` of a signal that divides by the price of the day. -/
def calculateToPrice (values : Values) (prices : String → Date → Option ℚ) (symbol : String)
    (date : Date) : Option ℚ := do
  let map ← values symbol
  let price ← prices symbol date
  let entry ← map.floorEntry (.toDual date)
  pure (entry.2 / price)

/-- `EarningToPrice.calculate`, after records have been added. -/
def earningToPrice (dataList : List FundmentalData) :
    (String → Date → Option ℚ) → String → Date → Option ℚ :=
  calculateToPrice (addFundmentalData FundmentalData.earningPerShare (fun _ => none) dataList)

/-- `CashFlowToPrice.calculate`, after records have been added. -/
def cashFlowToPrice (dataList : List FundmentalData) :
    (String → Date → Option ℚ) → String → Date → Option ℚ :=
  calculateToPrice (addFundmentalData FundmentalData.cashPerShare (fun _ => none) dataList)

/-- The record of a symbol that was announced last, on the date or before. -/
structure Latest (records : List FundmentalData) (symbol : String) (date : Date)
    (r : FundmentalData) : Prop where
  mem : r ∈ records
  symbol_eq : r.symbol = symbol
  le : r.announceDate ≤ date
  latest : ∀ x ∈ records, x.symbol = symbol → x.announceDate ≤ date →
    x.announceDate ≤ r.announceDate

/-- The record of a symbol that was announced first, on the date or after it. -/
structure First (records : List FundmentalData) (symbol : String) (date : Date)
    (r : FundmentalData) : Prop where
  mem : r ∈ records
  symbol_eq : r.symbol = symbol
  le : date ≤ r.announceDate
  first : ∀ x ∈ records, x.symbol = symbol → date ≤ x.announceDate →
    r.announceDate ≤ x.announceDate

/-- The signals use the record that was announced last, on the date or before. -/
structure NoLookAhead (records : List FundmentalData) (prices : String → Date → Option ℚ)
    (symbol : String) (date : Date) : Prop where
  plain : ∀ getData v, calculate (addFundmentalData getData (fun _ => none) records) symbol date
    = some v ↔ ∃ r, Latest records symbol date r ∧ getData r = v
  earning : ∀ q, earningToPrice records prices symbol date = some q
    ↔ ∃ r, Latest records symbol date r ∧ (prices symbol date).map (r.earningPerShare / ·) = some q
  cashFlow : ∀ q, cashFlowToPrice records prices symbol date = some q
    ↔ ∃ r, Latest records symbol date r ∧ (prices symbol date).map (r.cashPerShare / ·) = some q

variable {getData : FundmentalData → ℚ} {records : List FundmentalData} {symbol : String}
  {date : Date}

theorem TreeMap.mem_put {m : TreeMap} {key : Dateᵒᵈ} {value : ℚ} {e : Dateᵒᵈ × ℚ} :
  e ∈ m.put key value ↔ e = (key, value) ∨ e ∈ m ∧ e.1 ≠ key
  := by
  simp [TreeMap.put]

theorem calculate_eq (values : Values) :
  calculate values symbol date
    = (((values symbol).getD []).floorEntry (.toDual date)).map Prod.snd
  := by
  unfold calculate
  cases values symbol with
  | none => rfl
  | some m => cases hfloor : m.floorEntry (.toDual date) <;> simp [hfloor]

theorem calculateToPrice_eq (values : Values) (prices : String → Date → Option ℚ) :
  calculateToPrice values prices symbol date
    = (calculate values symbol date).bind fun v => (prices symbol date).map (v / ·)
  := by
  simp only [calculate, calculateToPrice]
  cases values symbol with
  | none => rfl
  | some m =>
    cases hfloor : m.floorEntry (.toDual date) <;> cases prices symbol date <;> simp [hfloor]

theorem TreeMap.floorEntry_spec {m : TreeMap} {key : Dateᵒᵈ} {e : Dateᵒᵈ × ℚ}
    (h : m.floorEntry key = some e) :
  (e ∈ m ∧ e.1 ≤ key) ∧ ∀ x ∈ m, x.1 ≤ key → x.1 ≤ e.1
  := by
  have hmem := List.argmax_mem h
  refine ⟨by simpa using hmem, ?_⟩
  intro x hx hle
  exact List.le_of_mem_argmax (List.mem_filter.mpr ⟨hx, decide_eq_true hle⟩) h

theorem TreeMap.floorEntry_exists {m : TreeMap} {key : Dateᵒᵈ} {x : Dateᵒᵈ × ℚ} (hx : x ∈ m)
    (hle : x.1 ≤ key) :
  ∃ e, m.floorEntry key = some e
  := by
  apply Option.ne_none_iff_exists'.mp
  rw [ne_eq, TreeMap.floorEntry, List.argmax_eq_none]
  exact List.ne_nil_of_mem (List.mem_filter.mpr ⟨hx, decide_eq_true hle⟩)

theorem Latest.exists_of_mem {r : FundmentalData} (hr : r ∈ records) (hsymbol : r.symbol = symbol)
    (hle : r.announceDate ≤ date) :
  ∃ r, Latest records symbol date r
  := by
  obtain ⟨m, ⟨hm, hs, hd⟩, hmax⟩ := Set.exists_max_image
    {x | x ∈ records ∧ x.symbol = symbol ∧ x.announceDate ≤ date} FundmentalData.announceDate
    (records.finite_toSet.subset fun _ h => h.1) ⟨r, hr, hsymbol, hle⟩
  exact ⟨m, hm, hs, hd, fun x hx hs hd => hmax x ⟨hx, hs, hd⟩⟩

theorem First.exists_of_mem {r : FundmentalData} (hr : r ∈ records) (hsymbol : r.symbol = symbol)
    (hle : date ≤ r.announceDate) :
  ∃ r, First records symbol date r
  := by
  obtain ⟨m, ⟨hm, hs, hd⟩, hmin⟩ := Set.exists_min_image
    {x | x ∈ records ∧ x.symbol = symbol ∧ date ≤ x.announceDate} FundmentalData.announceDate
    (records.finite_toSet.subset fun _ h => h.1) ⟨r, hr, hsymbol, hle⟩
  exact ⟨m, hm, hs, hd, fun x hx hs hd => hmin x ⟨hx, hs, hd⟩⟩

variable (hdistinct : (records.map fun r => (r.symbol, r.announceDate)).Nodup)

include hdistinct

/-- What the maps hold after records with different dates have been added. -/
theorem mem_addFundmentalData {e : Dateᵒᵈ × ℚ} :
  e ∈ (addFundmentalData getData (fun _ => none) records symbol).getD []
    ↔ ∃ r ∈ records, r.symbol = symbol ∧ e = (.toDual r.announceDate, getData r)
  := by
  induction records using List.reverseRecOn generalizing symbol e with
  | nil => simp [addFundmentalData]
  | append_singleton records a ih =>
    rw [List.map_append, List.nodup_append] at hdistinct
    obtain ⟨hnodup, -, hnew⟩ := hdistinct
    simp only [addFundmentalData, List.foldl_append, List.foldl_cons, List.foldl_nil] at ih ⊢
    by_cases hsymbol : symbol = a.symbol
    · subst hsymbol
      simp only [Function.update_self, Option.getD_some, TreeMap.mem_put, ih hnodup,
        List.mem_append, List.mem_singleton]
      constructor
      · rintro (rfl | ⟨⟨r, hr, hsymbol, rfl⟩, -⟩)
        · exact ⟨a, .inr rfl, rfl, rfl⟩
        · exact ⟨r, .inl hr, hsymbol, rfl⟩
      · rintro ⟨r, hr | rfl, hsymbol, rfl⟩
        · refine .inr ⟨⟨r, hr, hsymbol, rfl⟩, ?_⟩
          intro hdate
          apply hnew _ (List.mem_map_of_mem hr) _ List.mem_cons_self
          rw [hsymbol, OrderDual.toDual_inj.mp hdate]
        · exact .inl rfl
    · simp only [Function.update_of_ne hsymbol, ih hnodup]
      simp [Ne.symm hsymbol]

theorem eq_of_announceDate_eq {r x : FundmentalData} (hr : r ∈ records) (hx : x ∈ records)
    (hsymbol : r.symbol = x.symbol) (hdate : r.announceDate = x.announceDate) :
  r = x
  := List.inj_on_of_nodup_map hdistinct hr hx (Prod.ext hsymbol hdate)

/-- The floor in the order of the map is the first date from the given one on. -/
theorem calculate_first (getData : FundmentalData → ℚ) (v : ℚ) :
  calculate (addFundmentalData getData (fun _ => none) records) symbol date = some v
    ↔ ∃ r, First records symbol date r ∧ getData r = v
  := by
  have hmem := @mem_addFundmentalData getData records symbol hdistinct
  rw [calculate_eq, Option.map_eq_some_iff]
  generalize (addFundmentalData getData (fun _ => none) records symbol).getD [] = m at hmem
  have hfirst : ∀ e, m.floorEntry (.toDual date) = some e
      → ∃ r, First records symbol date r ∧ e = (.toDual r.announceDate, getData r) := by
    intro e he
    obtain ⟨⟨hin, hle⟩, hmax⟩ := TreeMap.floorEntry_spec he
    obtain ⟨r, hr, hsymbol, rfl⟩ := hmem.mp hin
    refine ⟨r, ⟨hr, hsymbol, hle, ?_⟩, rfl⟩
    intro x hx hxsymbol hxle
    exact hmax _ (hmem.mpr ⟨x, hx, hxsymbol, rfl⟩) hxle
  constructor
  · rintro ⟨e, he, rfl⟩
    obtain ⟨r, hr, rfl⟩ := hfirst e he
    exact ⟨r, hr, rfl⟩
  · rintro ⟨r, hr, rfl⟩
    obtain ⟨e, he⟩ := TreeMap.floorEntry_exists (hmem.mpr ⟨r, hr.mem, hr.symbol_eq, rfl⟩)
      (OrderDual.toDual_le_toDual.mpr hr.le)
    obtain ⟨x, hx, rfl⟩ := hfirst e he
    have hdate := le_antisymm (hx.first r hr.mem hr.symbol_eq hr.le)
      (hr.first x hx.mem hx.symbol_eq hx.le)
    obtain rfl := eq_of_announceDate_eq hdistinct hx.mem hr.mem
      (hx.symbol_eq.trans hr.symbol_eq.symm) hdate
    exact ⟨_, he, rfl⟩

/-- On the date of a record, that record is the last one so far and the first one from then on. -/
theorem first_iff_latest {r : FundmentalData} (hr : r ∈ records) (hsymbol : r.symbol = symbol)
    (hdate : r.announceDate = date) {x : FundmentalData} :
  First records symbol date x ↔ Latest records symbol date x
  := by
  subst hdate
  constructor
  · intro hx
    obtain rfl := eq_of_announceDate_eq hdistinct hr hx.mem (hsymbol.trans hx.symbol_eq.symm)
      (le_antisymm hx.le (hx.first r hr hsymbol le_rfl))
    exact ⟨hr, hsymbol, le_rfl, fun _ _ _ h => h⟩
  · intro hx
    obtain rfl := eq_of_announceDate_eq hdistinct hr hx.mem (hsymbol.trans hx.symbol_eq.symm)
      (le_antisymm (hx.latest r hr hsymbol le_rfl) hx.le)
    exact ⟨hr, hsymbol, le_rfl, fun _ _ _ h => h⟩

omit hdistinct

/-- The comparator of the maps turns the order around, so that the record found is the first one
from the date on. That is the record in force only on the very date of an announcement. -/
theorem noLookAhead_iff (records : List FundmentalData)
    (hdistinct : (records.map fun r => (r.symbol, r.announceDate)).Nodup)
    (prices : String → Date → Option ℚ) (symbol : String) (date : Date) :
  NoLookAhead records prices symbol date
    ↔ (∃ r ∈ records, r.symbol = symbol ∧ r.announceDate = date)
      ∨ ∀ r ∈ records, r.symbol ≠ symbol
  := by
  constructor
  · intro h
    by_contra! hnot
    obtain ⟨hdate, r, hr, hsymbol⟩ := hnot
    -- some record is the last one so far and has the date of the first one from then on
    have hboth : ∃ x y, Latest records symbol date x ∧ First records symbol date y
        ∧ x.announceDate = y.announceDate := by
      have hiff : ∀ v, (∃ x, First records symbol date x ∧ (x.announceDate : ℚ) = v)
          ↔ ∃ x, Latest records symbol date x ∧ (x.announceDate : ℚ) = v := by
        intro v
        rw [← calculate_first hdistinct, h.plain]
      cases Nat.le_total r.announceDate date with
      | inl hle =>
        obtain ⟨x, hx⟩ := Latest.exists_of_mem hr hsymbol hle
        obtain ⟨y, hy, heq⟩ := (hiff _).mpr ⟨x, hx, rfl⟩
        exact ⟨x, y, hx, hy, Nat.cast_injective heq.symm⟩
      | inr hle =>
        obtain ⟨y, hy⟩ := First.exists_of_mem hr hsymbol hle
        obtain ⟨x, hx, heq⟩ := (hiff _).mp ⟨y, hy, rfl⟩
        exact ⟨x, y, hx, hy, Nat.cast_injective heq⟩
    obtain ⟨x, y, hx, hy, heq⟩ := hboth
    exact hdate x hx.mem hx.symbol_eq (le_antisymm hx.le (heq ▸ hy.le))
  · intro h
    have hiff : ∀ x, First records symbol date x ↔ Latest records symbol date x := by
      intro x
      obtain ⟨r, hr, hsymbol, hdate⟩ | hnone := h
      · exact first_iff_latest hdistinct hr hsymbol hdate
      · exact ⟨fun hx => absurd hx.symbol_eq (hnone x hx.mem),
          fun hx => absurd hx.symbol_eq (hnone x hx.mem)⟩
    have hplain : ∀ getData v, calculate (addFundmentalData getData (fun _ => none) records)
        symbol date = some v ↔ ∃ r, Latest records symbol date r ∧ getData r = v := by
      intro getData v
      simp only [calculate_first hdistinct, hiff]
    refine ⟨hplain, ?_, ?_⟩
    all_goals
      intro q
      simp only [earningToPrice, cashFlowToPrice, calculateToPrice_eq, Option.bind_eq_some_iff,
        hplain]
      constructor
      · rintro ⟨v, ⟨r, hr, rfl⟩, hq⟩
        exact ⟨r, hr, hq⟩
      · rintro ⟨r, hr, hq⟩
        exact ⟨_, ⟨r, hr, rfl⟩, hq⟩

/-- Where the signals do not look ahead, records that are announced later change nothing. -/
theorem NoLookAhead.append_later {later : List FundmentalData}
    {prices : String → Date → Option ℚ} (h : NoLookAhead records prices symbol date)
    (h' : NoLookAhead (records ++ later) prices symbol date)
    (hlater : ∀ r ∈ later, date < r.announceDate) :
  (∀ getData, calculate (addFundmentalData getData (fun _ => none) (records ++ later)) symbol date
      = calculate (addFundmentalData getData (fun _ => none) records) symbol date)
    ∧ earningToPrice (records ++ later) prices symbol date
      = earningToPrice records prices symbol date
    ∧ cashFlowToPrice (records ++ later) prices symbol date
      = cashFlowToPrice records prices symbol date
  := by
  have hmem : ∀ r : FundmentalData, r.announceDate ≤ date →
      (r ∈ records ++ later ↔ r ∈ records) := by
    intro r hle
    rw [List.mem_append, or_iff_left]
    exact fun hr => absurd (hlater r hr) (Nat.not_lt_of_le hle)
  have hlatest : ∀ r, Latest (records ++ later) symbol date r ↔ Latest records symbol date r := by
    intro r
    constructor
    · rintro ⟨hr, hsymbol, hle, hlast⟩
      exact ⟨(hmem r hle).mp hr, hsymbol, hle, fun x hx => hlast x (List.mem_append_left _ hx)⟩
    · rintro ⟨hr, hsymbol, hle, hlast⟩
      refine ⟨(hmem r hle).mpr hr, hsymbol, hle, ?_⟩
      intro x hx hsymbol' hle'
      exact hlast x ((hmem x hle').mp hx) hsymbol' hle'
  refine ⟨?_, ?_, ?_⟩
  · intro getData
    ext v
    simp only [h'.plain, h.plain, hlatest]
  · ext q
    simp only [h'.earning, h.earning, hlatest]
  · ext q
    simp only [h'.cashFlow, h.cashFlow, hlatest]

/-- The first of two records, on its date. -/
theorem noLookAhead_announced :
  NoLookAhead [⟨"600000", 20080331, 1, 2⟩, ⟨"600000", 20080630, 3, 4⟩] (fun _ _ => some 10)
    "600000" 20080331
  := (noLookAhead_iff _ (by simp) _ _ _).mpr (.inl ⟨_, List.mem_cons_self, rfl, rfl⟩)

/-- The day before, the signals already divide by the price what is announced on the next. -/
theorem not_noLookAhead_before :
  ¬ NoLookAhead [⟨"600000", 20080331, 1, 2⟩] (fun _ _ => some 10) "600000" 20080330
  := by
  intro h
  obtain ⟨r, hr, -⟩ := (h.plain FundmentalData.cashPerShare 2).mp rfl
  obtain rfl := List.mem_singleton.mp hr.mem
  exact absurd hr.le (by decide)

end FundmentalSignal
