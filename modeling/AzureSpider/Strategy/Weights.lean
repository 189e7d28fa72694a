import AzureSpider.Signal.Signals

/-!
# Weights of the optimizer

`MVOIndicatorTest` of `EricStrategy.java`, with `CovarianceSignal.java`.  The covariances and the
expected returns are in the order of a `TreeSet` of the symbols.  The weights that the optimizer
gives for them are handed out in the order in which a `HashSet` of the symbols is iterated.

Symbols are of any type with the order of `compareTo`.  What is computed for one symbol or for two
is a parameter, and so is the optimizer.  Numbers are exact and `none` is an exception.
-/

namespace EricStrategy

open MeanVolatilitySignal

variable {Symbol : Type} [LinearOrder Symbol]

/-- What the signals of a day are computed from: the returns of the symbols and the risk-free
rates, the means of `MeanSignal`, and the covariance of two columns. -/
structure Market (Symbol : Type) where
  returns : Symbol → List ComputableEntry
  rate : Date → Option ℚ
  mean : Symbol → Option ℚ
  covariance : List ℚ → List ℚ → ℚ

namespace Market

variable (m : Market Symbol) (topsymbols : List Symbol) (today : Date)

/-- `getColumnNames`: the symbols that have returns, in the order of the `TreeSet`. -/
def columnNames : List Symbol :=
  (topsymbols.filter fun s => !(m.returns s).isEmpty).insertionSort (· ≤ ·)

/-- The returns of all the symbols. -/
def entries : List ComputableEntry := topsymbols.flatMap m.returns

/-- The column that is built from the returns of a symbol: one row for each date up to today, with
`0` where the symbol has no return. -/
def column (s : Symbol) : List ℚ :=
  ((keySet (m.entries topsymbols)).filter (· ≤ today)).map fun d =>
    (excess m.rate (m.returns s) d).getD 0

/-- Nothing throws before the optimizer is called: every return has a rate, every column has a
mean, and there is a matrix, for which today has to be a date of the returns and not their first. -/
def Complete : Prop :=
  (∀ e ∈ m.entries topsymbols, (m.rate e.date).isSome)
    ∧ (∃ e ∈ m.entries topsymbols, e.date = today) ∧ (∃ e ∈ m.entries topsymbols, e.date < today)
    ∧ ∀ s ∈ m.columnNames topsymbols, (m.mean s).isSome
  deriving Decidable

/-- The array `expectedReturn`, which has one entry for every top symbol. -/
def expectedReturn : List ℚ :=
  ((m.columnNames topsymbols).map fun s => (m.mean s).getD 0)
    ++ List.replicate (topsymbols.length - (m.columnNames topsymbols).length) 0

/-- `CovarianceSignal.calculate`. -/
def covarianceMatrix : List (List ℚ) :=
  (m.columnNames topsymbols).map fun a => (m.columnNames topsymbols).map fun b =>
    m.covariance (m.column topsymbols today a) (m.column topsymbols today b)

end Market

/-- The loop that fills the map `weights`, from the index `k`. -/
def putWeights (values : List ℚ) :
    ℕ → (Symbol → Option ℚ) → List Symbol → Option (Symbol → Option ℚ)
  | _, weights, [] => some weights
  | k, weights, sym :: syms => do
      let v ← values[k * 10]?
      putWeights values (k + 1) (Function.update weights sym (some v)) syms

variable (portopt : List ℚ → List (List ℚ) → ℕ → List ℚ) (m : Market Symbol)
  (topsymbols : List Symbol) (today : Date)

/-- The weights of ten portfolios, column by column. -/
def values : List ℚ :=
  portopt (m.expectedReturn topsymbols) (m.covarianceMatrix topsymbols today) 10

/-- The map that a day passes to `trade`.  The list `topsymbols` is the set of the top symbols in
the order of its iteration. -/
def weights : Option (Symbol → Option ℚ) :=
  if m.Complete topsymbols today then
    putWeights (values portopt m topsymbols today) 0 (fun _ => none) topsymbols
  else
    none

/-- An optimizer gives a matrix with as many rows as it is asked for and a column for each of the
expected returns. -/
def Fills : Prop := ∀ ret cov n, (portopt ret cov n).length = n * ret.length

/-- Whatever the optimizer, the weight of a symbol is the first of those computed for the column
that was built from it. -/
def WeightsMatch : Prop :=
  ∀ portopt, Fills portopt → ∀ w, weights portopt m topsymbols today = some w →
    ∀ i s, (m.columnNames topsymbols)[i]? = some s →
      w s = (values portopt m topsymbols today)[i * 10]?

variable {portopt m topsymbols today}

theorem length_values (hfills : Fills portopt) :
  (values portopt m topsymbols today).length = topsymbols.length * 10
  := by
  have hle : (m.columnNames topsymbols).length ≤ topsymbols.length := by
    rw [Market.columnNames, List.length_insertionSort]
    apply List.length_filter_le
  rw [values, hfills, Nat.mul_comm]
  simp [Market.expectedReturn, hle]

/-- The symbol with the index `i` is given the first weight of the column with this index. -/
theorem putWeights_spec {values : List ℚ} {syms : List Symbol} (hnodup : syms.Nodup) (k : ℕ)
    (w : Symbol → Option ℚ) (hlen : (k + syms.length) * 10 ≤ values.length) :
  ∃ w', putWeights values k w syms = some w' ∧ (∀ s ∉ syms, w' s = w s)
    ∧ ∀ i s, syms[i]? = some s → w' s = values[(k + i) * 10]?
  := by
  induction syms generalizing k w with
  | nil => exact ⟨w, rfl, by simp, by simp⟩
  | cons sym syms ih =>
    rw [List.length_cons] at hlen
    obtain ⟨hsym, hnodup⟩ := List.nodup_cons.mp hnodup
    have hv : values[k * 10]? = some values[k * 10] := List.getElem?_eq_getElem (by omega)
    obtain ⟨w', hrun, hout, hin⟩ := ih hnodup (k + 1)
      (Function.update w sym (some values[k * 10])) (by omega)
    refine ⟨w', by rw [putWeights, hv]; exact hrun, ?_, ?_⟩
    · intro s hs
      rw [List.mem_cons, not_or] at hs
      rw [hout s hs.2, Function.update_of_ne hs.1]
    · intro i s hi
      cases i with
      | zero =>
        obtain rfl := Option.some.inj hi
        rw [hout _ hsym, Function.update_self, Nat.add_zero, hv]
      | succ i =>
        rw [hin i s hi, Nat.add_assoc, Nat.add_comm 1]

theorem weights_spec (hfills : Fills portopt) (hnodup : topsymbols.Nodup)
    (hcomplete : m.Complete topsymbols today) :
  ∃ w, weights portopt m topsymbols today = some w ∧ ∀ i s, topsymbols[i]? = some s →
    w s = (values portopt m topsymbols today)[i * 10]?
  := by
  have hlen : (0 + topsymbols.length) * 10 ≤ (values portopt m topsymbols today).length := by
    rw [length_values hfills, Nat.zero_add]
  obtain ⟨w, hrun, -, hw⟩ := putWeights_spec hnodup 0 (fun _ => none) hlen
  refine ⟨w, by rw [weights, if_pos hcomplete, hrun], ?_⟩
  intro i s hi
  rw [hw i s hi, Nat.zero_add]

/-- An optimizer whose weights are all different tells the columns apart. -/
theorem WeightsMatch.isPrefix (h : WeightsMatch m topsymbols today) (hnodup : topsymbols.Nodup)
    (hcomplete : m.Complete topsymbols today) :
  m.columnNames topsymbols <+: topsymbols
  := by
  let portopt : List ℚ → List (List ℚ) → ℕ → List ℚ :=
    fun ret _ n => (List.range (n * ret.length)).map Nat.cast
  have hfills : Fills portopt := by simp [Fills, portopt]
  have hinj : (values portopt m topsymbols today).Nodup :=
    List.nodup_range.map Nat.cast_injective
  obtain ⟨w, hrun, hw⟩ := weights_spec hfills hnodup hcomplete
  rw [List.prefix_iff_getElem?]
  intro i hi
  have hmem : (m.columnNames topsymbols)[i] ∈ topsymbols :=
    (List.mem_filter.mp ((List.mem_insertionSort _).mp (List.getElem_mem hi))).1
  obtain ⟨j, hj⟩ := List.getElem?_of_mem hmem
  have heq := (h portopt hfills w hrun i _ (List.getElem?_eq_getElem hi)).symm.trans (hw j _ hj)
  have hlt : j < topsymbols.length := (List.getElem?_eq_some_iff.mp hj).1
  have hji := (List.getElem?_inj (by rw [length_values hfills]; omega) hinj).mp heq.symm
  rw [Nat.eq_of_mul_eq_mul_right (by decide) hji] at hj
  exact hj

/-- The weights go to the right symbols, on a day on which they are computed, if and only if the
set of the symbols is iterated in the order of the columns. -/
theorem weightsMatch_iff (m : Market Symbol) (topsymbols : List Symbol) (hnodup : topsymbols.Nodup)
    (today : Date) :
  WeightsMatch m topsymbols today
    ↔ (m.Complete topsymbols today → m.columnNames topsymbols <+: topsymbols)
  := by
  refine ⟨fun h hcomplete => h.isPrefix hnodup hcomplete, ?_⟩
  intro h portopt hfills w hrun i s hi
  by_cases hcomplete : m.Complete topsymbols today
  · obtain ⟨w', hrun', hw⟩ := weights_spec hfills hnodup hcomplete
    obtain rfl := Option.some.inj (hrun'.symm.trans hrun)
    obtain ⟨hlt, rfl⟩ := List.getElem?_eq_some_iff.mp hi
    exact hw i _ (List.prefix_iff_getElem?.mp (h hcomplete) i hlt)
  · simp [weights, hcomplete] at hrun

/-- Two symbols with returns on two days. -/
def twoSymbols : Market ℕ where
  returns _ := [⟨20080107, 1 / 10⟩, ⟨20080108, 1 / 5⟩]
  rate _ := some 0
  mean s := some s
  covariance _ _ := 0

/-- The weights are computed, for the symbols in the order of the columns. -/
theorem weightsMatch_sorted :
  twoSymbols.Complete [600000, 600001] 20080108
    ∧ WeightsMatch twoSymbols [600000, 600001] 20080108
  := ⟨by decide, (weightsMatch_iff twoSymbols _ (by decide) _).mpr fun _ => by decide⟩

theorem not_weightsMatch_reversed :
  ¬ WeightsMatch twoSymbols [600001, 600000] 20080108
  := by
  intro h
  have hprefix := h.isPrefix (by decide) (by decide)
  revert hprefix
  decide

end EricStrategy
