import TwoLevel.Minimization
import TwoLevel.Proofs.Chart.EssentialRows
import TwoLevel.Proofs.Step.Elimination
import TwoLevel.Proofs.Term.Construction

/-!
# The stages of a minimization

`Minimization.StagesOf` says what a minimization of a table is made of. A minimization that is
returned is made of nothing else (`stagesOf_of_minimize`), and one is returned for every table with
an output 1 (**`exists_minimize`**): each column of the chart of the primes has a row, since the
minterm of the column lies in a prime implicant.

On that chart the marks can be read off the cubes (**`isMarked_primeChart_iff`**), as the primes are
exact terms.
-/

namespace TwoLevel

namespace TruthTable

variable {table : TruthTable}

/-- The prime implicants of a table over its minterms with output 1. -/
def primeChart (table : TruthTable) : Chart :=
  .ofTerms (primes table.initialTerms) table.required.toList

theorem consistent_primeChart (table : TruthTable) : table.primeChart.Consistent :=
  Chart.consistent_ofTerms _ _

theorem minterms_primeChart (table : TruthTable) : table.primeChart.minterms = table.required := by
  ext m
  simp [primeChart, Chart.ofTerms, ← IndexSet.mem_def]

theorem term?_primeChart (table : TruthTable) (row : Nat) :
    table.primeChart.term? row = (primes table.initialTerms)[row]? := List.getElem?_toArray

theorem exists_column {m : Nat} (h : table.output m = .one) :
    ∃ col < table.primeChart.columnCount, table.primeChart.minterm? col = some m := by
  have hmem : m ∈ table.primeChart.minterms := by
    rw [minterms_primeChart]
    exact mem_required.2 h
  obtain ⟨col, hcol⟩ := List.mem_iff_getElem?.1 hmem
  exact ⟨col, (List.getElem?_eq_some_iff.1 hcol).1, hcol⟩

theorem output_of_minterm? {col m : Nat} (h : table.primeChart.minterm? col = some m) :
    table.output m = .one := by
  have hmem : m ∈ table.primeChart.minterms := List.mem_of_getElem? h
  rw [minterms_primeChart] at hmem
  exact mem_required.1 hmem

theorem exists_minterm? {col : Nat} (h : col < table.primeChart.columnCount) :
    ∃ m, table.primeChart.minterm? col = some m :=
  ⟨_, List.getElem?_eq_getElem h⟩

theorem isPrimeImplicant_of_term? {row : Nat} {t : Term}
    (h : table.primeChart.term? row = some t) : table.IsPrimeImplicant t.cube := by
  rw [term?_primeChart] at h
  exact mem_map_cube_primes.1 (List.mem_map_of_mem (List.mem_of_getElem? h))

theorem exists_row {c : Cube} (h : table.IsPrimeImplicant c) :
    ∃ row t, table.primeChart.term? row = some t ∧ t.cube = c := by
  obtain ⟨t, ht, hcube⟩ := List.mem_map.1 (mem_map_cube_primes.2 h)
  obtain ⟨row, hrow⟩ := List.mem_iff_getElem?.1 ht
  exact ⟨row, t, (term?_primeChart table row).trans hrow, hcube⟩

theorem exists_term?_of_isMarked {row col : Nat} (h : table.primeChart.isMarked row col = true) :
    ∃ t, table.primeChart.term? row = some t := by
  obtain ⟨t, _, ht, _, _⟩ := Chart.mem_rowMarks_ofTerms.1 (Chart.isMarked_iff.1 h)
  exact ⟨t, ht⟩

/-- **A row marks the columns of the minterms that its cube accepts.** -/
theorem isMarked_primeChart_iff {row col m : Nat} {t : Term}
    (ht : table.primeChart.term? row = some t) (hm : table.primeChart.minterm? col = some m) :
    table.primeChart.isMarked row col = true ↔ t.accepts m = true := by
  have hprime := isPrimeImplicant_of_term? ht
  -- the marks are those of the covered set, which is what the cube accepts
  have hexact : t.Exact := by
    rw [term?_primeChart] at ht
    exact exact_of_mem_primes (List.mem_of_getElem? ht)
  have hlt : m < mintermCount t.width := by
    rw [Term.width, hprime.width_eq]
    exact lt_size_of_output_ne (by simp [output_of_minterm? hm])
  rw [Chart.isMarked_iff, ← hexact.mem_covered_iff hlt]
  constructor
  · intro h
    obtain ⟨s, n, hs, hn, hmem⟩ := Chart.mem_rowMarks_ofTerms.1 h
    obtain rfl := Option.some.inj (hs.symm.trans ht)
    obtain rfl := Option.some.inj (hn.symm.trans hm)
    exact hmem
  · intro h
    exact Chart.mem_rowMarks_ofTerms.2 ⟨t, m, ht, hm, h⟩

/-- Every column has a row: the cube of its minterm lies in a prime implicant. -/
theorem exists_isMarked {col : Nat} (h : col < table.primeChart.columnCount) :
    ∃ row, table.primeChart.isMarked row col = true := by
  obtain ⟨m, hm⟩ := exists_minterm? h
  have hne : table.output m ≠ .zero := by simp [output_of_minterm? hm]
  have hlt := lt_size_of_output_ne hne
  obtain ⟨c, hprime, hle⟩ := ((isImplicant_ofIndex hlt).2 hne).exists_prime
  obtain ⟨row, t, ht, rfl⟩ := exists_row hprime
  exact ⟨row, (isMarked_primeChart_iff ht hm).2 (hle m ((Cube.accepts_ofIndex hlt hlt).2 rfl))⟩

end TruthTable

/-! ## What a minimization is made of -/

/-- The selections in order: the essential rows, and those that the search chose. -/
def Chart.selections (essentials : Essentials) (selected : List Nat) : List (Nat × Selection) :=
  essentials.rows.toList.map (·, .essential) ++ selected.map (·, .search)

theorem Chart.map_fst_selections (essentials : Essentials) (selected : List Nat) :
    (selections essentials selected).map (·.1) = essentials.rows.toList ++ selected := by
  rw [selections, List.map_append, List.map_map, List.map_map]
  simp [Function.comp_def]

/-- Each stage of the minimization is what the stages before it give. -/
structure Minimization.StagesOf (m : Minimization) (table : TruthTable) : Prop where
  rounds_eq : m.rounds = mergeRounds table.initialTerms
  chart_eq : m.chart = table.primeChart
  essentials_eq : m.essentials = m.chart.essentials
  search_eq : m.search =
    (CoverProblem.ofChart m.chart m.essentials.rows m.essentials.covered).search
  selected_eq : m.search.rows? = some m.selected
  steps_eq : m.steps = Step.trace m.chart (Chart.selections m.essentials m.selected)

theorem Minimization.StagesOf.minimalCover?_eq {m : Minimization} {table : TruthTable}
    (h : m.StagesOf table) :
    table.primeChart.minimalCover? table.primeChart.essentials.rows
      table.primeChart.essentials.covered = some m.selected := by
  rw [← h.chart_eq, ← h.essentials_eq, Chart.minimalCover?, ← h.search_eq]
  exact h.selected_eq

namespace TruthTable

variable {table : TruthTable}

theorem stagesOf_of_minimize {m : Minimization} (h : table.minimize = .ok m) :
    m.StagesOf table := by
  unfold minimize at h
  simp only at h
  split at h
  · simp at h
  · split at h
    · simp at h
    · rename_i selected hselected
      split at h
      · obtain rfl := Except.ok.inj h
        exact ⟨rfl, rfl, rfl, rfl, hselected, rfl⟩
      · simp at h

theorem size_unionAll_of_markedBy {chart : Chart} (hchart : chart.Consistent) {rows : List Nat}
    (h : chart.MarkedBy rows) : (IndexSet.unionAll (rows.map chart.rowMarks)).size =
      chart.columnCount := by
  have hall : IndexSet.unionAll (rows.map chart.rowMarks) = IndexSet.range chart.columnCount := by
    ext col
    rw [IndexSet.mem_unionAll, IndexSet.mem_range]
    constructor
    · rintro ⟨marks, hmarks, hcol⟩
      obtain ⟨row, -, rfl⟩ := List.mem_map.1 hmarks
      exact hchart.col_lt hcol
    · intro hcol
      obtain ⟨row, hrow, hmark⟩ := h col hcol
      exact ⟨_, List.mem_map_of_mem hrow, Chart.isMarked_iff.1 hmark⟩
  rw [hall, IndexSet.size, IndexSet.range, List.length_range]

/-- **Every table with an output 1 is minimized.** -/
theorem exists_minimize (h : ∃ m, table.output m = .one) : ∃ m, table.minimize = .ok m := by
  have hchart := table.consistent_primeChart
  obtain ⟨selected, hselected⟩ :=
    Chart.exists_minimalCover?_essentials hchart fun _ hcol => exists_isMarked hcol
  have hrequired : ¬ table.required.isEmpty = true := by
    rw [IndexSet.isEmpty_iff]
    intro hempty
    obtain ⟨m, hm⟩ := h
    exact IndexSet.not_mem_empty m (hempty ▸ mem_required.2 hm)
  have hsize := size_unionAll_of_markedBy hchart
    (Chart.markedBy_essentials_append hchart hselected)
  have htrace : (Step.trace table.primeChart
      (Chart.selections table.primeChart.essentials selected)).map (·.row) =
        table.primeChart.essentials.rows.toList ++ selected := by
    rw [Step.trace, Step.map_row_traceFrom, Chart.map_fst_selections]
  rw [← htrace, List.map_map] at hsize
  cases hm : table.minimize with
  | ok m => exact ⟨m, rfl⟩
  | error e =>
    -- neither check fails, and the search finds rows
    exfalso
    unfold minimize at hm
    simp only [if_neg hrequired] at hm
    split at hm
    · rename_i hnone
      exact absurd (hnone.symm.trans hselected) (by simp)
    · rename_i rows hrows
      obtain rfl := Option.some.inj (hrows.symm.trans hselected)
      exact absurd ((if_pos hsize).symm.trans hm) (by simp)

end TruthTable

end TwoLevel
