import TwoLevel.Proofs.Minimization.Optimality
import TwoLevel.Proofs.Step.Elimination

/-!
# The steps of a minimization

The steps of a minimization select the rows of its cover, one after the other, and share the
required minterms out among themselves: each minterm is eliminated by one step, and each step
eliminates some (**`exists_minimize_sharesOut`**).

The marks of the essential rows and of the rows that the search chose are a productive selection, so
that no step is idle, and together they are all columns of the chart.
-/

namespace TwoLevel

/-- The steps select the rows of the cover and share out the minterms with output 1. -/
structure Minimization.SharesOut (m : Minimization) (table : TruthTable) : Prop where
  mem_essentials_iff : ∀ row, row ∈ m.essentials.rows ↔
    ∃ col < m.chart.columnCount, m.chart.columnMarks col = {row}
  selections_eq : m.steps.map (fun s => (s.row, s.selection)) =
    m.essentials.rows.toList.map (·, .essential) ++ m.selected.map (·, .search)
  terms_eq : m.steps.map (fun s => m.chart.term? s.row) = m.cover.terms.map some
  ne_nil : ∀ s ∈ m.steps, s.eliminated ≠ []
  ascending : ∀ s ∈ m.steps, s.eliminated.Pairwise (· < ·)
  disjoint : m.steps.Pairwise fun s t => ∀ n ∈ s.eliminated, n ∉ t.eliminated
  mem_iff : ∀ n, (∃ s ∈ m.steps, n ∈ s.eliminated) ↔ table.output n = .one

namespace Minimization.StagesOf

variable {m : Minimization} {table : TruthTable}

theorem productive_rows (h : m.StagesOf table) :
    table.primeChart.Productive (List.range table.primeChart.columnCount) m.rows := by
  rw [h.rows_eq]
  exact Chart.productive_essentials_append table.consistent_primeChart h.minimalCover?_eq

theorem exists_term? (h : m.StagesOf table) {row : Nat} (hrow : row ∈ m.rows) :
    ∃ t, table.primeChart.term? row = some t := by
  obtain ⟨col, -, hmark⟩ := h.productive_rows.exists_mark hrow
  exact TruthTable.exists_term?_of_isMarked (Chart.isMarked_iff.2 hmark)

theorem map_term?_rows (h : m.StagesOf table) :
    m.rows.map m.chart.term? = m.cover.terms.map some := by
  rw [cover, List.map_filterMap_some_eq_filter_map_isSome]
  refine (List.filter_eq_self.2 fun x hx => ?_).symm
  obtain ⟨row, hrow, rfl⟩ := List.mem_map.1 hx
  rw [h.chart_eq]
  exact Option.isSome_iff_exists.2 (h.exists_term? hrow)

theorem sharesOut (h : m.StagesOf table) : m.SharesOut table := by
  have hrows : (Chart.selections m.essentials m.selected).map (·.1) = m.rows :=
    Chart.map_fst_selections m.essentials m.selected
  have hconsistent : m.chart.Consistent := h.chart_eq ▸ table.consistent_primeChart
  have hsteps : m.steps = Step.traceFrom m.chart ∅ (Chart.selections m.essentials m.selected) :=
    h.steps_eq
  have hselections := Step.map_selection_traceFrom m.chart ∅
    (Chart.selections m.essentials m.selected)
  rw [← hsteps] at hselections
  constructor
  case mem_essentials_iff =>
    rw [h.essentials_eq]
    exact fun row => Chart.mem_rows_essentials
  case selections_eq => exact hselections
  case terms_eq =>
    rw [← h.map_term?_rows, ← hrows, ← hselections, List.map_map, List.map_map]
    rfl
  case ne_nil =>
    have hproductive := h.productive_rows
    rw [← h.chart_eq, ← hrows] at hproductive
    rw [hsteps]
    exact Step.eliminated_ne_nil hconsistent hproductive fun col _ => IndexSet.not_mem_empty col
  case ascending =>
    rw [hsteps]
    exact fun s hs => Step.pairwise_of_mem_traceFrom hs
  case disjoint =>
    rw [hsteps]
    exact Step.pairwise_eliminated _ _ _
  case mem_iff =>
    intro n
    rw [hsteps, Step.exists_mem_eliminated_iff, hrows, h.chart_eq]
    constructor
    · rintro ⟨col, hn, -⟩
      exact TruthTable.output_of_minterm? hn
    · intro hone
      obtain ⟨col, hcol, hn⟩ := TruthTable.exists_column hone
      obtain ⟨row, hrow, hmark⟩ := h.markedBy_rows col hcol
      exact ⟨col, hn, IndexSet.not_mem_empty col, row, hrow, Chart.isMarked_iff.1 hmark⟩

end Minimization.StagesOf

namespace TruthTable

/--
**The steps are a partition of the required minterms, and none is idle.** They come in the order of
the cover, the essential rows first; what a step eliminates is in ascending order.
-/
theorem exists_minimize_sharesOut (table : TruthTable) (h : ∃ n, table.output n = .one) :
    ∃ m, table.minimize = .ok m ∧ m.SharesOut table := by
  obtain ⟨m, hm⟩ := exists_minimize h
  exact ⟨m, hm, (stagesOf_of_minimize hm).sharesOut⟩

/--
The cyclic minterms of three variables with a fourth variable, where minterm 14 makes a row
essential and minterm 8 is a don't-care.
-/
def cyclicWithEssential : TruthTable :=
  ⟨4, #[.one, .one, .one, .zero, .zero, .one, .one, .one,
    .dontCare, .zero, .zero, .zero, .zero, .zero, .one, .zero], rfl, by decide⟩

theorem exists_minimize_sharesOut_cyclicWithEssential :
    (∃ n, cyclicWithEssential.output n = .one) ∧
      ∃ m, cyclicWithEssential.minimize = .ok m ∧ m.SharesOut cyclicWithEssential :=
  ⟨⟨14, rfl⟩, exists_minimize_sharesOut cyclicWithEssential ⟨14, rfl⟩⟩

/-- The essential row takes minterm 6, so that row 1 is left with minterm 2 alone. -/
example : (cyclicWithEssential.minimize.map fun m => m.steps.map fun s => (s.row, s.eliminated)) =
    .ok [(7, [6, 14]), (0, [0, 1]), (1, [2]), (5, [5, 7])] := by decide +kernel

end TruthTable

end TwoLevel
