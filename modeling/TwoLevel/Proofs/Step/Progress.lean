import TwoLevel.Proofs.Chart.Alignment
import TwoLevel.Proofs.Minimization.Optimality
import TwoLevel.Proofs.Step.Elimination

/-!
# What a drawing shows of the steps

The steps of a selection note what each of them eliminates, given what those before it have covered.
A drawing of the chart after some steps joins the marks of their rows anew. Both tell of the same
columns: after each step a column is crossed out exactly if its minterm has been eliminated, by that
step or one before it (**`progress_shows_steps`**). After the last step of a minimization nothing is
left open.
-/

namespace TwoLevel

namespace Step

variable {chart : Chart} {covered : IndexSet} {selections : List (Nat × Selection)}

/-- The first steps are those of the first selections. -/
theorem take_traceFrom (chart : Chart) (covered : IndexSet)
    (selections : List (Nat × Selection)) (k : Nat) :
    (traceFrom chart covered selections).take k = traceFrom chart covered (selections.take k) := by
  induction k generalizing covered selections with
  | zero => rfl
  | succ k ih =>
    cases selections with
    | nil => rfl
    | cons x selections => rw [traceFrom, List.take_succ_cons, ih, List.take_succ_cons, traceFrom]

theorem nodup_eliminated (chart : Chart) (covered : IndexSet)
    (selections : List (Nat × Selection)) :
    ((traceFrom chart covered selections).flatMap (·.eliminated)).Nodup := by
  refine List.nodup_flatMap.2 ⟨fun s hs => ?_, ?_⟩
  · exact (pairwise_of_mem_traceFrom hs).imp Nat.ne_of_lt
  · exact (pairwise_eliminated chart covered selections).imp fun hdisjoint n hn hmem =>
      hdisjoint n hn hmem

/-- A drawing shows the given steps, and no minterm is eliminated twice by them. -/
structure ShownIn (steps : List Step) (chart : Chart) (text : String) : Prop where
  nodup : (steps.flatMap (·.eliminated)).Nodup
  shownAt?_eq : ∀ row < chart.rowCount, ∀ col m, chart.minterm? col = some m →
    chart.shownAt? text row col = some (
      if row ∈ steps.map (·.row) then '-'
      else if m ∈ steps.flatMap (·.eliminated) then '|'
      else if chart.isMarked row col then 'x' else ' ')

end Step

namespace Chart

variable {chart : Chart}

theorem mem_eliminated {rows : List Nat} {col : Nat} :
    col ∈ chart.eliminated rows ↔ ∃ row ∈ rows, col ∈ chart.rowMarks row := by
  simp [eliminated]

/-- A column is crossed out exactly if its minterm is eliminated by one of the steps. -/
theorem mem_eliminated_iff {selections : List (Nat × Selection)} {col m : Nat}
    (hm : chart.minterm? col = some m) :
    col ∈ chart.eliminated (selections.map (·.1)) ↔
      m ∈ (Step.trace chart selections).flatMap (·.eliminated) := by
  rw [List.mem_flatMap, Step.trace, Step.exists_mem_eliminated_iff, mem_eliminated]
  constructor
  · intro h
    exact ⟨col, hm, IndexSet.not_mem_empty col, h⟩
  · rintro ⟨other, hother, -, h⟩
    rwa [minterm?_inj hm hother]

theorem shownIn_drawProgress (chart : Chart) (selections : List (Nat × Selection)) :
    Step.ShownIn (Step.trace chart selections) chart
      (chart.drawProgress (selections.map (·.1))) where
  nodup := Step.nodup_eliminated chart ∅ selections
  shownAt?_eq := by
    intro row hrow col m hm
    have hcol : col < chart.columnCount := (List.getElem?_eq_some_iff.1 hm).1
    rw [drawProgress, shownAt?_drawWith (chart.progressCell_ne_newline _ _) hrow hcol,
      Step.trace, Step.map_row_traceFrom, ← Step.trace]
    simp only [progressCell, mem_eliminated_iff hm, cell]

/-- Rows that mark every column leave no cell as it was. -/
theorem shownAt?_drawProgress_of_markedBy {rows : List Nat} (h : chart.MarkedBy rows)
    {row col : Nat} (hrow : row < chart.rowCount) (hcol : col < chart.columnCount) :
    chart.shownAt? (chart.drawProgress rows) row col =
      some (if row ∈ rows then '-' else '|') := by
  have hcrossed : col ∈ chart.eliminated rows := by
    obtain ⟨other, hother, hmark⟩ := h col hcol
    exact mem_eliminated.2 ⟨other, hother, isMarked_iff.1 hmark⟩
  rw [drawProgress, shownAt?_drawWith (chart.progressCell_ne_newline _ _) hrow hcol, progressCell,
    if_pos hcrossed]

end Chart

theorem Minimization.StagesOf.map_row_steps {m : Minimization} {table : TruthTable}
    (h : m.StagesOf table) : m.steps.map (·.row) = m.rows := by
  rw [h.steps_eq, Step.trace, Step.map_row_traceFrom, Chart.map_fst_selections]
  rfl

/--
**A drawing shows what the steps before it eliminate**: for any selections and after any number of
steps, repeated and idle rows included. The steps of a minimization leave no mark and no blank.
-/
theorem progress_shows_steps :
    (∀ (chart : Chart) (selections : List (Nat × Selection)) (k : Nat),
      Step.ShownIn ((Step.trace chart selections).take k) chart
        (chart.drawProgress ((selections.take k).map (·.1)))) ∧
    ∀ (table : TruthTable) (m : Minimization), table.minimize = .ok m →
      ∀ row < m.chart.rowCount, ∀ col < m.chart.columnCount,
        m.chart.shownAt? (m.chart.drawProgress (m.steps.map (·.row))) row col =
          some (if row ∈ m.steps.map (·.row) then '-' else '|') := by
  constructor
  · intro chart selections k
    rw [Step.trace, Step.take_traceFrom]
    exact chart.shownIn_drawProgress (selections.take k)
  · intro table m hm row hrow col hcol
    have hstages := TruthTable.stagesOf_of_minimize hm
    have hmarked : m.chart.MarkedBy (m.steps.map (·.row)) := by
      rw [hstages.map_row_steps, hstages.chart_eq]
      exact hstages.markedBy_rows
    exact Chart.shownAt?_drawProgress_of_markedBy hmarked hrow hcol

end TwoLevel
