import TwoLevel.Chart

/-!
# Essential rows

A row is essential when it is the only one that marks some column. Every choice of rows that
covers a chart holds its essential rows.
-/

namespace TwoLevel

/-- The essential rows of a chart, and the columns that they mark. -/
structure Essentials where
  rows : IndexSet
  covered : IndexSet
  deriving DecidableEq

namespace Chart

/-- The row of a column that is marked by one row alone. -/
def soleRow? (chart : Chart) (col : Nat) : Option Nat :=
  match (chart.columnMarks col).toList with
  | [row] => some row
  | _ => none

/-- The rows that are the only ones to mark some column. -/
def essentials (chart : Chart) : Essentials :=
  let rows := IndexSet.ofList ((List.range chart.columnCount).filterMap chart.soleRow?)
  ⟨rows, .unionAll (rows.toList.map chart.rowMarks)⟩

theorem soleRow?_eq_some_iff {chart : Chart} {row col : Nat} :
    chart.soleRow? col = some row ↔ chart.columnMarks col = {row} := by
  unfold soleRow?
  split
  · rename_i r h
    constructor
    · rintro ⟨⟩
      ext n
      simp [IndexSet.mem_def, h]
    · intro hs
      simpa [hs] using h.symm
  · rename_i h
    simp only [reduceCtorEq, false_iff]
    intro hs
    exact h row (by simp [hs])

theorem mem_rows_essentials {chart : Chart} {row : Nat} :
    row ∈ chart.essentials.rows ↔ ∃ col < chart.columnCount, chart.columnMarks col = {row} := by
  simp only [essentials, IndexSet.mem_ofList, List.mem_filterMap, List.mem_range,
    soleRow?_eq_some_iff]

theorem mem_covered_essentials {chart : Chart} {col : Nat} :
    col ∈ chart.essentials.covered ↔ ∃ row ∈ chart.essentials.rows, col ∈ chart.rowMarks row := by
  simp only [essentials, IndexSet.mem_unionAll, List.mem_map, ← IndexSet.mem_def]
  constructor
  · rintro ⟨_, ⟨row, hrow, rfl⟩, hcol⟩
    exact ⟨row, hrow, hcol⟩
  · rintro ⟨row, hrow, hcol⟩
    exact ⟨_, ⟨row, hrow, rfl⟩, hcol⟩

end Chart

end TwoLevel
