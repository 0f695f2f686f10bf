import TwoLevel.Chart

/-!
# Covering problems

A `CoverProblem` asks for rows of a chart that together mark certain columns, without using
certain rows. Some rows are a solution when they are allowed and cover the columns
(`CoverProblem.Covers`).
-/

namespace TwoLevel

/-- The rows of a chart that are not excluded and mark a column, for each column. -/
def Chart.choiceTable (chart : Chart) (excluded : IndexSet) : Array (List Nat) :=
  chart.marksByColumn.map fun marks => marks.toList.filter (· ∉ excluded)

/-- The columns of a chart to be covered, and the rows that may not be used. -/
structure CoverProblem where
  chart : Chart
  columns : IndexSet
  excluded : IndexSet
  /-- The rows that may be used for each column. -/
  choiceTable : Array (List Nat) := chart.choiceTable excluded
  choiceTable_eq : choiceTable = chart.choiceTable excluded := by rfl

namespace CoverProblem

/-- The problem of the columns that are not yet covered. -/
def ofChart (chart : Chart) (excluded covered : IndexSet) : CoverProblem :=
  { chart, columns := IndexSet.range chart.columnCount \ covered, excluded }

/-- The rows that may be used, in ascending order. -/
def allowedRows (p : CoverProblem) : List Nat :=
  (List.range p.chart.rowCount).filter (· ∉ p.excluded)

/-- The rows that may be used for a column, in ascending order. -/
def choices (p : CoverProblem) (col : Nat) : List Nat := p.choiceTable[col]?.getD []

/-- Do the rows mark all of the given columns, using none that is excluded? -/
def Covers (p : CoverProblem) (rows columns : List Nat) : Prop :=
  (∀ row ∈ rows, row ∈ p.allowedRows) ∧ ∀ col ∈ columns, ∃ row ∈ rows, col ∈ p.chart.rowMarks row

instance (p : CoverProblem) (rows columns : List Nat) : Decidable (p.Covers rows columns) :=
  inferInstanceAs (Decidable (_ ∧ _))

theorem mem_allowedRows {p : CoverProblem} {row : Nat} :
    row ∈ p.allowedRows ↔ row < p.chart.rowCount ∧ row ∉ p.excluded := by
  simp [allowedRows]

theorem choices_eq (p : CoverProblem) (col : Nat) :
    p.choices col = (p.chart.columnMarks col).toList.filter (· ∉ p.excluded) := by
  simp only [choices, p.choiceTable_eq, Chart.choiceTable, Chart.columnMarks, Array.getElem?_map]
  cases p.chart.marksByColumn[col]? with
  | none => simp
  | some marks => rfl

theorem mem_choices {p : CoverProblem} {col row : Nat} :
    row ∈ p.choices col ↔ row ∈ p.chart.columnMarks col ∧ row ∉ p.excluded := by
  simp [choices_eq, IndexSet.mem_def]

end CoverProblem

end TwoLevel
