import TwoLevel.Chart
import TwoLevel.Text

/-!
# Drawing a chart

A chart is drawn with its minterms above the columns, its terms before the rows and the number of
marks of each column below. Every text stands in the middle of a field, one width for the labels
and one for the columns.
-/

namespace TwoLevel.Chart

/-- The label of the last line. -/
def usageLabel : String := "uses:"

/-- The width of the labels: that of the widest term or of the last line's label. -/
def labelWidth (chart : Chart) : Nat :=
  max ((chart.terms.toList.map (·.width)).max?.getD 0) usageLabel.length

/-- The width of the columns: that of the longest minterm, or 1 if there is none. -/
def columnWidth (chart : Chart) : Nat :=
  (chart.minterms.toList.map fun m => m.repr.length).max?.getD 1

/-- A label and the texts of the columns, each in its field. -/
def line (chart : Chart) (label : String) (cells : List String) : String :=
  Text.centred chart.labelWidth label ++
    .join (cells.map fun cell => " " ++ Text.centred chart.columnWidth cell) ++ "\n"

/-- The drawing of a chart with a given character in each cell. -/
def drawWith (chart : Chart) (cell : Nat → Nat → Char) : String :=
  let columns := List.range chart.columnCount
  let rows := chart.terms.toList.mapIdx fun row t =>
    chart.line t.text (columns.map fun col => (cell row col).toString)
  chart.line "" (chart.minterms.toList.map (·.repr)) ++ .join rows ++
    chart.line usageLabel (columns.map fun col => (chart.usage col).repr)

/-- The character for a cell: a cross where the row marks the column. -/
def cell (chart : Chart) (row col : Nat) : Char := if chart.isMarked row col then 'x' else ' '

/-- The drawing of a chart. -/
def draw (chart : Chart) : String := chart.drawWith chart.cell

/-- The columns that some of the given rows mark. -/
def eliminated (chart : Chart) (rows : List Nat) : IndexSet := .unionAll (rows.map chart.rowMarks)

/--
The character for a cell once some rows are selected: a selected row is crossed out, and so is
each column that a selected row marks.
-/
def progressCell (chart : Chart) (selected : List Nat) (eliminated : IndexSet) (row col : Nat) :
    Char :=
  if row ∈ selected then '-' else if col ∈ eliminated then '|' else chart.cell row col

/-- The drawing of a chart once some rows are selected. -/
def drawProgress (chart : Chart) (selected : List Nat) : String :=
  chart.drawWith (chart.progressCell selected (chart.eliminated selected))

end TwoLevel.Chart
