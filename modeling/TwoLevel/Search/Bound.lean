import TwoLevel.Search.Problem

/-!
# Bounds on the size of a cover

A greedy cover takes, again and again, the allowed row that marks the most columns still open. Its
size limits the exact search from above (`greedySize?`).

Two facts bound the number of rows that cover some open columns from below (`lowerBound?`): columns
of which no two share an allowed row need one row each, and no row marks more columns than the
greatest gain of a row. The bound is the greater of the two numbers; an open column without any
allowed row can not be covered at all.
-/

namespace TwoLevel

/-! ## The greedy cover -/

namespace CoverProblem

/-- The number of open columns that a row marks. -/
def gain (p : CoverProblem) (openColumns : IndexSet) (row : Nat) : Nat :=
  ((p.chart.rowMarks row).filter (· ∈ openColumns)).size

/-- The allowed row that marks the most open columns; of several, the first. -/
def bestRow? (p : CoverProblem) (openColumns : IndexSet) : Option Nat :=
  p.allowedRows.maxOn? (p.gain openColumns)

/--
The size of the greedy cover of some columns. There is none if at some point no allowed row marks
an open column.
-/
def greedySize? (p : CoverProblem) (openColumns : IndexSet) : Option Nat :=
  if openColumns.isEmpty then some 0
  else match p.bestRow? openColumns with
    | none => none
    | some row =>
      -- a best row that closes no column gains nothing, and neither does any other
      if (openColumns \ p.chart.rowMarks row).size < openColumns.size then
        (p.greedySize? (openColumns \ p.chart.rowMarks row)).map (· + 1)
      else none
  termination_by openColumns.size

end CoverProblem

/-! ## The rows still needed -/

/-- What has been counted about the columns seen so far. -/
structure Tally where
  /-- For each row, the number of the columns that it may be used for. -/
  gains : Array Nat
  /-- The number of the columns that shared no row with a column before them. -/
  isolated : Nat

namespace Tally

/-- Nothing has been seen of a chart with so many rows. -/
def empty (rowCount : Nat) : Tally := ⟨.replicate rowCount 0, 0⟩

/-- Counts a column that some rows may be used for. -/
def add (t : Tally) (rows : List Nat) : Tally :=
  let isolated := if rows.all fun row => t.gains[row]?.getD 0 = 0 then t.isolated + 1
    else t.isolated
  ⟨rows.foldl (fun gains row => gains.modify row (· + 1)) t.gains, isolated⟩

/-- The greatest gain of a row. -/
def maxGain (t : Tally) : Nat := t.gains.foldl max 0

end Tally

namespace CoverProblem

/-- Counts some columns. -/
def tally (p : CoverProblem) (columns : List Nat) : Tally :=
  columns.foldl (fun t col => t.add (p.choices col)) (.empty p.chart.rowCount)

/-- At least so many allowed rows cover the columns; `none` if no rows do. -/
def lowerBound? (p : CoverProblem) (columns : List Nat) : Option Nat :=
  if columns.any fun col => (p.choices col).isEmpty then none
  else
    let t := p.tally columns
    let gain := t.maxGain
    some (max t.isolated ((columns.length + gain - 1) / gain))

end CoverProblem

end TwoLevel
