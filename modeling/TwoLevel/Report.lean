import TwoLevel.Chart.Drawing
import TwoLevel.Minimization

/-!
# Reports

The account of a minimization: the minterms, the chart, the rows of the cover, the sizes of their
terms and the expression. A verbose report also shows the generations after the first and the
chart after each step.
-/

namespace TwoLevel

/-- A table with its names and its minimization, if the function is not constantly 0. -/
structure Report where
  table : TruthTable
  names : Names
  minimization? : Option Minimization
  verbose : Bool
  spelling : Spelling

/-- A line for each term: the minterms it covers and its pattern. -/
def Generation.text (g : Generation) : String :=
  .join (g.terms.map fun t => Text.braced t.covered.toList ++ " " ++ t.text ++ "\n")

namespace Report

/-- Minimizes a table for a report. There has to be one name for each variable. -/
def ofTable (table : TruthTable) (names : Names) (verbose : Bool) (spelling : Spelling) :
    Except Error Report := do
  names.checkWidth table.width
  match table.minimize with
  | .ok m => return ⟨table, names, some m, verbose, spelling⟩
  | .error .emptyFunction => return ⟨table, names, none, verbose, spelling⟩
  | .error e => throw e

/-- The table as a sum of products, and a line for each minterm whose output is not 0. -/
def mintermsText (r : Report) : String :=
  let line := fun m =>
    let mark := if r.table.output m = .dontCare then " (don't care)" else ""
    Text.braced [m] ++ " " ++ (Cube.ofIndex r.table.width m).text ++ mark ++ "\n"
  "Minterms: " ++ r.table.sumOfProducts ++ "\n" ++ .join (r.table.stored.toList.map line)

/-- The generations after the first. -/
def generationsText (m : Minimization) : String :=
  .join ((m.rounds.drop 1).map fun round =>
    s!"\nGroup {round.generation.round}:\n" ++ round.generation.text)

/-- The chart after each step. -/
def stepsText (m : Minimization) : String :=
  .join (m.steps.mapIdx fun i step =>
    s!"\nStep {i + 1}: " ++ step.text ++ "\n" ++
      m.chart.drawProgress ((m.steps.take (i + 1)).map (·.row)))

/-- Some rows of the chart under a title, as patterns and as products. -/
def rowsText (r : Report) (m : Minimization) (title : String) (rows : List Nat) : String :=
  let line := fun t : Term => t.text ++ "  " ++ r.spelling.product r.names t.cube ++ "\n"
  title ++ ":\n" ++
    if rows.isEmpty then "none\n" else .join ((rows.filterMap m.chart.term?).map line)

/-- The last two lines of a report. -/
def expressionText (expression : String) : String :=
  "\nFinal expression:\n" ++ expression ++ "\n"

/-- All that follows the minterms. -/
def minimizationText (r : Report) (m : Minimization) : String :=
  (if r.verbose then generationsText m else "") ++
    "\nCoverage chart:\n" ++ m.chart.draw ++
    (if r.verbose then stepsText m else "") ++
    "\n" ++ r.rowsText m "Essential prime implicants" m.essentials.rows.toList ++
    "\n" ++ r.rowsText m "Non-essential prime implicants" m.selected ++
    "\nStatistics:\n" ++ m.cover.statistics ++
    expressionText (r.spelling.sum r.names m.cover.terms)

/-- The report. -/
def text (r : Report) : String :=
  r.mintermsText ++ match r.minimization? with
    | some m => r.minimizationText m
    | none => expressionText (r.spelling.constant false)

end Report

end TwoLevel
