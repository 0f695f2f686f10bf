import TwoLevel.Chart.Essentials
import TwoLevel.Cover
import TwoLevel.Generation.Rounds
import TwoLevel.Search
import TwoLevel.Spelling
import TwoLevel.Step
import TwoLevel.TruthTable

/-!
# Minimization

A table is minimized in four stages: the prime implicants of its minterms, the chart of these
primes over the minterms with output 1, the essential rows of the chart, and a smallest set of
other rows for the columns that remain. `Minimization` keeps what each stage gives.
-/

namespace TwoLevel

/-- What the stages of a minimization give. -/
structure Minimization where
  /-- The rounds of the merge process. -/
  rounds : List Round
  /-- The primes over the minterms with output 1. -/
  chart : Chart
  essentials : Essentials
  /-- The search for the rows that are not essential. -/
  search : SearchOutcome
  /-- The rows that the search chose, in order. -/
  selected : List Nat
  /-- The selections in order, the essential rows first. -/
  steps : List Step

namespace Minimization

/-- The prime implicants, in the order of the rows. -/
def primes (m : Minimization) : Cover := ⟨primesOf m.rounds⟩

/-- All rows of the cover, the essential ones first. -/
def rows (m : Minimization) : List Nat := m.essentials.rows.toList ++ m.selected

/-- The rows that are not part of the cover. -/
def unusedRows (m : Minimization) : List Nat :=
  (List.range m.chart.rowCount).filter fun row => row ∉ m.essentials.rows ∧ row ∉ m.selected

/-- The terms of the selected rows. -/
def cover (m : Minimization) : Cover := ⟨m.rows.filterMap m.chart.term?⟩

end Minimization

namespace TruthTable

/--
Minimizes a table. It fails if no minterm has output 1, or if the rows found leave some column
of the chart uncovered.
-/
def minimize (table : TruthTable) : Except Error Minimization :=
  let required := table.required
  if required.isEmpty then .error .emptyFunction
  else
    let rounds := mergeRounds table.initialTerms
    let chart := Chart.ofTerms (primesOf rounds) required.toList
    let essentials := chart.essentials
    let columns := IndexSet.range chart.columnCount
    let search := (CoverProblem.ofChart chart essentials.rows essentials.covered).search
    match search.rows? with
    | none => .error (.uncovered (chart.mintermsOf (columns \ essentials.covered)))
    | some selected =>
      let steps := Step.trace chart
        (essentials.rows.toList.map (·, .essential) ++ selected.map (·, .search))
      let covered := IndexSet.unionAll (steps.map fun step => chart.rowMarks step.row)
      if covered.size = chart.columnCount then
        .ok { rounds, chart, essentials, search, selected, steps }
      else .error (.uncovered (chart.mintermsOf (columns \ covered)))

end TruthTable

/--
Reads a table and names, and gives the expression of the minimized function in the textbook's
spelling. A function without a minterm to cover is the constant 0.
-/
def simplify (table names : String) : Except Error String := do
  let table ← TruthTable.ofText table
  let names ← Names.ofText names
  names.checkWidth table.width
  match table.minimize with
  | .ok m => m.cover.expression names .textbook
  | .error .emptyFunction => return Spelling.textbook.constant false
  | .error e => throw e

end TwoLevel
