import TwoLevel.Chart

/-!
# Steps of a selection

Rows of a chart are selected one after the other; each `Step` tells which minterms its row covers
that no row before it does.
-/

namespace TwoLevel

/-- Why a row is selected. -/
inductive Selection where
  /-- No other row marks some column. -/
  | essential
  /-- The search for a smallest cover chose it. -/
  | search
  deriving DecidableEq, Repr

/-- A selected row, with the minterms that it is the first to cover. -/
structure Step where
  row : Nat
  selection : Selection
  eliminated : List Nat
  deriving DecidableEq

/-- The word for a reason. -/
def Selection.text : Selection → String
  | essential => "essential"
  | search => "selected"

namespace Step

/-- The steps of some selections when the given columns are covered already. -/
def traceFrom (chart : Chart) (covered : IndexSet) : List (Nat × Selection) → List Step
  | [] => []
  | (row, selection) :: selections =>
    let marks := chart.rowMarks row
    ⟨row, selection, chart.mintermsOf (marks \ covered)⟩ ::
      traceFrom chart (covered ∪ marks) selections

/-- The steps of some selections, in order. -/
def trace (chart : Chart) (selections : List (Nat × Selection)) : List Step :=
  traceFrom chart ∅ selections

/-- A line that tells what a step eliminates. -/
def text (step : Step) : String :=
  s!"row {step.row} ({step.selection.text}): eliminates " ++ Text.braced step.eliminated

end Step

end TwoLevel
