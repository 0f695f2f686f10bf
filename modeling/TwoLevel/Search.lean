import TwoLevel.Search.Bound

/-!
# Smallest covers

The exact search for a smallest set of rows that covers the open columns of a chart. Of several
smallest covers it gives the first one in the order of the exploration. The greedy cover only
limits the exploration: covers of its size are still looked at.

The exploration is depth-first. It takes the first column that no chosen row marks and tries its
allowed rows in order. A node of the search tree is a list of chosen rows; it is abandoned when its
size and the lower bound for its open columns show that it can not lead to a smaller cover than the
best one.

`SearchState` is threaded through the whole search: `take` and `release` keep the number of hits
of each column in step with the chosen rows, and releasing undoes taking (`release_take`).
Recursion follows the list of columns, since the columns before the branching one are hit in all
nodes below it.
-/

namespace TwoLevel

/-! ## Exploration -/

/-- The chosen rows and what has been found so far. -/
structure SearchState where
  /-- The chosen rows, last one first. -/
  chosen : List Nat
  /-- How many chosen rows mark each column. -/
  hits : Array Nat
  /-- The covers found, best one first; each is in the order of choice. -/
  found : List (List Nat)
  /-- The choices of rows that were visited, last one first; each has its last row first. -/
  visited : List (List Nat)
  deriving DecidableEq

namespace SearchState

/-- The state before the search. -/
def initial (p : CoverProblem) : SearchState := ⟨[], .replicate p.chart.columnCount 0, [], []⟩

/-- Does a chosen row mark the column? -/
def isHit (st : SearchState) (col : Nat) : Bool := 0 < st.hits[col]?.getD 0

/-- Changes the numbers of hits of some columns. -/
def adjust (hits : Array Nat) (columns : IndexSet) (f : Nat → Nat) : Array Nat :=
  columns.toList.foldl (fun hits col => hits.modify col f) hits

/-- Chooses a row. -/
def take (st : SearchState) (p : CoverProblem) (row : Nat) : SearchState :=
  { st with
    chosen := row :: st.chosen
    hits := adjust st.hits (p.chart.rowMarks row) (· + 1) }

/-- Takes the last choice back. -/
def release (st : SearchState) (p : CoverProblem) : SearchState :=
  match st.chosen with
  | [] => st
  | row :: chosen =>
    { st with chosen, hits := adjust st.hits (p.chart.rowMarks row) (· - 1) }

/-- The hits of the given columns are changed and no others. -/
theorem getElem?_adjust (hits : Array Nat) (columns : IndexSet) (f : Nat → Nat) (i : Nat) :
    (adjust hits columns f)[i]? = if i ∈ columns then hits[i]?.map f else hits[i]? :=
  getElem?_foldl_modify columns.nodup_toList i

theorem adjust_adjust_cancel {hits : Array Nat} {columns : IndexSet} :
    adjust (adjust hits columns (· + 1)) columns (· - 1) = hits := by
  apply Array.ext_getElem?
  intro i
  by_cases hi : i ∈ columns
  · simp [getElem?_adjust, hi, Function.comp_def]
  · simp [getElem?_adjust, hi]

/-- Releasing a row right after it was taken changes nothing. -/
@[simp] theorem release_take (st : SearchState) (p : CoverProblem) (row : Nat) :
    (st.take p row).release p = st := by
  simp [take, release, adjust_adjust_cancel]

/-- Counts the chosen rows among the visited nodes. -/
def visit (st : SearchState) : SearchState := { st with visited := st.chosen :: st.visited }

/-- Keeps the chosen rows as the best cover. -/
def record (st : SearchState) : SearchState := { st with found := st.chosen.reverse :: st.found }

/-- The best cover found so far. -/
def best? (st : SearchState) : Option (List Nat) := st.found.head?

/-- The size that a cover has to stay below: that of the best one, or `limit` before the first. -/
def bestSize (st : SearchState) (limit : Nat) : Nat := (st.best?.map (·.length)).getD limit

/-- Can no cover below this node be smaller than the best one? -/
def isHopeless (st : SearchState) (p : CoverProblem) (limit : Nat) (columns : List Nat) : Bool :=
  match p.lowerBound? (columns.filter (!st.isHit ·)) with
  | none => true
  | some bound => st.bestSize limit ≤ st.chosen.length + bound

/-- Visits a node with the given columns left, and goes on by `descend` unless it is hopeless. -/
def enter (st : SearchState) (p : CoverProblem) (limit : Nat) (columns : List Nat)
    (descend : SearchState → SearchState) : SearchState :=
  if st.visit.isHopeless p limit columns then st.visit else descend st.visit

/-- Tries the allowed rows of the first open column, or records the choice if none is open. -/
def descend (p : CoverProblem) (limit : Nat) : List Nat → SearchState → SearchState
  | [], st => st.record
  | col :: columns, st =>
    if st.isHit col then descend p limit columns st
    else (p.choices col).foldl (fun st row =>
      ((st.take p row).enter p limit columns (descend p limit columns)).release p) st

/-- Explores all choices that extend the present one and cover the given columns. -/
def explore (st : SearchState) (p : CoverProblem) (limit : Nat) (columns : List Nat) :
    SearchState :=
  st.enter p limit columns (descend p limit columns)

end SearchState

/-! ## The search -/

/-- How a search for a smallest cover ended. -/
inductive SearchOutcome where
  /-- There was no column to cover. -/
  | nothingToCover
  /-- Some column has no allowed row. -/
  | impossible
  /-- The exploration ended in this state; it was limited by the size of the greedy cover. -/
  | explored (greedy : Nat) (final : SearchState)
  deriving DecidableEq

/-- The rows of the smallest cover, in the order of choice. -/
def SearchOutcome.rows? : SearchOutcome → Option (List Nat)
  | nothingToCover => some []
  | impossible => none
  | explored _ final => final.best?

/-- Searches for a smallest cover. -/
def CoverProblem.search (p : CoverProblem) : SearchOutcome :=
  if p.columns.isEmpty then .nothingToCover
  else match p.greedySize? p.columns with
    | none => .impossible
    | some greedy =>
      -- one more than the greedy size, so that covers of that size are recorded too
      .explored greedy ((SearchState.initial p).explore p (greedy + 1) p.columns.toList)

/-- A smallest set of rows, none of them excluded, that marks all columns not yet covered. -/
def Chart.minimalCover? (chart : Chart) (excluded covered : IndexSet) : Option (List Nat) :=
  (CoverProblem.ofChart chart excluded covered).search.rows?

end TwoLevel
