import TwoLevel.Minimization

/-!
# Events

What a run tells about its stages. An `Event` has a level, the stage it comes from and a message;
a `LogLevel` used as a filter admits the events of its own level and of those above it.
-/

namespace TwoLevel

/-- How much a run tells. -/
inductive LogLevel where
  | off
  | error
  | warn
  | info
  | debug
  | trace
  deriving DecidableEq, Repr

namespace LogLevel

/-- All levels, from the least to the most detailed. -/
def all : List LogLevel := [off, error, warn, info, debug, trace]

/-- The name of a level. -/
def name : LogLevel → String
  | off => "off"
  | error => "error"
  | warn => "warn"
  | info => "info"
  | debug => "debug"
  | trace => "trace"

/-- The level of a name. -/
def ofName? (name : String) : Option LogLevel := all.find? (·.name = name)

/-- The position of a level among all. -/
def detail (level : LogLevel) : Nat := all.idxOf level

/-- Does a filter admit the events of a level? -/
def admits (filter level : LogLevel) : Bool := level.detail ≤ filter.detail

end LogLevel

/-- The stages of a minimization. -/
inductive Stage where
  | primes
  | chart
  | cover
  | search
  | minimize
  deriving DecidableEq, Repr

/-- The place in the program that a stage's events are shown to come from. -/
def Stage.target : Stage → String
  | primes => "qmkit::primes"
  | chart => "qmkit::chart"
  | cover => "qmkit::cover"
  | search => "qmkit::search"
  | minimize => "qmkit::minimize"

/-- Something told about a stage. -/
structure Event where
  level : LogLevel
  stage : Stage
  message : String
  deriving DecidableEq

namespace Event

/-- The number of terms in each round, of merged terms and of primes found. -/
def ofRounds (rounds : List Round) : List Event :=
  let merged := (rounds.drop 1).map (·.generation.terms.length) ++ [0]
  (rounds.zip merged).map fun (r, n) => ⟨.debug, .primes,
    s!"round {r.generation.round}: {r.generation.terms.length} terms, " ++
      s!"{n} merged terms, {r.primes.length} new primes"⟩

/-- The size of a chart. -/
def ofChart (chart : Chart) : List Event :=
  [⟨.debug, .chart, s!"chart of {chart.rowCount} primes and {chart.columnCount} minterms"⟩]

/-- The numbers of essential rows and of the columns that they mark. -/
def ofEssentials (chart : Chart) (e : Essentials) : List Event :=
  [⟨.debug, .cover,
    s!"{e.rows.size} essential primes covering {e.covered.size} " ++
      s!"of {chart.columnCount} minterms"⟩]

/-- Each cover found by a search, and then what the search came to. -/
def ofSearch (p : CoverProblem) : SearchOutcome → List Event
  | .nothingToCover => []
  | .impossible => []
  | .explored greedy final =>
    let best := match final.best? with
      | some rows => s!"Some({rows.length})"
      | none => "None"
    final.found.reverse.map (fun rows =>
      ⟨.trace, .search, "cover found: " ++ Text.bracketed rows⟩) ++
    [⟨.debug, .search,
      s!"cover search: {p.columns.size} columns, greedy size {greedy}, " ++
        s!"{final.visited.length} nodes visited, best size {best}"⟩]

/-- The events of all stages of a minimization. -/
def ofMinimization (table : TruthTable) (m : Minimization) : List Event :=
  ofRounds m.rounds ++ ofChart m.chart ++ ofEssentials m.chart m.essentials ++
    ofSearch (.ofChart m.chart m.essentials.rows m.essentials.covered) m.search ++
    [⟨.info, .minimize,
      s!"{table.required.size} minterms ({table.dontCares.size} don't-care): " ++
        s!"{m.primes.terms.length} primes, {m.essentials.rows.size} essential, " ++
        s!"{m.selected.length} selected"⟩]

end Event

end TwoLevel
