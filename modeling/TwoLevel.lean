import TwoLevel.Chart.Drawing
import TwoLevel.Chart.Essentials
import TwoLevel.CommandLine.Session
import TwoLevel.Event
import TwoLevel.Main
import TwoLevel.Minimization
import TwoLevel.Proofs.Chart.Alignment
import TwoLevel.Proofs.Chart.Consistency
import TwoLevel.Proofs.Chart.EssentialRows
import TwoLevel.Proofs.Chart.Views
import TwoLevel.Proofs.CommandLine.Answers
import TwoLevel.Proofs.CommandLine.Arguments
import TwoLevel.Proofs.CommandLine.Routes
import TwoLevel.Proofs.Cube.Counting
import TwoLevel.Proofs.Cube.Distance
import TwoLevel.Proofs.Cube.Factors
import TwoLevel.Proofs.Cube.Splitting
import TwoLevel.Proofs.Generation.AllPairs
import TwoLevel.Proofs.Generation.Antichain
import TwoLevel.Proofs.Generation.Completeness
import TwoLevel.Proofs.Generation.InputOrder
import TwoLevel.Proofs.Generation.Preservation
import TwoLevel.Proofs.Generation.Rounds
import TwoLevel.Proofs.Generation.Scan
import TwoLevel.Proofs.Generation.Termination
import TwoLevel.Proofs.Minimization.Optimality
import TwoLevel.Proofs.Minimization.Rows
import TwoLevel.Proofs.Minimization.Simplification
import TwoLevel.Proofs.Minimization.Stages
import TwoLevel.Proofs.Minimization.Steps
import TwoLevel.Proofs.Minimization.Support
import TwoLevel.Proofs.Minimization.Totality
import TwoLevel.Proofs.Names.Grammar
import TwoLevel.Proofs.Names.Identifiers
import TwoLevel.Proofs.Names.Reading
import TwoLevel.Proofs.Names.Writing
import TwoLevel.Proofs.Report.Ending
import TwoLevel.Proofs.Search.Calls
import TwoLevel.Proofs.Search.Completions
import TwoLevel.Proofs.Search.GreedyCover
import TwoLevel.Proofs.Search.GreedyLoop
import TwoLevel.Proofs.Search.HitCounts
import TwoLevel.Proofs.Search.LowerBound
import TwoLevel.Proofs.Search.Pruning
import TwoLevel.Proofs.Search.Restoration
import TwoLevel.Proofs.Search.Smallest
import TwoLevel.Proofs.Search.Unbounded
import TwoLevel.Proofs.Search.Visits
import TwoLevel.Proofs.Spelling.RoundTrip
import TwoLevel.Proofs.Spelling.Variables
import TwoLevel.Proofs.Spelling.Words
import TwoLevel.Proofs.Step.Progress
import TwoLevel.Proofs.Term.Construction
import TwoLevel.Proofs.Term.Coverage
import TwoLevel.Proofs.Term.Merging
import TwoLevel.Proofs.Term.Patterns
import TwoLevel.Proofs.TruthTable.Implicants
import TwoLevel.Proofs.TruthTable.Indices
import TwoLevel.Proofs.TruthTable.Reading
import TwoLevel.Proofs.TruthTable.Writing
import TwoLevel.Report
