import TwoLevel.Proofs.Search.Calls

/-!
# Exploring restores the state

Exploring a node takes rows and takes them back. It leaves early when a node is hopeless, when no
column is open, or when all rows of a column have been tried, and on none of these ways does the
stack of chosen rows or a counter end up changed.

* **`SearchState.explore?`** — the exploration that gives up as soon as a counter at zero would have
  to go down. It never does (`explore?_eq_some`), so the plain exploration never relies on
  subtraction stopping at zero.
* **`explore_restores`** — in every call of a search, exploring gives back the stack and the
  counters, and only adds ever smaller covers that extend the choice of rows.
-/

namespace TwoLevel

namespace SearchState

variable {p : CoverProblem} {limit : Nat} {columns : List Nat} {st st' : SearchState}

/-! ## Counters never go below zero -/

/-- Takes the last choice back, unless a counter at zero would have to go down. -/
def release? (st : SearchState) (p : CoverProblem) : Option SearchState :=
  if st.chosen.head?.all fun row => (p.chart.rowMarks row).toList.all st.isHit then
    some (st.release p)
  else none

/-- Visits a node as `enter` does. -/
def enter? (st : SearchState) (p : CoverProblem) (limit : Nat) (columns : List Nat)
    (descend? : SearchState → Option SearchState) : Option SearchState :=
  if st.visit.isHopeless p limit columns then some st.visit else descend? st.visit

/-- Goes on below a node as `descend` does, as long as the counters allow it. -/
def descend? (p : CoverProblem) (limit : Nat) : List Nat → SearchState → Option SearchState
  | [], st => some st.record
  | col :: columns, st =>
    if st.isHit col then descend? p limit columns st
    else (p.choices col).foldlM (fun st row =>
      ((st.take p row).enter? p limit columns (descend? p limit columns)).bind (·.release? p)) st

/-- Explores as `explore` does, as long as the counters allow it. -/
def explore? (st : SearchState) (p : CoverProblem) (limit : Nat) (columns : List Nat) :
    Option SearchState :=
  st.enter? p limit columns (descend? p limit columns)

/-- A row on top of the stack can be taken back if the counters are as taking it left them. -/
theorem release?_eq_some (hchart : p.chart.Consistent) {row : Nat}
    (hsize : st.hits.size = p.chart.columnCount) (hchosen : st'.chosen = row :: st.chosen)
    (hhits : st'.hits = (st.take p row).hits) : st'.release? p = some (st'.release p) := by
  have hall : ∀ col ∈ p.chart.rowMarks row, st'.isHit col = true := by
    intro col hmark
    have hcol : col < st.hits.size := by
      rw [hsize]
      exact hchart.col_lt hmark
    rw [isHit, hhits]
    exact (isHit_take p row hcol).2 (Or.inr hmark)
  rw [release?, hchosen, List.head?_cons, Option.all_some, if_pos (List.all_eq_true.2 hall)]

theorem explore?_eq_some_of_descend?
    (h : descend? p limit columns st.visit = some (descend p limit columns st.visit)) :
    st.explore? p limit columns = some (st.explore p limit columns) := by
  rw [explore?, enter?, explore, enter]
  split
  · rfl
  · exact h

theorem foldlM_eq_some_foldl {step? : SearchState → Nat → Option SearchState}
    {step : SearchState → Nat → SearchState} (inv : SearchState → Prop)
    (hstep : ∀ st row, inv st → step? st row = some (step st row) ∧ inv (step st row))
    (rows : List Nat) (hst : inv st) : rows.foldlM step? st = some (rows.foldl step st) := by
  induction rows generalizing st with
  | nil => rfl
  | cons row rows ih =>
    obtain ⟨heq, hnext⟩ := hstep st row hst
    rw [List.foldlM_cons, heq]
    exact ih hnext

/--
Going on below a node never stops at a counter. Induction on the columns that are left: what is
explored for a row leaves the counters as they were after taking it.
-/
theorem descend?_eq_some (hchart : p.chart.Consistent)
    (hcolumns : ∀ col ∈ columns, col < p.chart.columnCount)
    (hsize : st.hits.size = p.chart.columnCount) :
    descend? p limit columns st = some (descend p limit columns st) := by
  induction columns generalizing st with
  | nil => rfl
  | cons col columns ih =>
    rw [List.forall_mem_cons] at hcolumns
    rw [descend_cons, descend?]
    split
    · exact ih hcolumns.2 hsize
    · apply foldlM_eq_some_foldl (fun st => st.hits.size = p.chart.columnCount) _ _ hsize
      intro st row hst
      have hlt : ∀ col ∈ columns, col < st.hits.size := by
        rw [hst]
        exact hcolumns.2
      have hbelow : (st.take p row).hits.size = p.chart.columnCount := by
        rw [take, size_adjust, hst]
      have hexplore : (st.take p row).explore? p limit columns =
          some ((st.take p row).explore p limit columns) :=
        explore?_eq_some_of_descend? (ih hcolumns.2 hbelow)
      -- below the row its marks are kept in the counters, where they are when it is taken back
      have hrecords : Records limit (candidates p (st.take p row) columns) (st.take p row)
          ((st.take p row).explore p limit columns) := by
        apply records_explore limit hchart
        rw [hbelow]
        exact hcolumns.2
      constructor
      · show ((st.take p row).explore? p limit columns).bind (·.release? p) = _
        rw [hexplore, Option.bind_some,
          release?_eq_some hchart hst hrecords.chosen_eq hrecords.hits_eq]
        rfl
      · rw [(records_branch limit hchart row hlt).hits_eq, hst]

/-- **No counter ever goes below zero.** -/
theorem explore?_eq_some (limit : Nat) (hchart : p.chart.Consistent)
    (hcolumns : ∀ col ∈ columns, col < p.chart.columnCount)
    (hsize : st.hits.size = p.chart.columnCount) :
    st.explore? p limit columns = some (st.explore p limit columns) := by
  apply explore?_eq_some_of_descend?
  exact descend?_eq_some hchart hcolumns hsize

/-! ## What exploring leaves behind -/

/-- Are all columns to cover before the position hit? -/
def HitsBefore (p : CoverProblem) (position : Nat) (st : SearchState) : Prop :=
  ∀ col ∈ p.columns.toList.take position, st.isHit col = true

/--
Exploring leaves the stack and the counters as they were. The covers that it adds extend the choice
of rows, and cover all columns with allowed rows; each cover is smaller than the one found before
it, and none is larger than the greedy cover.
-/
structure Restores (p : CoverProblem) (greedy : Nat) (st st' : SearchState) : Prop where
  chosen_eq : st'.chosen = st.chosen
  hits_eq : st'.hits = st.hits
  exists_found : ∃ new, st'.found = new ++ st.found ∧
    ∀ rows ∈ new, st.chosen.reverse <+: rows ∧ p.Covers rows p.columns.toList
  smaller : st'.found.Pairwise (·.length < ·.length)
  le_greedy : ∀ rows ∈ st'.found, rows.length ≤ greedy

theorem covers_of_mem_candidates (hchart : p.chart.Consistent) (hcounts : st.CountsHits p)
    (hallowed : ∀ row ∈ st.chosen, row ∈ p.allowedRows) {position : Nat}
    (hbefore : st.HitsBefore p position) {rows : List Nat}
    (hrows : rows ∈ candidates p st (p.columns.toList.drop position)) :
    p.Covers rows p.columns.toList := by
  obtain ⟨rest, hrest, rfl⟩ := List.mem_map.1 hrows
  have hcovers := CoverProblem.covers_of_mem_completions hchart hrest
  have hhit : ∀ col, st.isHit col = true →
      ∃ row ∈ st.chosen.reverse ++ rest, col ∈ p.chart.rowMarks row := by
    intro col hcol
    obtain ⟨row, hrow, hmark⟩ := (hcounts.isHit_iff hchart).1 hcol
    exact ⟨row, List.mem_append_left _ (List.mem_reverse.2 hrow), hmark⟩
  constructor
  · intro row hrow
    rcases List.mem_append.1 hrow with hrow | hrow
    · exact hallowed row (List.mem_reverse.1 hrow)
    · exact hcovers.1 row hrow
  · intro col hcol
    rw [← List.take_append_drop position p.columns.toList, List.mem_append] at hcol
    rcases hcol with hcol | hcol
    · exact hhit col (hbefore col hcol)
    · -- a column from the position on is left to the completion if it is not hit yet
      by_cases hopen : st.isHit col = true
      · exact hhit col hopen
      · have hmem : col ∈ st.openColumns (p.columns.toList.drop position) :=
          List.mem_filter.2 ⟨hcol, by simpa using hopen⟩
        obtain ⟨row, hrow, hmark⟩ := hcovers.2 col hmem
        exact ⟨row, List.mem_append_right _ hrow, hmark⟩

theorem Sound.restores_explore (hchart : p.chart.Consistent)
    (hcolumns : ∀ col ∈ p.columns, col < p.chart.columnCount) {greedy position : Nat}
    (h : Sound p (greedy + 1) columns st) (hbefore : st.HitsBefore p position) :
    Restores p greedy st (st.explore p (greedy + 1) (p.columns.toList.drop position)) := by
  have hlt : ∀ col ∈ p.columns.toList.drop position, col < st.hits.size := by
    intro col hcol
    rw [h.countsHits.size_hits]
    exact hcolumns col (List.mem_of_mem_drop hcol)
  have hrecords := records_explore (p := p) (greedy + 1) hchart hlt
  have hdecreasing := (h.of_records hrecords).decreasing
  refine ⟨hrecords.chosen_eq, hrecords.hits_eq, ?_, hdecreasing.pairwise,
    fun rows hrows => Nat.le_of_lt_succ (hdecreasing.lt_limit rows hrows)⟩
  obtain ⟨new, hnew, hmem⟩ := exists_improve_eq_append (greedy + 1) st.found
    (candidates p st (p.columns.toList.drop position))
  refine ⟨new, hrecords.found_eq.trans hnew, fun rows hrows => ?_⟩
  have hcandidate := hmem rows hrows
  refine ⟨?_, covers_of_mem_candidates hchart h.countsHits h.allowed hbefore hcandidate⟩
  obtain ⟨rest, -, rfl⟩ := List.mem_map.1 hcandidate
  exact List.prefix_append _ _

end SearchState

/--
**Exploring restores its state.** In every call of a search the counters are right, and the columns
before some position are hit, from which on they are left. From any position with all columns before
it hit, the exploration comes to an end without a counter going below zero, and adds nothing but
covers that extend the choice of rows.
-/
theorem SearchState.explore_restores (terms : List Term) (required : List Nat)
    (excluded covered : IndexSet) {greedy : Nat} {columns : List Nat} {st : SearchState}
    (hcall : Calls (.ofChart (.ofTerms terms required) excluded covered) greedy columns st) :
    let p := CoverProblem.ofChart (.ofTerms terms required) excluded covered
    st.CountsHits p ∧
    (∃ position, columns = p.columns.toList.drop position ∧ st.HitsBefore p position) ∧
    ∀ position, st.HitsBefore p position →
      st.explore? p (greedy + 1) (p.columns.toList.drop position) =
        some (st.explore p (greedy + 1) (p.columns.toList.drop position)) ∧
      Restores p greedy st (st.explore p (greedy + 1) (p.columns.toList.drop position)) := by
  intro p
  have hchart : p.chart.Consistent := Chart.consistent_ofTerms terms required
  have hcolumns : ∀ col ∈ p.columns, col < p.chart.columnCount := Chart.lt_of_mem_columns_ofChart
  have hsound := hcall.sound hchart hcolumns
  refine ⟨hsound.countsHits, ?_, fun position hbefore => ⟨?_, ?_⟩⟩
  · obtain ⟨before, heq, hhit⟩ := hsound.exists_before
    refine ⟨before.length, by rw [← heq, List.drop_left], ?_⟩
    rw [HitsBefore, ← heq, List.take_left]
    exact hhit
  · apply explore?_eq_some _ hchart _ hsound.countsHits.size_hits
    exact fun col hcol => hcolumns col (List.mem_of_mem_drop hcol)
  · exact hsound.restores_explore hchart hcolumns hbefore

/-- What the essential row of `Chart.mixed` leaves to cover: four columns in a cycle. -/
def CoverProblem.cycle : CoverProblem := .ofChart .mixed {4} {4}

/-- The exploration below the first row of the cycle. -/
theorem SearchState.explore_restores_cycle :
    Calls .cycle 2 [1, 2, 3] ((initial .cycle).visit.take .cycle 0) ∧
      ((initial .cycle).visit.take .cycle 0).explore? .cycle 3 [1, 2, 3] =
        some (((initial .cycle).visit.take .cycle 0).explore .cycle 3 [1, 2, 3]) ∧
      Restores .cycle 2 ((initial .cycle).visit.take .cycle 0)
        (((initial .cycle).visit.take .cycle 0).explore .cycle 3 [1, 2, 3]) := by
  have hstart : Calls .cycle 2 ([] ++ 0 :: [1, 2, 3]) (initial .cycle) :=
    .start (by decide +kernel) (by decide +kernel)
  have hchoices : CoverProblem.cycle.choices 0 = [] ++ 0 :: [3] := by decide +kernel
  have hcall : Calls .cycle 2 [1, 2, 3] ((initial .cycle).visit.take .cycle 0) :=
    hstart.branch (by decide +kernel) (by simp) (by decide +kernel) hchoices
  have hbefore : ((initial .cycle).visit.take .cycle 0).HitsBefore .cycle 1 := by
    unfold HitsBefore
    decide +kernel
  exact ⟨hcall, (explore_restores _ _ {4} {4} hcall).2.2 1 hbefore⟩

end TwoLevel
