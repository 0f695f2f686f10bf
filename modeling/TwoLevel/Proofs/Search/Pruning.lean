import TwoLevel.Proofs.Search.LowerBound

/-!
# Pruning loses nothing

The exploration keeps a stack of chosen rows and a counter for each column, abandons the nodes that
look hopeless, and records a cover only when it is smaller than the best one. None of that shows in
its result: it finds what going through the unpruned tree would find.

* **`improve`** — what a list of candidates comes to when each is kept only if it is smaller than
  all kept before it. This is the search without stack, counters and bounds.
* **`Records`** — the stack and the counters are as before, and some candidates have improved on the
  covers found.
* **`records_explore`** — exploring a node records all covers that it has below it. An abandoned
  node has only covers that improve on nothing, which is what the lower bound is for.
-/

namespace TwoLevel

/-! ## Improving on the covers found -/

/-- The size that a cover has to stay below: that of the last one found, or `limit`. -/
def sizeToBeat (limit : Nat) (found : List (List Nat)) : Nat :=
  (found.head?.map (·.length)).getD limit

/-- Puts a cover in front of those found before it, if it is smaller than the last of them. -/
def keepSmaller (limit : Nat) (found : List (List Nat)) (rows : List Nat) : List (List Nat) :=
  if rows.length < sizeToBeat limit found then rows :: found else found

/-- The covers found after some more candidates were looked at in order. -/
def improve (limit : Nat) (found candidates : List (List Nat)) : List (List Nat) :=
  candidates.foldl (keepSmaller limit) found

@[simp] theorem improve_nil (limit : Nat) (found : List (List Nat)) :
    improve limit found [] = found := rfl

theorem improve_cons (limit : Nat) (found candidates : List (List Nat)) (rows : List Nat) :
    improve limit found (rows :: candidates) =
      improve limit (keepSmaller limit found rows) candidates := rfl

theorem improve_append (limit : Nat) (found candidates more : List (List Nat)) :
    improve limit found (candidates ++ more) =
      improve limit (improve limit found candidates) more :=
  List.foldl_append

theorem keepSmaller_of_le {limit : Nat} {found : List (List Nat)} {rows : List Nat}
    (h : sizeToBeat limit found ≤ rows.length) : keepSmaller limit found rows = found := by
  rw [keepSmaller, if_neg (Nat.not_lt.2 h)]

theorem improve_of_forall_le {limit : Nat} {found candidates : List (List Nat)}
    (h : ∀ rows ∈ candidates, sizeToBeat limit found ≤ rows.length) :
    improve limit found candidates = found := by
  induction candidates with
  | nil => rfl
  | cons rows candidates ih =>
    rw [improve_cons, keepSmaller_of_le (h rows List.mem_cons_self)]
    exact ih fun rows hrows => h rows (List.mem_cons_of_mem _ hrows)

theorem sizeToBeat_keepSmaller_le (limit : Nat) (found : List (List Nat)) (rows : List Nat) :
    sizeToBeat limit (keepSmaller limit found rows) ≤ sizeToBeat limit found ∧
      sizeToBeat limit (keepSmaller limit found rows) ≤ rows.length := by
  unfold keepSmaller
  split
  · rename_i hlt
    exact ⟨Nat.le_of_lt hlt, Nat.le_refl _⟩
  · rename_i hle
    exact ⟨Nat.le_refl _, Nat.not_lt.1 hle⟩

theorem sizeToBeat_improve_le_self (limit : Nat) (found candidates : List (List Nat)) :
    sizeToBeat limit (improve limit found candidates) ≤ sizeToBeat limit found := by
  induction candidates generalizing found with
  | nil => exact Nat.le_refl _
  | cons rows candidates ih =>
    exact Nat.le_trans (ih _) (sizeToBeat_keepSmaller_le limit found rows).1

theorem sizeToBeat_improve_le (limit : Nat) (found : List (List Nat))
    {candidates : List (List Nat)} {rows : List Nat} (h : rows ∈ candidates) :
    sizeToBeat limit (improve limit found candidates) ≤ rows.length := by
  induction candidates generalizing found with
  | nil => simp at h
  | cons first candidates ih =>
    rw [improve_cons]
    rcases List.mem_cons.1 h with rfl | h
    · exact Nat.le_trans (sizeToBeat_improve_le_self limit _ candidates)
        (sizeToBeat_keepSmaller_le limit found rows).2
    · exact ih _ h

namespace SearchState

variable {p : CoverProblem} {limit : Nat} {columns : List Nat} {st st' : SearchState}

/-! ## Counters -/

@[simp] theorem size_adjust (hits : Array Nat) (columns : IndexSet) (f : Nat → Nat) :
    (adjust hits columns f).size = hits.size :=
  size_foldl_modify hits f columns.toList

theorem isHit_take (p : CoverProblem) (row : Nat) {col : Nat} (hcol : col < st.hits.size) :
    (st.take p row).isHit col = true ↔ st.isHit col = true ∨ col ∈ p.chart.rowMarks row := by
  simp only [isHit, take, getElem?_adjust, Array.getElem?_eq_getElem hcol]
  by_cases hmark : col ∈ p.chart.rowMarks row
  · simp [hmark]
  · simp [hmark]

/-- The columns among the given ones that no chosen row marks. -/
def openColumns (st : SearchState) (columns : List Nat) : List Nat :=
  columns.filter (!st.isHit ·)

theorem openColumns_take {row : Nat} (hcolumns : ∀ col ∈ columns, col < st.hits.size) :
    (st.take p row).openColumns columns = p.chart.leftOpen row (st.openColumns columns) := by
  rw [openColumns, openColumns, Chart.leftOpen, List.filter_filter]
  apply List.filter_congr
  intro col hcol
  rw [Bool.eq_iff_iff]
  have htake := isHit_take p row (hcolumns col hcol)
  simp only [Bool.not_eq_true', Bool.and_eq_true, decide_eq_true_eq, ← Bool.not_eq_true, htake,
    not_or]
  exact and_comm

/-! ## Hopeless nodes -/

/-- No completion of a hopeless node is smaller than the best cover. -/
theorem bestSize_le_of_isHopeless (hchart : p.chart.Consistent)
    (h : st.isHopeless p limit columns = true) {rows : List Nat}
    (hrows : rows ∈ p.completions (st.openColumns columns)) :
    st.bestSize limit ≤ (st.chosen.reverse ++ rows).length := by
  have hcovers := p.covers_of_mem_completions hchart hrows
  unfold isHopeless at h
  split at h
  · rename_i hbound
    -- no bound, no cover
    exact absurd hcovers (p.not_covers_of_lowerBound? hchart hbound)
  · rename_i bound hbound
    have hle := p.le_length_of_lowerBound? hchart hbound hcovers
    rw [decide_eq_true_eq] at h
    rw [List.length_append, List.length_reverse]
    omega

/-- A node that is not hopeless has fewer rows than the best cover. -/
theorem length_chosen_lt_bestSize (h : st.isHopeless p limit columns = false) :
    st.chosen.length < st.bestSize limit := by
  unfold isHopeless at h
  split at h
  · simp at h
  · rename_i bound _
    rw [decide_eq_false_iff_not, Nat.not_le] at h
    exact Nat.lt_of_le_of_lt (Nat.le_add_right _ bound) h

/-! ## Exploring -/

/-- The covers that a node has below it: the chosen rows with a completion of the open columns. -/
def candidates (p : CoverProblem) (st : SearchState) (columns : List Nat) : List (List Nat) :=
  (p.completions (st.openColumns columns)).map (st.chosen.reverse ++ ·)

theorem openColumns_congr (hhits : st'.hits = st.hits) :
    st'.openColumns columns = st.openColumns columns := by
  unfold openColumns isHit
  rw [hhits]

theorem candidates_congr (hchosen : st'.chosen = st.chosen) (hhits : st'.hits = st.hits) :
    candidates p st' columns = candidates p st columns := by
  rw [candidates, candidates, hchosen, openColumns_congr hhits]

theorem openColumns_cons_of_isHit {col : Nat} (columns : List Nat) (hhit : st.isHit col = true) :
    st.openColumns (col :: columns) = st.openColumns columns := by
  simp [openColumns, hhit]

theorem openColumns_cons_of_not_isHit {col : Nat} (columns : List Nat)
    (hopen : st.isHit col = false) :
    st.openColumns (col :: columns) = col :: st.openColumns columns := by
  simp [openColumns, hopen]

theorem candidates_cons {col : Nat} (hcolumns : ∀ col ∈ columns, col < st.hits.size)
    (hhit : st.isHit col = false) :
    candidates p st (col :: columns) =
      (p.choices col).flatMap fun row => candidates p (st.take p row) columns := by
  rw [candidates, openColumns_cons_of_not_isHit columns hhit, p.completions_cons, List.map_flatMap]
  congr 1
  funext row
  rw [candidates, openColumns_take hcolumns, List.map_map]
  congr 1
  funext rows
  simp [take]

/--
What going through a part of the tree does to a state: these candidates improve on the covers
found, and the stack and the counters end up as they were.
-/
structure Records (limit : Nat) (candidates : List (List Nat)) (st st' : SearchState) : Prop where
  chosen_eq : st'.chosen = st.chosen
  hits_eq : st'.hits = st.hits
  found_eq : st'.found = improve limit st.found candidates

theorem Records.trans {candidates more : List (List Nat)} {st'' : SearchState}
    (h : Records limit candidates st st') (h' : Records limit more st' st'') :
    Records limit (candidates ++ more) st st'' where
  chosen_eq := h'.chosen_eq.trans h.chosen_eq
  hits_eq := h'.hits_eq.trans h.hits_eq
  found_eq := by rw [improve_append, ← h.found_eq, h'.found_eq]

/-- Tries one row for the branching column, and takes it back. -/
def branch (p : CoverProblem) (limit : Nat) (columns : List Nat) (st : SearchState) (row : Nat) :
    SearchState :=
  ((st.take p row).enter p limit columns (descend p limit columns)).release p

theorem descend_cons (p : CoverProblem) (limit col : Nat) (columns : List Nat) (st : SearchState) :
    descend p limit (col :: columns) st =
      if st.isHit col then descend p limit columns st
      else (p.choices col).foldl (branch p limit columns) st := rfl

@[simp] theorem visited_release (st : SearchState) (p : CoverProblem) :
    (st.release p).visited = st.visited := by
  unfold SearchState.release
  split <;> rfl

@[simp] theorem found_release (st : SearchState) (p : CoverProblem) :
    (st.release p).found = st.found := by
  unfold SearchState.release
  split <;> rfl

/-- Releasing a row after all below it was recorded gives back the stack and the counters. -/
theorem Records.release {row : Nat} {candidates : List (List Nat)}
    (h : Records limit candidates (st.take p row) st') :
    Records limit candidates st (st'.release p) := by
  have hchosen : st'.chosen = row :: st.chosen := h.chosen_eq
  have hrelease : st'.release p = { st' with
      chosen := st.chosen, hits := adjust st'.hits (p.chart.rowMarks row) (· - 1) } := by
    rw [SearchState.release, hchosen]
  rw [hrelease]
  refine ⟨rfl, ?_, h.found_eq⟩
  show adjust st'.hits (p.chart.rowMarks row) (· - 1) = st.hits
  rw [h.hits_eq]
  exact adjust_adjust_cancel

/-- A hopeless node is left at once, and none of its candidates would be recorded. -/
theorem records_enter (hchart : p.chart.Consistent)
    (hdescend : st.visit.isHopeless p limit columns = false →
      Records limit (candidates p st columns) st.visit (descend p limit columns st.visit)) :
    Records limit (candidates p st columns) st
      (st.enter p limit columns (descend p limit columns)) := by
  unfold enter
  split
  · rename_i hhopeless
    refine ⟨rfl, rfl, (improve_of_forall_le fun rows hrows => ?_).symm⟩
    obtain ⟨rest, hrest, rfl⟩ := List.mem_map.1 hrows
    exact bestSize_le_of_isHopeless hchart hhopeless hrest
  · rename_i hpromising
    obtain ⟨hchosen, hhits, hfound⟩ := hdescend (Bool.eq_false_iff.2 hpromising)
    exact ⟨hchosen, hhits, hfound⟩

/--
Trying some rows one after the other. Induction on the rows: each one leaves the stack and the
counters to the next as it found them, and so the same candidates to record.
-/
theorem records_foldl_branch (rows : List Nat) (hcolumns : ∀ col ∈ columns, col < st.hits.size)
    (hbranch : ∀ st : SearchState, (∀ col ∈ columns, col < st.hits.size) → ∀ row,
      Records limit (candidates p (st.take p row) columns) st (branch p limit columns st row)) :
    Records limit (rows.flatMap fun row => candidates p (st.take p row) columns) st
      (rows.foldl (branch p limit columns) st) := by
  induction rows generalizing st with
  | nil => exact ⟨rfl, rfl, rfl⟩
  | cons row rows ih =>
    have hfirst := hbranch st hcolumns row
    have hnext : ∀ col ∈ columns, col < (branch p limit columns st row).hits.size := by
      rw [hfirst.hits_eq]
      exact hcolumns
    have hcandidates : ∀ r, candidates p ((branch p limit columns st row).take p r) columns =
        candidates p (st.take p r) columns := by
      intro r
      apply candidates_congr
      · simp only [take, hfirst.chosen_eq]
      · simp only [take, hfirst.hits_eq]
    have hrest := ih hnext
    simp only [hcandidates] at hrest
    rw [List.foldl_cons, List.flatMap_cons]
    exact hfirst.trans hrest

/--
**Descending records the candidates of a node.** Induction on the columns that are left: a hit
column adds nothing, an open one is branched on.
-/
theorem records_descend (hchart : p.chart.Consistent)
    (hcolumns : ∀ col ∈ columns, col < st.hits.size)
    (hpromising : st.isHopeless p limit columns = false) :
    Records limit (candidates p st columns) st (descend p limit columns st) := by
  induction columns generalizing st with
  | nil =>
    -- nothing is left to cover, and a node that is not hopeless beats the best cover
    have hlt : st.chosen.reverse.length < sizeToBeat limit st.found := by
      rw [List.length_reverse]
      exact length_chosen_lt_bestSize hpromising
    have hkeep : keepSmaller limit st.found st.chosen.reverse = st.chosen.reverse :: st.found :=
      if_pos hlt
    refine ⟨rfl, rfl, ?_⟩
    show st.chosen.reverse :: st.found = _
    simp [candidates, openColumns, improve_cons, hkeep]
  | cons col columns ih =>
    rw [List.forall_mem_cons] at hcolumns
    rw [descend_cons]
    split
    · rename_i hhit
      have hopen := openColumns_cons_of_isHit columns hhit
      have hbelow : st.isHopeless p limit columns = false := by
        rw [openColumns, openColumns] at hopen
        rwa [isHopeless, hopen] at hpromising
      rw [candidates, hopen]
      exact ih hcolumns.2 hbelow
    · rename_i hhit
      rw [candidates_cons hcolumns.2 (Bool.eq_false_iff.2 hhit)]
      apply records_foldl_branch _ hcolumns.2
      intro st hst row
      -- taking a row keeps the number of counters, so the node below is one of the induction
      have hvisited : ∀ col ∈ columns, col < (st.take p row).visit.hits.size := by
        simpa [take, visit] using hst
      exact (records_enter hchart (ih hvisited)).release

/-- **Exploring a node of the search tree records its candidates.** -/
theorem records_explore (limit : Nat) (hchart : p.chart.Consistent)
    (hcolumns : ∀ col ∈ columns, col < st.hits.size) :
    Records limit (candidates p st columns) st (st.explore p limit columns) :=
  records_enter hchart (records_descend hchart hcolumns)

theorem records_branch (limit : Nat) (hchart : p.chart.Consistent) (row : Nat)
    (hcolumns : ∀ col ∈ columns, col < st.hits.size) :
    Records limit (candidates p (st.take p row) columns) st (branch p limit columns st row) := by
  apply Records.release
  apply records_explore limit hchart
  simpa [take] using hcolumns

end SearchState

end TwoLevel
