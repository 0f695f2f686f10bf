import TwoLevel.Proofs.Search.GreedyCover
import TwoLevel.Proofs.Search.Pruning
import TwoLevel.Search

/-!
# The search is exact

`Chart.SmallestCompletion` says what rows a search has to come up with. The main statement is
**`minimalCover?_exact`**: for every chart of terms, the search gives no rows exactly if some
column to cover has none that may be used, and a smallest completion otherwise.

It comes from the unpruned tree. The search ends with the first of the smallest completions
(**`search_eq_minOn?_completions`**), as pruning loses nothing and the limit, one more than the
greedy size, is greater than the size of some completion; and no cover is smaller than the
completions.
-/

namespace TwoLevel

/-- Rows that mark the columns not yet covered, none of them excluded, and as few as can be. -/
structure Chart.SmallestCompletion (chart : Chart) (excluded covered : IndexSet) (rows : List Nat) :
    Prop where
  nodup : rows.Nodup
  lt_rowCount : ∀ row ∈ rows, row < chart.rowCount
  not_excluded : ∀ row ∈ rows, row ∉ excluded
  marks : ∀ col < chart.columnCount, col ∉ covered → ∃ row ∈ rows, chart.isMarked row col = true
  length_le : ∀ others : List Nat, (∀ row ∈ others, row ∉ excluded) →
    (∀ col < chart.columnCount, col ∉ covered → ∃ row ∈ others, chart.isMarked row col = true) →
    rows.length ≤ others.length

/-! ## The best candidate -/

/-- The shorter of two choices of rows, the first one if they are of one length. -/
abbrev shorter (a b : Option (List Nat)) : Option (List Nat) := a.merge (minOn List.length) b

theorem shorter_assoc (a b d : Option (List Nat)) :
    shorter (shorter a b) d = shorter a (shorter b d) := by
  cases a with
  | none => simp
  | some a =>
    cases b with
    | none => simp
    | some b =>
      cases d with
      | none => simp
      | some d => simp [minOn_assoc]

theorem minOn?_cons_eq_shorter (rows : List Nat) (candidates : List (List Nat)) :
    (rows :: candidates).minOn? List.length =
      shorter (some rows) (candidates.minOn? List.length) := by
  rw [← List.singleton_append, List.minOn?_append, List.minOn?_singleton]

theorem exists_keepSmaller_cons (limit : Nat) (best rows : List Nat) (found : List (List Nat)) :
    ∃ more, keepSmaller limit (best :: found) rows = minOn List.length best rows :: more := by
  have hbeat : sizeToBeat limit (best :: found) = best.length := rfl
  unfold keepSmaller minOn
  rw [hbeat]
  by_cases hle : best.length ≤ rows.length
  · exact ⟨found, by rw [if_pos hle, if_neg (Nat.not_lt.2 hle)]⟩
  · exact ⟨best :: found, by rw [if_neg hle, if_pos (Nat.not_le.1 hle)]⟩

theorem head?_improve_cons (limit : Nat) (best : List Nat) (found candidates : List (List Nat)) :
    (improve limit (best :: found) candidates).head? =
      shorter (some best) (candidates.minOn? List.length) := by
  induction candidates generalizing best found with
  | nil => rfl
  | cons rows candidates ih =>
    obtain ⟨more, hmore⟩ := exists_keepSmaller_cons limit best rows found
    rw [improve_cons, hmore, ih, minOn?_cons_eq_shorter, ← shorter_assoc]
    rfl

/-- The last to improve is the first of the smallest, unless none is below the limit. -/
theorem head?_improve_nil {limit : Nat} {candidates : List (List Nat)}
    (h : ∃ rows ∈ candidates, rows.length < limit) :
    (improve limit [] candidates).head? = candidates.minOn? List.length := by
  induction candidates with
  | nil => simp at h
  | cons rows candidates ih =>
    rw [improve_cons, minOn?_cons_eq_shorter]
    by_cases hlt : rows.length < limit
    · have hkeep : keepSmaller limit [] rows = [rows] := if_pos hlt
      rw [hkeep, head?_improve_cons]
    · -- the limit hides the first candidate, which is not the smallest either
      rw [keepSmaller_of_le (Nat.not_lt.1 hlt)]
      obtain ⟨other, hother, hbelow⟩ := h
      have hmem : other ∈ candidates := by
        rcases List.mem_cons.1 hother with rfl | hmem
        · exact absurd hbelow hlt
        · exact hmem
      rw [ih ⟨other, hmem, hbelow⟩]
      obtain ⟨best, hbest⟩ :=
        Option.isSome_iff_exists.1 (List.isSome_minOn?_of_mem (f := List.length) hmem)
      have hle := List.apply_get_minOn?_le_of_mem (f := List.length) hmem
      simp only [hbest, Option.get_some] at hle
      have hlonger : ¬ rows.length ≤ best.length := by omega
      rw [hbest]
      show some best = some (minOn List.length rows best)
      rw [minOn_eq_right hlonger]

/-! ## The outcome of a search -/

namespace CoverProblem

variable {p : CoverProblem}

theorem lt_size_hits_initial (hcolumns : ∀ col ∈ p.columns, col < p.chart.columnCount) :
    ∀ col ∈ p.columns.toList, col < (SearchState.initial p).hits.size := by
  simpa [SearchState.initial, ← IndexSet.mem_def] using hcolumns

theorem openColumns_initial (hcolumns : ∀ col ∈ p.columns, col < p.chart.columnCount) :
    (SearchState.initial p).openColumns p.columns.toList = p.columns.toList := by
  apply List.filter_eq_self.2
  intro col hcol
  have hlt := hcolumns col hcol
  simp [SearchState.isHit, SearchState.initial, hlt]

/-- Before the search all columns are open, so the covers found come from all completions. -/
theorem found_explore_initial (hchart : p.chart.Consistent)
    (hcolumns : ∀ col ∈ p.columns, col < p.chart.columnCount) (limit : Nat) :
    ((SearchState.initial p).explore p limit p.columns.toList).found =
      improve limit [] (p.completions p.columns.toList) := by
  have hrecords := SearchState.records_explore limit hchart (lt_size_hits_initial hcolumns)
  rw [hrecords.found_eq, SearchState.candidates, openColumns_initial hcolumns]
  simp [SearchState.initial]

theorem exists_completion_of_greedySize? (hchart : p.chart.Consistent) {columns : IndexSet}
    {greedy : Nat} (h : p.greedySize? columns = some greedy) :
    ∃ rows ∈ p.completions columns.toList, rows.length < greedy + 1 := by
  obtain ⟨rows, hlen, hcovers, -⟩ := exists_cover_of_greedySize? h
  obtain ⟨c, hc, hle⟩ := exists_completion_le hchart hcovers
  exact ⟨c, hc, by omega⟩

theorem completions_eq_nil_iff (hchart : p.chart.Consistent) {columns : IndexSet} :
    p.completions columns.toList = [] ↔ ∃ col ∈ columns, p.choices col = [] := by
  constructor
  · intro hnil
    cases hgreedy : p.greedySize? columns with
    | none => exact exists_choices_eq_nil hchart hgreedy
    | some greedy =>
      obtain ⟨rows, hrows, -⟩ := exists_completion_of_greedySize? hchart hgreedy
      simp [hnil] at hrows
  · rintro ⟨col, hcol, hnil⟩
    apply List.eq_nil_iff_forall_not_mem.2
    intro rows hrows
    exact not_covers_of_choices_eq_nil hchart hcol hnil (covers_of_mem_completions hchart hrows)

/--
**The search comes to the first of the smallest completions.** Pruning loses nothing, and the limit
is greater than the size of some completion.
-/
theorem search_eq_minOn?_completions (hchart : p.chart.Consistent)
    (hcolumns : ∀ col ∈ p.columns, col < p.chart.columnCount) :
    p.search.rows? = (p.completions p.columns.toList).minOn? List.length := by
  unfold search
  split
  · rename_i hempty
    rw [IndexSet.isEmpty_iff.1 hempty, IndexSet.toList_empty, completions_nil,
      List.minOn?_singleton]
    rfl
  · split
    · rename_i hgreedy
      rw [(completions_eq_nil_iff hchart).2 (exists_choices_eq_nil hchart hgreedy),
        List.minOn?_nil]
      rfl
    · rename_i greedy hgreedy
      show SearchState.best? _ = _
      rw [SearchState.best?, found_explore_initial hchart hcolumns]
      exact head?_improve_nil (exists_completion_of_greedySize? hchart hgreedy)

theorem mem_completions_of_search (hchart : p.chart.Consistent)
    (hcolumns : ∀ col ∈ p.columns, col < p.chart.columnCount) {rows : List Nat}
    (h : p.search.rows? = some rows) :
    rows ∈ p.completions p.columns.toList ∧
      ∀ others ∈ p.completions p.columns.toList, rows.length ≤ others.length := by
  rw [search_eq_minOn?_completions hchart hcolumns] at h
  refine ⟨List.minOn?_mem h, fun others hothers => ?_⟩
  have hle := List.apply_get_minOn?_le_of_mem (f := List.length) hothers
  simpa only [h, Option.get_some] using hle

theorem search_eq_none_iff (hchart : p.chart.Consistent)
    (hcolumns : ∀ col ∈ p.columns, col < p.chart.columnCount) :
    p.search.rows? = none ↔ ∃ col ∈ p.columns, p.choices col = [] := by
  rw [search_eq_minOn?_completions hchart hcolumns, ← Option.not_isSome_iff_eq_none,
    List.isSome_minOn?_iff, not_not]
  exact completions_eq_nil_iff hchart

end CoverProblem

/-! ## Smallest covers of a chart -/

namespace Chart

variable {chart : Chart} {excluded covered : IndexSet}

theorem mem_columns_ofChart {col : Nat} :
    col ∈ (CoverProblem.ofChart chart excluded covered).columns ↔
      col < chart.columnCount ∧ col ∉ covered := by
  simp [CoverProblem.ofChart]

theorem lt_of_mem_columns_ofChart :
    ∀ col ∈ (CoverProblem.ofChart chart excluded covered).columns, col < chart.columnCount :=
  fun _ hcol => (mem_columns_ofChart.1 hcol).1

theorem covers_ofChart_iff {rows : List Nat} :
    (CoverProblem.ofChart chart excluded covered).Covers rows
        (CoverProblem.ofChart chart excluded covered).columns.toList ↔
      (∀ row ∈ rows, row < chart.rowCount ∧ row ∉ excluded) ∧
        ∀ col < chart.columnCount, col ∉ covered →
          ∃ row ∈ rows, chart.isMarked row col = true := by
  unfold CoverProblem.Covers
  simp only [CoverProblem.mem_allowedRows, ← IndexSet.mem_def, mem_columns_ofChart, and_imp,
    isMarked_iff]
  rfl

/-- The rows of a list that mark something are in range, and they mark what the list marks. -/
theorem exists_covers_le (hchart : chart.Consistent) {others : List Nat}
    (hexcluded : ∀ row ∈ others, row ∉ excluded)
    (hmarks : ∀ col < chart.columnCount, col ∉ covered →
      ∃ row ∈ others, chart.isMarked row col = true) :
    ∃ rows, rows.length ≤ others.length ∧
      (CoverProblem.ofChart chart excluded covered).Covers rows
        (CoverProblem.ofChart chart excluded covered).columns.toList := by
  refine ⟨others.filter (· < chart.rowCount), List.length_filter_le _ _, ?_⟩
  rw [covers_ofChart_iff]
  constructor
  · intro row hrow
    obtain ⟨hrow, hlt⟩ := List.mem_filter.1 hrow
    exact ⟨by simpa using hlt, hexcluded row hrow⟩
  · intro col hcol hopen
    obtain ⟨row, hrow, hmark⟩ := hmarks col hcol hopen
    have hlt : row < chart.rowCount := hchart.row_lt (isMarked_iff.1 hmark)
    exact ⟨row, List.mem_filter.2 ⟨hrow, by simpa using hlt⟩, hmark⟩

theorem mem_completions_of_minimalCover? (hchart : chart.Consistent) {rows : List Nat}
    (h : chart.minimalCover? excluded covered = some rows) :
    rows ∈ (CoverProblem.ofChart chart excluded covered).completions
      (CoverProblem.ofChart chart excluded covered).columns.toList :=
  (CoverProblem.mem_completions_of_search hchart lt_of_mem_columns_ofChart h).1

/-- Each row that the search chooses marks an open column that no row chosen before it marks. -/
theorem productive_of_minimalCover? (hchart : chart.Consistent) {rows : List Nat}
    (h : chart.minimalCover? excluded covered = some rows) :
    chart.Productive (CoverProblem.ofChart chart excluded covered).columns.toList rows :=
  CoverProblem.productive_of_mem_completions hchart (mem_completions_of_minimalCover? hchart h)

theorem smallestCompletion_of_minimalCover? (hchart : chart.Consistent) {rows : List Nat}
    (h : chart.minimalCover? excluded covered = some rows) :
    chart.SmallestCompletion excluded covered rows := by
  have hmem := mem_completions_of_minimalCover? hchart h
  obtain ⟨hallowed, hmarks⟩ :=
    covers_ofChart_iff.1 (CoverProblem.covers_of_mem_completions hchart hmem)
  refine ⟨(productive_of_minimalCover? hchart h).nodup, fun row hrow => (hallowed row hrow).1,
    fun row hrow => (hallowed row hrow).2, hmarks, fun others hexcluded hothers => ?_⟩
  obtain ⟨cover, hcover, hcovers⟩ := exists_covers_le hchart hexcluded hothers
  obtain ⟨c, hc, hle⟩ := CoverProblem.exists_completion_le hchart hcovers
  have hsmallest :=
    (CoverProblem.mem_completions_of_search hchart lt_of_mem_columns_ofChart h).2 c hc
  omega

theorem choices_ofChart_eq_nil_iff (hchart : chart.Consistent) {col : Nat} :
    (CoverProblem.ofChart chart excluded covered).choices col = [] ↔
      ∀ row, chart.isMarked row col = true → row ∈ excluded := by
  simp only [List.eq_nil_iff_forall_not_mem, CoverProblem.mem_choices, isMarked_iff, not_and,
    not_not]
  exact forall_congr' fun row => imp_congr_left hchart.mem_columnMarks

theorem minimalCover?_eq_none_iff (hchart : chart.Consistent) :
    chart.minimalCover? excluded covered = none ↔
      ∃ col < chart.columnCount, col ∉ covered ∧
        ∀ row, chart.isMarked row col = true → row ∈ excluded := by
  rw [minimalCover?, CoverProblem.search_eq_none_iff hchart lt_of_mem_columns_ofChart]
  simp only [mem_columns_ofChart, choices_ofChart_eq_nil_iff hchart, and_assoc]

/--
**The cover search is exact.** It gives no rows exactly if some column that is not covered is
marked by excluded rows at most, and otherwise as few rows as any that would do.
-/
theorem minimalCover?_exact (terms : List Term) (required : List Nat)
    (excluded covered : IndexSet) :
    ((ofTerms terms required).minimalCover? excluded covered = none ↔
      ∃ col < (ofTerms terms required).columnCount, col ∉ covered ∧
        ∀ row, (ofTerms terms required).isMarked row col = true → row ∈ excluded) ∧
    ∀ rows, (ofTerms terms required).minimalCover? excluded covered = some rows →
      (ofTerms terms required).SmallestCompletion excluded covered rows :=
  ⟨minimalCover?_eq_none_iff (consistent_ofTerms terms required),
    fun _ => smallestCompletion_of_minimalCover? (consistent_ofTerms terms required)⟩

end Chart

end TwoLevel
