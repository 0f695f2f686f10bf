import TwoLevel.Proofs.Chart.EssentialRows

/-!
# What the counters say, and the bound read off them

The search does not look at its chosen rows when it asks whether a column is open: it looks at a
counter for each column. The counters are right when each holds the number of chosen rows that mark
its column (`SearchState.CountsHits`). That is so at the start, taking a row keeps it so, and then a
column is hit exactly if a chosen row marks it (`isHit_iff`).

**`isLowerBound_openColumns`** puts this together with what is known of the bound: in a state with
right counters, the bound for the columns from a position on is a bound for those that no chosen row
marks.
-/

namespace TwoLevel

/-- The columns among the given ones that none of the rows marks. -/
def Chart.unmarked (chart : Chart) (rows columns : List Nat) : List Nat :=
  columns.filter fun col => ∀ row ∈ rows, col ∉ chart.rowMarks row

namespace CoverProblem

/-- For each column, the number of the given rows that mark it. -/
def hitCounts (p : CoverProblem) (rows : List Nat) : Array Nat :=
  Array.ofFn fun col : Fin p.chart.columnCount => rows.countP (col.val ∈ p.chart.rowMarks ·)

theorem getElem?_hitCounts (p : CoverProblem) (rows : List Nat) {col : Nat}
    (hcol : col < p.chart.columnCount) :
    (p.hitCounts rows)[col]? = some (rows.countP (col ∈ p.chart.rowMarks ·)) := by
  simp [hitCounts, hcol]

theorem getElem?_hitCounts_of_le (p : CoverProblem) (rows : List Nat) {col : Nat}
    (hcol : p.chart.columnCount ≤ col) : (p.hitCounts rows)[col]? = none := by
  simp [hitCounts, hcol]

/--
A bound on the rows that cover some columns is missing exactly if one of the columns has no allowed
row. It is no greater than the size of any cover, and 0 if there is no column.
-/
structure IsLowerBound (p : CoverProblem) (columns : List Nat) (bound? : Option Nat) : Prop where
  eq_none_iff : bound? = none ↔ ∃ col ∈ columns, ∀ row ∈ p.allowedRows, col ∉ p.chart.rowMarks row
  le_length {bound : Nat} (h : bound? = some bound) {rows : List Nat}
    (hrows : p.Covers rows columns) : bound ≤ rows.length
  eq_zero (h : columns = []) : bound? = some 0

variable {p : CoverProblem}

theorem choices_eq_nil_iff (hchart : p.chart.Consistent) {col : Nat} :
    p.choices col = [] ↔ ∀ row ∈ p.allowedRows, col ∉ p.chart.rowMarks row := by
  simp [List.eq_nil_iff_forall_not_mem, mem_choices_iff hchart]

theorem isLowerBound_lowerBound? (hchart : p.chart.Consistent) (columns : List Nat) :
    p.IsLowerBound columns (p.lowerBound? columns) where
  eq_none_iff := by simp only [lowerBound?_eq_none_iff, choices_eq_nil_iff hchart]
  le_length h _ hrows := le_length_of_lowerBound? hchart h hrows
  eq_zero h := by rw [h, lowerBound?_nil]

end CoverProblem

namespace SearchState

variable {p : CoverProblem} {st : SearchState}

/-- The counter of each column holds the number of chosen rows that mark it. -/
def CountsHits (p : CoverProblem) (st : SearchState) : Prop := st.hits = p.hitCounts st.chosen

instance (p : CoverProblem) (st : SearchState) : Decidable (st.CountsHits p) :=
  inferInstanceAs (Decidable (_ = _))

theorem countsHits_initial (p : CoverProblem) : (initial p).CountsHits p := by
  apply Array.ext_getElem?
  intro col
  by_cases hcol : col < p.chart.columnCount
  · simp [initial, p.getElem?_hitCounts _ hcol, hcol]
  · simp [initial, p.getElem?_hitCounts_of_le _ (Nat.not_lt.1 hcol), hcol]

theorem CountsHits.take (h : st.CountsHits p) (row : Nat) : (st.take p row).CountsHits p := by
  unfold CountsHits at h ⊢
  apply Array.ext_getElem?
  intro col
  simp only [SearchState.take, getElem?_adjust, h]
  by_cases hcol : col < p.chart.columnCount
  · -- the row is one more in the count exactly if its mark moves the counter
    by_cases hmark : col ∈ p.chart.rowMarks row
    · simp [p.getElem?_hitCounts _ hcol, hmark]
    · simp [p.getElem?_hitCounts _ hcol, hmark]
  · simp [p.getElem?_hitCounts_of_le _ (Nat.not_lt.1 hcol)]

theorem CountsHits.size_hits (h : st.CountsHits p) : st.hits.size = p.chart.columnCount := by
  rw [h, CoverProblem.hitCounts, Array.size_ofFn]

/-- With right counters, the columns that are hit are those that the chosen rows mark. -/
theorem CountsHits.isHit_iff (h : st.CountsHits p) (hchart : p.chart.Consistent) {col : Nat} :
    st.isHit col = true ↔ ∃ row ∈ st.chosen, col ∈ p.chart.rowMarks row := by
  rw [isHit, h, decide_eq_true_eq]
  by_cases hcol : col < p.chart.columnCount
  · rw [p.getElem?_hitCounts _ hcol, Option.getD_some, List.countP_pos_iff]
    simp only [decide_eq_true_eq]
  · rw [p.getElem?_hitCounts_of_le _ (Nat.not_lt.1 hcol)]
    -- there is no counter, and no row marks a column outside the chart
    refine iff_of_false (Nat.lt_irrefl 0) ?_
    rintro ⟨row, -, hmark⟩
    exact hcol (hchart.col_lt hmark)

theorem CountsHits.openColumns_eq (h : st.CountsHits p) (hchart : p.chart.Consistent)
    (columns : List Nat) : st.openColumns columns = p.chart.unmarked st.chosen columns := by
  apply List.filter_congr
  intro col _
  rw [Bool.eq_iff_iff, Bool.not_eq_true', ← Bool.not_eq_true, h.isHit_iff hchart]
  simp

end SearchState

/--
**The lower bound is admissible.** In a state whose counters hold the marks of the chosen rows, the
bound for the columns from a position on is one for those of them that no chosen row marks.
-/
theorem SearchState.isLowerBound_openColumns (terms : List Term) (required : List Nat)
    (excluded covered : IndexSet) {st : SearchState}
    (hcounts : st.CountsHits (.ofChart (.ofTerms terms required) excluded covered))
    (columns : List Nat) (position : Nat) :
    (CoverProblem.ofChart (.ofTerms terms required) excluded covered).IsLowerBound
      ((Chart.ofTerms terms required).unmarked st.chosen (columns.drop position))
      ((CoverProblem.ofChart (.ofTerms terms required) excluded covered).lowerBound?
        (st.openColumns (columns.drop position))) := by
  have hchart := Chart.consistent_ofTerms terms required
  have hopen := hcounts.openColumns_eq hchart (columns.drop position)
  rw [hopen]
  exact CoverProblem.isLowerBound_lowerBound? hchart _

/-- With the only row of minterm 7 chosen, three columns of the cycle need two rows. -/
theorem SearchState.isLowerBound_openColumns_mixed :
    ((initial (.ofChart .mixed ∅ ∅)).take (.ofChart .mixed ∅ ∅) 4).CountsHits
        (.ofChart .mixed ∅ ∅) ∧
      ∀ rows, (CoverProblem.ofChart .mixed ∅ ∅).Covers rows [1, 2, 3] → 2 ≤ rows.length := by
  have hcounts : ((initial (.ofChart .mixed ∅ ∅)).take (.ofChart .mixed ∅ ∅) 4).CountsHits
      (.ofChart .mixed ∅ ∅) := by decide +kernel
  have hbound := isLowerBound_openColumns _ _ ∅ ∅ hcounts [0, 1, 2, 3, 4] 1
  refine ⟨hcounts, fun rows hrows => hbound.le_length (by decide +kernel) ?_⟩
  have hopen : Chart.mixed.unmarked [4] ([0, 1, 2, 3, 4].drop 1) = [1, 2, 3] := by decide +kernel
  exact hopen ▸ hrows

end TwoLevel
