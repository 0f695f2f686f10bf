import TwoLevel.Chart

/-!
# Consistent charts

A chart keeps its marks twice, by row and by column. It is `Consistent` when both say the same and
no mark lies outside the chart. Every chart of terms is (`consistent_ofTerms`), and what is shown
about the essential rows and the search of a chart rests on nothing else.

`Chart.Productive` is the notion that all selections of rows share: each row marks a column that
is still open when it is selected. Greedy covers, the covers that the search finds and the
essential rows are productive; the rows of a productive selection are distinct
(`Productive.nodup`) and there are no more of them than columns (`Productive.length_le`).
-/

namespace TwoLevel.Chart

/-- The marks by row and by column agree, and lie within the chart. -/
structure Consistent (chart : Chart) : Prop where
  mem_columnMarks {row col : Nat} : row ∈ chart.columnMarks col ↔ col ∈ chart.rowMarks row
  row_lt {row col : Nat} (h : col ∈ chart.rowMarks row) : row < chart.rowCount
  col_lt {row col : Nat} (h : col ∈ chart.rowMarks row) : col < chart.columnCount

@[simp] theorem isMarked_iff {chart : Chart} {row col : Nat} :
    chart.isMarked row col = true ↔ col ∈ chart.rowMarks row := by simp [isMarked]

theorem consistent_ofTerms (terms : List Term) (required : List Nat) :
    (ofTerms terms required).Consistent where
  mem_columnMarks := mem_columnMarks_ofTerms
  row_lt h := by
    obtain ⟨t, m, ht, -, -⟩ := mem_rowMarks_ofTerms.1 h
    exact (Array.getElem?_eq_some_iff.1 ht).1
  col_lt h := by
    obtain ⟨t, m, -, hm, -⟩ := mem_rowMarks_ofTerms.1 h
    exact (List.getElem?_eq_some_iff.1 hm).1

/-! ## Open columns -/

/-- The columns among the given ones that a row does not mark. -/
def leftOpen (chart : Chart) (row : Nat) (columns : List Nat) : List Nat :=
  columns.filter (· ∉ chart.rowMarks row)

@[simp] theorem mem_leftOpen {chart : Chart} {row col : Nat} {columns : List Nat} :
    col ∈ chart.leftOpen row columns ↔ col ∈ columns ∧ col ∉ chart.rowMarks row := by
  simp [leftOpen]

theorem length_leftOpen_le (chart : Chart) (row : Nat) (columns : List Nat) :
    (chart.leftOpen row columns).length ≤ columns.length := List.length_filter_le _ _

theorem length_leftOpen_lt {chart : Chart} {row col : Nat} {columns : List Nat}
    (hcol : col ∈ columns) (hmark : col ∈ chart.rowMarks row) :
    (chart.leftOpen row columns).length < columns.length :=
  List.length_filter_lt_length_iff_exists.2 ⟨col, hcol, by simpa using hmark⟩

/-! ## Productive selections -/

/-- Each row marks a column that no row before it marks. -/
def Productive (chart : Chart) : (columns rows : List Nat) → Prop
  | _, [] => True
  | columns, row :: rows =>
    (∃ col ∈ columns, col ∈ chart.rowMarks row) ∧ chart.Productive (chart.leftOpen row columns) rows

/-- Every row of a productive selection marks one of the columns. Induction on the selection. -/
theorem Productive.exists_mark {chart : Chart} {columns rows : List Nat}
    (h : chart.Productive columns rows) {row : Nat} (hrow : row ∈ rows) :
    ∃ col ∈ columns, col ∈ chart.rowMarks row := by
  induction rows generalizing columns with
  | nil => simp at hrow
  | cons r rows ih =>
    rcases List.mem_cons.1 hrow with rfl | hrow
    · exact h.1
    · obtain ⟨col, hcol, hmark⟩ := ih h.2 hrow
      exact ⟨col, (mem_leftOpen.1 hcol).1, hmark⟩

theorem Productive.mono {chart : Chart} {columns more rows : List Nat}
    (h : chart.Productive columns rows) (hsub : columns ⊆ more) : chart.Productive more rows := by
  induction rows generalizing columns more with
  | nil => trivial
  | cons row rows ih =>
    obtain ⟨⟨col, hcol, hmark⟩, hrest⟩ := h
    refine ⟨⟨col, hsub hcol, hmark⟩, ih hrest fun c hc => ?_⟩
    obtain ⟨hc, hleft⟩ := mem_leftOpen.1 hc
    exact mem_leftOpen.2 ⟨hsub hc, hleft⟩

/-- A selection goes on with rows that are productive on columns that it leaves open. -/
theorem Productive.append {chart : Chart} {columns leftColumns rows more : List Nat}
    (h : chart.Productive columns rows) (hmore : chart.Productive leftColumns more)
    (hleft : ∀ col ∈ leftColumns, col ∈ columns ∧ ∀ row ∈ rows, col ∉ chart.rowMarks row) :
    chart.Productive columns (rows ++ more) := by
  induction rows generalizing columns with
  | nil => exact hmore.mono fun col hcol => (hleft col hcol).1
  | cons row rows ih =>
    refine ⟨h.1, ih h.2 fun col hcol => ?_⟩
    obtain ⟨hcolumns, hunmarked⟩ := hleft col hcol
    obtain ⟨hrow, hrows⟩ := List.forall_mem_cons.1 hunmarked
    exact ⟨mem_leftOpen.2 ⟨hcolumns, hrow⟩, hrows⟩

theorem Productive.nodup {chart : Chart} {columns rows : List Nat}
    (h : chart.Productive columns rows) : rows.Nodup := by
  induction rows generalizing columns with
  | nil => exact List.nodup_nil
  | cons row rows ih =>
    refine List.nodup_cons.2 ⟨fun hrow => ?_, ih h.2⟩
    -- a second occurrence would have to mark a column that the first one left open
    obtain ⟨col, hcol, hmark⟩ := h.2.exists_mark hrow
    exact (mem_leftOpen.1 hcol).2 hmark

theorem Productive.length_le {chart : Chart} {columns rows : List Nat}
    (h : chart.Productive columns rows) : rows.length ≤ columns.length := by
  induction rows generalizing columns with
  | nil => simp
  | cons row rows ih =>
    obtain ⟨⟨col, hcol, hmark⟩, hrest⟩ := h
    have hlt := length_leftOpen_lt hcol hmark
    have hle := ih hrest
    rw [List.length_cons]
    omega

end TwoLevel.Chart
