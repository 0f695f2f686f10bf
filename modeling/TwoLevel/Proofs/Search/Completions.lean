import TwoLevel.Proofs.Chart.Consistency
import TwoLevel.Search.Problem

/-!
# The unpruned search tree

`CoverProblem.completions` lists, in the order of the search, every choice of rows that branching
on the first open column leads to. It is what a search without any bound goes through, and the
other modules compare the search with it.

* **`covers_of_mem_completions`**, **`productive_of_mem_completions`** — a completion covers the
  columns, and each of its rows marks a column left open by those before it.
* **`exists_completion_le`** — for every cover there is a completion among its rows, hence one
  that is no larger. So a smallest completion is a smallest cover.
-/

namespace TwoLevel.CoverProblem

variable {p : CoverProblem}

/-! ## Covers -/

theorem mem_choices_iff (hchart : p.chart.Consistent) {col row : Nat} :
    row ∈ p.choices col ↔ row ∈ p.allowedRows ∧ col ∈ p.chart.rowMarks row := by
  rw [mem_choices, hchart.mem_columnMarks, mem_allowedRows]
  constructor
  · rintro ⟨hmark, hrow⟩
    exact ⟨⟨hchart.row_lt hmark, hrow⟩, hmark⟩
  · rintro ⟨⟨-, hrow⟩, hmark⟩
    exact ⟨hmark, hrow⟩

theorem Covers.exists_choice (hchart : p.chart.Consistent) {rows columns : List Nat}
    (h : p.Covers rows columns) {col : Nat} (hcol : col ∈ columns) :
    ∃ row ∈ rows, row ∈ p.choices col := by
  obtain ⟨row, hrow, hmark⟩ := h.2 col hcol
  exact ⟨row, hrow, (mem_choices_iff hchart).2 ⟨h.1 row hrow, hmark⟩⟩

theorem not_covers_of_choices_eq_nil (hchart : p.chart.Consistent) {rows columns : List Nat}
    {col : Nat} (hcol : col ∈ columns) (hnil : p.choices col = []) : ¬ p.Covers rows columns := by
  intro h
  obtain ⟨row, -, hrow⟩ := h.exists_choice hchart hcol
  simp [hnil] at hrow

theorem Covers.cons {row : Nat} {rows columns : List Nat} (hrow : row ∈ p.allowedRows)
    (h : p.Covers rows (p.chart.leftOpen row columns)) : p.Covers (row :: rows) columns := by
  refine ⟨List.forall_mem_cons.2 ⟨hrow, h.1⟩, fun col hcol => ?_⟩
  by_cases hmark : col ∈ p.chart.rowMarks row
  · exact ⟨row, List.mem_cons_self, hmark⟩
  · obtain ⟨r, hr, hr'⟩ := h.2 col (Chart.mem_leftOpen.2 ⟨hcol, hmark⟩)
    exact ⟨r, List.mem_cons_of_mem _ hr, hr'⟩

/-- The other rows of a cover are a cover of the columns that one row leaves open. -/
theorem Covers.erase {rows columns : List Nat} (h : p.Covers rows columns) (row : Nat) :
    p.Covers (rows.erase row) (p.chart.leftOpen row columns) := by
  refine ⟨fun r hr => h.1 r (List.mem_of_mem_erase hr), fun col hcol => ?_⟩
  obtain ⟨hcol, hopen⟩ := Chart.mem_leftOpen.1 hcol
  obtain ⟨r, hr, hmark⟩ := h.2 col hcol
  have hne : r ≠ row := by
    rintro rfl
    exact hopen hmark
  exact ⟨r, (List.mem_erase_of_ne hne).2 hr, hmark⟩

/-! ## Completions -/

/-- The choices of rows that cover the columns, branching on the first column left open. -/
def completions (p : CoverProblem) : List Nat → List (List Nat)
  | [] => [[]]
  | col :: columns => (p.choices col).flatMap fun row =>
    (p.completions (p.chart.leftOpen row columns)).map (row :: ·)
  termination_by columns => columns.length
  decreasing_by
    have := p.chart.length_leftOpen_le row columns
    rw [List.length_cons]
    omega

@[simp] theorem completions_nil (p : CoverProblem) : p.completions [] = [[]] := by
  rw [completions]

theorem completions_cons (p : CoverProblem) (col : Nat) (columns : List Nat) :
    p.completions (col :: columns) = (p.choices col).flatMap fun row =>
      (p.completions (p.chart.leftOpen row columns)).map (row :: ·) := by
  rw [completions]

theorem leftOpen_cons_of_mem {col row : Nat} {columns : List Nat}
    (h : col ∈ p.chart.rowMarks row) :
    p.chart.leftOpen row (col :: columns) = p.chart.leftOpen row columns := by
  simp [Chart.leftOpen, h]

theorem mem_completions_cons {col : Nat} {columns rows : List Nat} :
    rows ∈ p.completions (col :: columns) ↔
      ∃ row ∈ p.choices col, ∃ rest ∈ p.completions (p.chart.leftOpen row columns),
        row :: rest = rows := by
  rw [completions_cons]
  simp only [List.mem_flatMap, List.mem_map]

/-- Every completion is a cover. Induction on the recursion of `completions`. -/
theorem covers_of_mem_completions (hchart : p.chart.Consistent) {columns rows : List Nat}
    (h : rows ∈ p.completions columns) : p.Covers rows columns := by
  induction columns using completions.induct p generalizing rows with
  | case1 =>
    rw [completions_nil, List.mem_singleton] at h
    subst h
    simp [Covers]
  | case2 col columns ih =>
    obtain ⟨row, hrow, rest, hrest, rfl⟩ := mem_completions_cons.1 h
    obtain ⟨hallowed, hmark⟩ := (mem_choices_iff hchart).1 hrow
    apply Covers.cons hallowed
    rw [leftOpen_cons_of_mem hmark]
    exact ih row hrest

theorem productive_of_mem_completions (hchart : p.chart.Consistent) {columns rows : List Nat}
    (h : rows ∈ p.completions columns) : p.chart.Productive columns rows := by
  induction columns using completions.induct p generalizing rows with
  | case1 =>
    rw [completions_nil, List.mem_singleton] at h
    subst h
    trivial
  | case2 col columns ih =>
    obtain ⟨row, hrow, rest, hrest, rfl⟩ := mem_completions_cons.1 h
    have hmark := ((mem_choices_iff hchart).1 hrow).2
    refine ⟨⟨col, List.mem_cons_self, hmark⟩, ?_⟩
    rw [leftOpen_cons_of_mem hmark]
    exact ih row hrest

/--
**No cover beats the completions.** The rows that a cover has for the columns branched on form a
completion, so that some completion is no larger than the cover.
-/
theorem exists_completion_le (hchart : p.chart.Consistent) {columns rows : List Nat}
    (h : p.Covers rows columns) : ∃ c ∈ p.completions columns, c.length ≤ rows.length := by
  induction columns using completions.induct p generalizing rows with
  | case1 => exact ⟨[], by simp, Nat.zero_le _⟩
  | case2 col columns ih =>
    -- the row of the cover for the first column is one of the branches
    obtain ⟨row, hrow, hchoice⟩ := h.exists_choice hchart List.mem_cons_self
    have hmark := ((mem_choices_iff hchart).1 hchoice).2
    have herase := h.erase row
    rw [leftOpen_cons_of_mem hmark] at herase
    obtain ⟨c, hc, hlen⟩ := ih row herase
    refine ⟨row :: c, mem_completions_cons.2 ⟨row, hchoice, c, hc, rfl⟩, ?_⟩
    have hpos : 0 < rows.length := List.length_pos_of_mem hrow
    rw [List.length_erase_of_mem hrow] at hlen
    rw [List.length_cons]
    omega

end TwoLevel.CoverProblem
