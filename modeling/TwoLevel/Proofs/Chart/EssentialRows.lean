import Mathlib.Data.List.Perm.Subperm
import TwoLevel.Chart.Essentials
import TwoLevel.Proofs.Search.Smallest

/-!
# Essential rows first

Every choice of rows that marks all columns holds the essential rows (`mem_of_mem_essentials`), and
no other row is in all of them, for without a row that is not essential the others still mark
everything. So the essential rows are the ones that can not be avoided (**`essentials_exact`**).

Nothing is lost by taking them first and searching for the columns that they leave: the search
gives rows whenever every column has one at all (`exists_minimalCover?_essentials`), and the
essential rows with these are as few as can be (**`size_essentials_add_length_le`**). This is as
many as a search over the whole chart gives (**`minimalCover?_essentials_add`**). Each of them marks
a column that none before it marks (`productive_essentials_append`).
-/

namespace TwoLevel.Chart

variable {chart : Chart} {rows : List Nat}

/-- Do the rows together mark every column? -/
def MarkedBy (chart : Chart) (rows : List Nat) : Prop :=
  ∀ col < chart.columnCount, ∃ row ∈ rows, chart.isMarked row col = true

theorem mem_of_mem_essentials (hchart : chart.Consistent) (hrows : chart.MarkedBy rows) {row : Nat}
    (h : row ∈ chart.essentials.rows) : row ∈ rows := by
  obtain ⟨col, hcol, hsole⟩ := mem_rows_essentials.1 h
  obtain ⟨r, hr, hmark⟩ := hrows col hcol
  rw [isMarked_iff, ← hchart.mem_columnMarks, hsole, IndexSet.mem_singleton] at hmark
  rwa [← hmark]

/-! ## The unavoidable rows

If a column has a mark at all, and no row but a certain one marks it, then this row is the only one
that does. So all rows but one that is not essential still mark every column. Where some column has
no mark this fails: no rows mark every column then, and each row is trivially in all that do. -/

theorem markedBy_filter_ne (hchart : chart.Consistent)
    (hmarked : ∀ col < chart.columnCount, ∃ row, chart.isMarked row col = true) {row : Nat}
    (h : row ∉ chart.essentials.rows) :
    chart.MarkedBy ((List.range chart.rowCount).filter (· ≠ row)) := by
  intro col hcol
  by_contra hnone
  have hsole : ∀ r, chart.isMarked r col = true → r = row := by
    intro r hmark
    by_contra hne
    have hlt : r < chart.rowCount := hchart.row_lt (isMarked_iff.1 hmark)
    exact hnone ⟨r, List.mem_filter.2 ⟨List.mem_range.2 hlt, decide_eq_true hne⟩, hmark⟩
  obtain ⟨other, hother⟩ := hmarked col hcol
  rw [hsole other hother] at hother
  refine h (mem_rows_essentials.2 ⟨col, hcol, ?_⟩)
  ext r
  rw [hchart.mem_columnMarks, ← isMarked_iff, IndexSet.mem_singleton]
  exact ⟨hsole r, fun heq => heq ▸ hother⟩

theorem mem_essentials_iff_forall_markedBy (hchart : chart.Consistent)
    (hmarked : ∀ col < chart.columnCount, ∃ row, chart.isMarked row col = true) {row : Nat} :
    row ∈ chart.essentials.rows ↔
      ∀ rows : List Nat, (∀ r ∈ rows, r < chart.rowCount) → chart.MarkedBy rows → row ∈ rows := by
  refine ⟨fun h rows _ hrows => mem_of_mem_essentials hchart hrows h, fun hall => ?_⟩
  by_contra h
  have hmem := hall _ (fun r hr => List.mem_range.1 (List.mem_filter.1 hr).1)
    (markedBy_filter_ne hchart hmarked h)
  simp at hmem

/-! ## The rest of a cover -/

theorem exists_minimalCover? (hchart : chart.Consistent) {excluded covered : IndexSet}
    (h : ∀ col < chart.columnCount, col ∉ covered →
      ∃ row, chart.isMarked row col = true ∧ row ∉ excluded) :
    ∃ rows, chart.minimalCover? excluded covered = some rows := by
  rw [← Option.ne_none_iff_exists', Ne, minimalCover?_eq_none_iff hchart]
  rintro ⟨col, hcol, hopen, hall⟩
  obtain ⟨row, hmark, hallowed⟩ := h col hcol hopen
  exact hallowed (hall row hmark)

theorem exists_minimalCover?_essentials (hchart : chart.Consistent)
    (hmarked : ∀ col < chart.columnCount, ∃ row, chart.isMarked row col = true) :
    ∃ selected,
      chart.minimalCover? chart.essentials.rows chart.essentials.covered = some selected := by
  apply exists_minimalCover? hchart
  intro col hcol hopen
  obtain ⟨row, hmark⟩ := hmarked col hcol
  refine ⟨row, hmark, fun hess => ?_⟩
  exact hopen (mem_covered_essentials.2 ⟨row, hess, isMarked_iff.1 hmark⟩)

theorem markedBy_essentials_append (hchart : chart.Consistent) {selected : List Nat}
    (h : chart.minimalCover? chart.essentials.rows chart.essentials.covered = some selected) :
    chart.MarkedBy (chart.essentials.rows.toList ++ selected) := by
  intro col hcol
  by_cases hcovered : col ∈ chart.essentials.covered
  · obtain ⟨row, hrow, hmark⟩ := mem_covered_essentials.1 hcovered
    exact ⟨row, List.mem_append_left _ hrow, isMarked_iff.2 hmark⟩
  · obtain ⟨row, hrow, hmark⟩ :=
      (smallestCompletion_of_minimalCover? hchart h).marks col hcol hcovered
    exact ⟨row, List.mem_append_right _ hrow, hmark⟩

/-! ## No row is idle

An essential row marks a column that no other row marks, in whatever order the rows are taken. What
the search adds is productive on the columns that the essential rows leave open. -/

theorem productive_of_sole (hchart : chart.Consistent) {columns : List Nat} (hnodup : rows.Nodup)
    (hsole : ∀ row ∈ rows, ∃ col ∈ columns, chart.columnMarks col = {row}) :
    chart.Productive columns rows := by
  induction rows generalizing columns with
  | nil => trivial
  | cons row rows ih =>
    obtain ⟨hnew, hnodup⟩ := List.nodup_cons.1 hnodup
    obtain ⟨⟨col, hcol, hmarks⟩, hsole⟩ := List.forall_mem_cons.1 hsole
    have hmark : col ∈ chart.rowMarks row := by
      rw [← hchart.mem_columnMarks, hmarks, IndexSet.mem_singleton]
    refine ⟨⟨col, hcol, hmark⟩, ih hnodup fun other hother => ?_⟩
    obtain ⟨c, hc, hmarks⟩ := hsole other hother
    refine ⟨c, mem_leftOpen.2 ⟨hc, fun hrow => ?_⟩, hmarks⟩
    rw [← hchart.mem_columnMarks, hmarks, IndexSet.mem_singleton] at hrow
    exact hnew (hrow ▸ hother)

theorem productive_essentials_append (hchart : chart.Consistent) {selected : List Nat}
    (h : chart.minimalCover? chart.essentials.rows chart.essentials.covered = some selected) :
    chart.Productive (List.range chart.columnCount)
      (chart.essentials.rows.toList ++ selected) := by
  have hessentials : chart.Productive (List.range chart.columnCount)
      chart.essentials.rows.toList := by
    refine productive_of_sole hchart chart.essentials.rows.nodup_toList ?_
    intro row hrow
    obtain ⟨col, hcol, hmarks⟩ := mem_rows_essentials.1 hrow
    exact ⟨col, List.mem_range.2 hcol, hmarks⟩
  refine hessentials.append (productive_of_minimalCover? hchart h) fun col hcol => ?_
  obtain ⟨hlt, hopen⟩ := mem_columns_ofChart.1 hcol
  exact ⟨List.mem_range.2 hlt, fun row hrow hmark =>
    hopen (mem_covered_essentials.2 ⟨row, hrow, hmark⟩)⟩

/-! ## No rows are fewer -/

/--
**Taking the essential rows first loses nothing.** Any rows that mark all columns are at least as
many: they hold the essential rows, and the others among them mark what is left.
-/
theorem size_essentials_add_length_le (hchart : chart.Consistent) {selected : List Nat}
    (h : chart.minimalCover? chart.essentials.rows chart.essentials.covered = some selected)
    (hrows : chart.MarkedBy rows) :
    chart.essentials.rows.size + selected.length ≤ rows.length := by
  have hessential : chart.essentials.rows.size ≤
      (rows.filter (· ∈ chart.essentials.rows)).length := by
    apply List.Subperm.length_le
    apply List.Nodup.subperm chart.essentials.rows.nodup_toList
    intro row hrow
    exact List.mem_filter.2 ⟨mem_of_mem_essentials hchart hrows hrow, decide_eq_true hrow⟩
  -- the other rows mark what the essential rows leave open, as the selected ones do
  have hselected : selected.length ≤ (rows.filter (· ∉ chart.essentials.rows)).length := by
    apply (smallestCompletion_of_minimalCover? hchart h).length_le
    · intro row hrow
      simpa using (List.mem_filter.1 hrow).2
    · intro col hcol hopen
      obtain ⟨row, hrow, hmark⟩ := hrows col hcol
      have hnot : row ∉ chart.essentials.rows := fun hess =>
        hopen (mem_covered_essentials.2 ⟨row, hess, isMarked_iff.1 hmark⟩)
      exact ⟨row, List.mem_filter.2 ⟨hrow, decide_eq_true hnot⟩, hmark⟩
  have hsplit := rows.length_eq_length_filter_add (· ∈ chart.essentials.rows)
  simp only [← decide_not] at hsplit
  omega

/-! ## The main results -/

/--
**The essential rows are the unavoidable ones.** If every column of a chart has a mark, a row is
essential exactly if all rows that together mark every column have it among them. The essential rows
are in order, and their columns are those that at least one of them marks.
-/
theorem essentials_exact (terms : List Term) (required : List Nat)
    (hmarked : ∀ col < (ofTerms terms required).columnCount,
      ∃ row, (ofTerms terms required).isMarked row col = true) :
    (∀ row, row ∈ (ofTerms terms required).essentials.rows ↔
      ∀ rows : List Nat, (∀ r ∈ rows, r < (ofTerms terms required).rowCount) →
        (ofTerms terms required).MarkedBy rows → row ∈ rows) ∧
    (ofTerms terms required).essentials.rows.toList.Pairwise (· < ·) ∧
    ∀ col, col ∈ (ofTerms terms required).essentials.covered ↔
      ∃ row ∈ (ofTerms terms required).essentials.rows,
        (ofTerms terms required).isMarked row col = true := by
  refine ⟨fun row => mem_essentials_iff_forall_markedBy (consistent_ofTerms terms required) hmarked,
    (ofTerms terms required).essentials.rows.ascending, fun col => ?_⟩
  simp only [mem_covered_essentials, isMarked_iff]

/-- Four rows in a cycle around the minterms 0 to 3, the only row of 7, and one without a mark. -/
def mixed : Chart :=
  ofTerms
    [.ofCube [.free, .zero, .zero], .ofCube [.one, .free, .zero], .ofCube [.free, .one, .zero],
      .ofCube [.zero, .free, .zero], .ofCube [.one, .one, .one], .ofCube [.free, .zero, .one]]
    [7, 0, 1, 2, 3, 0]

theorem exists_isMarked_mixed :
    ∀ col < mixed.columnCount, ∃ row, mixed.isMarked row col = true := by
  have hmarked : ∀ col < mixed.columnCount, ∃ row < 6, mixed.isMarked row col = true := by
    decide +kernel
  exact fun col hcol => (hmarked col hcol).imp fun _ => And.right

theorem essentials_mixed : mixed.essentials = ⟨{4}, {4}⟩ := by decide +kernel

theorem essentials_exact_mixed :
    (∀ col < mixed.columnCount, ∃ row, mixed.isMarked row col = true) ∧
    ∀ row, row = 4 ↔ ∀ rows : List Nat, (∀ r ∈ rows, r < mixed.rowCount) →
      mixed.MarkedBy rows → row ∈ rows := by
  refine ⟨exists_isMarked_mixed, fun row => ?_⟩
  have hmem : row ∈ mixed.essentials.rows ↔ row = 4 := by
    rw [essentials_mixed, IndexSet.mem_singleton]
  exact hmem.symm.trans ((essentials_exact _ _ exists_isMarked_mixed).1 row)

/--
**A search after the essential rows is as good as one over the whole chart.** If every column has a
mark, both find rows, and the essential rows with those of the first are as many as those of the
second.
-/
theorem minimalCover?_essentials_add (terms : List Term) (required : List Nat)
    (hmarked : ∀ col < (ofTerms terms required).columnCount,
      ∃ row, (ofTerms terms required).isMarked row col = true) :
    ∃ selected smallest,
      (ofTerms terms required).minimalCover? (ofTerms terms required).essentials.rows
        (ofTerms terms required).essentials.covered = some selected ∧
      (ofTerms terms required).minimalCover? ∅ ∅ = some smallest ∧
      selected.length + (ofTerms terms required).essentials.rows.size = smallest.length := by
  have hchart := consistent_ofTerms terms required
  obtain ⟨selected, hselected⟩ := exists_minimalCover?_essentials hchart hmarked
  have hsearch : ∃ rows, (ofTerms terms required).minimalCover? ∅ ∅ = some rows :=
    exists_minimalCover? hchart fun col hcol _ =>
      (hmarked col hcol).imp fun row hmark => ⟨hmark, IndexSet.not_mem_empty row⟩
  obtain ⟨smallest, hsmallest⟩ := hsearch
  refine ⟨selected, smallest, hselected, hsmallest, ?_⟩
  have hwhole := smallestCompletion_of_minimalCover? hchart hsmallest
  -- what is found first, with the essential rows, marks every column
  have hle : smallest.length ≤
      ((ofTerms terms required).essentials.rows.toList ++ selected).length :=
    hwhole.length_le _ (fun row _ => IndexSet.not_mem_empty row)
      fun col hcol _ => markedBy_essentials_append hchart hselected col hcol
  have hge : (ofTerms terms required).essentials.rows.size + selected.length ≤ smallest.length :=
    size_essentials_add_length_le hchart hselected
      fun col hcol => hwhole.marks col hcol (IndexSet.not_mem_empty col)
  rw [List.length_append] at hle
  show selected.length + (ofTerms terms required).essentials.rows.toList.length = _
  rw [IndexSet.size] at hge
  omega

theorem minimalCover?_essentials_add_mixed :
    (∀ col < mixed.columnCount, ∃ row, mixed.isMarked row col = true) ∧
    ∃ selected smallest, mixed.minimalCover? {4} {4} = some selected ∧
      mixed.minimalCover? ∅ ∅ = some smallest ∧ selected.length + 1 = smallest.length := by
  obtain ⟨selected, smallest, hselected, hsmallest, hlength⟩ :=
    minimalCover?_essentials_add _ _ exists_isMarked_mixed
  change mixed.minimalCover? mixed.essentials.rows mixed.essentials.covered = _ at hselected
  change selected.length + mixed.essentials.rows.size = _ at hlength
  rw [essentials_mixed] at hselected hlength
  exact ⟨exists_isMarked_mixed, selected, smallest, hselected, hsmallest, hlength⟩

end TwoLevel.Chart
