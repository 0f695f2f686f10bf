import TwoLevel.Proofs.Chart.Consistency

/-!
# The two views of a chart

The marks of a chart are read in two ways, by row and by column. Both say which term covers which
minterm, and both are in ascending order (**`describes_ofTerms`**). They are what one walk through
the cells gives, column by column, that enters each mark at the end of its row and at the end of
its column: the cells of the walk are in order, and so is what is kept of them for one row or one
column (`getElem?_byRow_viewsOf`, `getElem?_byColumn_viewsOf`).
-/

namespace TwoLevel.Chart

/-! ## Going through the cells -/

/-- The marks that are entered so far, for each row and for each column. -/
structure Views where
  byRow : Array (List Nat)
  byColumn : Array (List Nat)

/-- Enters the mark of a row and a column. -/
def Views.enter (views : Views) (cell : Nat × Nat) : Views where
  byRow := views.byRow.modify cell.1 (· ++ [cell.2])
  byColumn := views.byColumn.modify cell.2 (· ++ [cell.1])

/-- The row and the column of each mark, column by column and from the first row on. -/
def markedCells (terms : List Term) (minterms : List Nat) : List (Nat × Nat) :=
  minterms.zipIdx.flatMap fun (m, col) =>
    (terms.zipIdx.filter fun (t, _) => t.covers m).map fun (_, row) => (row, col)

/-- What is entered in the walk through all cells. -/
def viewsOf (terms : List Term) (minterms : List Nat) : Views :=
  (markedCells terms minterms).foldl Views.enter
    ⟨.replicate terms.length [], .replicate minterms.length []⟩

/-- The order of the walk. -/
def Precedes (x y : Nat × Nat) : Prop := x.2 < y.2 ∨ x.2 = y.2 ∧ x.1 < y.1

variable {terms : List Term} {minterms : List Nat}

theorem mem_markedCells {row col : Nat} :
    (row, col) ∈ markedCells terms minterms ↔
      ∃ t m, terms[row]? = some t ∧ minterms[col]? = some m ∧ m ∈ t.covered := by
  simp only [markedCells, List.mem_flatMap, List.mem_map, List.mem_filter, Prod.exists,
    List.mem_zipIdx_iff_getElem?, Prod.mk.injEq, Term.covers, decide_eq_true_eq]
  constructor
  · rintro ⟨m, _, hm, t, _, ⟨ht, hcov⟩, rfl, rfl⟩
    exact ⟨t, m, ht, hm, hcov⟩
  · rintro ⟨t, m, ht, hm, hcov⟩
    exact ⟨m, col, hm, t, row, ⟨ht, hcov⟩, rfl, rfl⟩

theorem pairwise_markedCells (terms : List Term) (minterms : List Nat) :
    (markedCells terms minterms).Pairwise Precedes := by
  refine List.pairwise_flatMap.2 ⟨fun x _ => ?_, ?_⟩
  · -- the cells of one column, from the first row on
    refine List.pairwise_map.2 (((pairwise_zipIdx terms).filter _).imp fun hlt => ?_)
    exact .inr ⟨rfl, hlt⟩
  · refine (pairwise_zipIdx minterms).imp fun hlt a ha b hb => ?_
    obtain ⟨_, -, rfl⟩ := List.mem_map.1 ha
    obtain ⟨_, -, rfl⟩ := List.mem_map.1 hb
    exact .inl hlt

/-! ## What is entered

A view sorts the cells of the walk by one of their numbers and keeps the other one. -/

section

variable {key value : Nat × Nat → Nat}

/-- Each list keeps the cells with its key, in the order of the walk. Induction on the cells. -/
theorem getElem?_foldl_modify_append (cells : List (Nat × Nat)) (lists : Array (List Nat))
    (i : Nat) :
    (cells.foldl (fun lists cell => lists.modify (key cell) (· ++ [value cell])) lists)[i]? =
      lists[i]?.map (· ++ (cells.filter (key · = i)).map value) := by
  induction cells generalizing lists with
  | nil => simp
  | cons cell cells ih =>
    rw [List.foldl_cons, ih, Array.getElem?_modify]
    by_cases h : key cell = i <;> simp [h, Function.comp_def]

/-- What is kept ascends if, of two cells with the same key, the second has the greater value. -/
theorem pairwise_map_filter (hkey : ∀ x y, Precedes x y → key x = key y → value x < value y)
    (i : Nat) :
    (((markedCells terms minterms).filter (key · = i)).map value).Pairwise (· < ·) := by
  rw [List.pairwise_map, List.pairwise_filter]
  refine (pairwise_markedCells terms minterms).imp fun {x y} hprecedes hx hy => ?_
  rw [decide_eq_true_eq] at hx hy
  exact hkey x y hprecedes (hx.trans hy.symm)

end

theorem byRow_foldl_enter (cells : List (Nat × Nat)) (views : Views) :
    (cells.foldl Views.enter views).byRow =
      cells.foldl (fun lists cell => lists.modify cell.1 (· ++ [cell.2])) views.byRow :=
  (List.foldl_hom Views.byRow fun _ _ => rfl).symm

theorem byColumn_foldl_enter (cells : List (Nat × Nat)) (views : Views) :
    (cells.foldl Views.enter views).byColumn =
      cells.foldl (fun lists cell => lists.modify cell.2 (· ++ [cell.1])) views.byColumn :=
  (List.foldl_hom Views.byColumn fun _ _ => rfl).symm

theorem getElem?_byRow_viewsOf {row : Nat} (h : row < terms.length) :
    (viewsOf terms minterms).byRow[row]? =
      some (((markedCells terms minterms).filter (·.1 = row)).map (·.2)) := by
  rw [viewsOf, byRow_foldl_enter, getElem?_foldl_modify_append]
  simp [h]

theorem getElem?_byColumn_viewsOf {col : Nat} (h : col < minterms.length) :
    (viewsOf terms minterms).byColumn[col]? =
      some (((markedCells terms minterms).filter (·.2 = col)).map (·.1)) := by
  rw [viewsOf, byColumn_foldl_enter, getElem?_foldl_modify_append]
  simp [h]

theorem pairwise_columns_markedCells (row : Nat) :
    (((markedCells terms minterms).filter (·.1 = row)).map (·.2)).Pairwise (· < ·) :=
  pairwise_map_filter (fun x y h hrow => by unfold Precedes at h; omega) row

theorem pairwise_rows_markedCells (col : Nat) :
    (((markedCells terms minterms).filter (·.2 = col)).map (·.1)).Pairwise (· < ·) :=
  pairwise_map_filter (fun x y h hcol => by unfold Precedes at h; omega) col

/-! ## The marks of a chart -/

/-- An ascending list with the members of a set is the list of its members. -/
theorem eq_toList_of_pairwise {xs : List Nat} {s : IndexSet} (h : xs.Pairwise (· < ·))
    (hmem : ∀ n, n ∈ xs ↔ n ∈ s) : xs = s.toList :=
  congrArg IndexSet.toList (IndexSet.ext (s := ⟨xs, h⟩) hmem)

variable {required : List Nat}

theorem mem_markedCells_iff {row col : Nat} :
    (row, col) ∈ markedCells terms (ofTerms terms required).minterms.toList ↔
      col ∈ (ofTerms terms required).rowMarks row := by
  rw [mem_markedCells, mem_rowMarks_ofTerms]
  simp [term?, minterm?, ofTerms]

/-- The marks of a row are those that the walk enters for it. -/
theorem byRow_viewsOf {row : Nat} (h : row < terms.length) :
    (viewsOf terms (ofTerms terms required).minterms.toList).byRow[row]? =
      some ((ofTerms terms required).rowMarks row).toList := by
  rw [getElem?_byRow_viewsOf h]
  refine congrArg some (eq_toList_of_pairwise (pairwise_columns_markedCells row) fun col => ?_)
  rw [← mem_markedCells_iff]
  simp

/-- The marks of a column are those that the walk enters for it. -/
theorem byColumn_viewsOf {col : Nat} (h : col < (ofTerms terms required).columnCount) :
    (viewsOf terms (ofTerms terms required).minterms.toList).byColumn[col]? =
      some ((ofTerms terms required).columnMarks col).toList := by
  rw [getElem?_byColumn_viewsOf h]
  refine congrArg some (eq_toList_of_pairwise (pairwise_rows_markedCells col) fun row => ?_)
  rw [mem_columnMarks_ofTerms, ← mem_markedCells_iff]
  simp

theorem usage_eq_countP {chart : Chart} (hchart : chart.Consistent) (col : Nat) :
    chart.usage col = (List.range chart.rowCount).countP (chart.isMarked · col) := by
  have hmarks : chart.columnMarks col =
      (IndexSet.range chart.rowCount).filter (chart.isMarked · col) := by
    ext row
    rw [hchart.mem_columnMarks, IndexSet.mem_filter, IndexSet.mem_range, isMarked_iff]
    exact ⟨fun h => ⟨hchart.row_lt h, h⟩, And.right⟩
  rw [usage, hmarks, List.countP_eq_length_filter]
  rfl

/--
The chart shows which of the terms cover which of the minterms, by row and by column. A cell is a
row and a column with their term and their minterm.
-/
structure Describes (chart : Chart) (terms : List Term) (required : List Nat) : Prop where
  term?_eq : ∀ row, chart.term? row = terms[row]?
  ascending : chart.minterms.toList.Pairwise (· < ·)
  mem_minterms : ∀ m, m ∈ chart.minterms.toList ↔ m ∈ required
  isMarked_iff : ∀ row t col m, chart.term? row = some t → chart.minterm? col = some m →
    (chart.isMarked row col = true ↔ m ∈ t.covered)
  mem_columnMarks_iff : ∀ row t col m, chart.term? row = some t → chart.minterm? col = some m →
    (row ∈ (chart.columnMarks col).toList ↔ m ∈ t.covered)
  mem_rowMarks_iff : ∀ row t col m, chart.term? row = some t → chart.minterm? col = some m →
    (col ∈ (chart.rowMarks row).toList ↔ m ∈ t.covered)
  /-- What the walk through the cells enters, each time at the end. -/
  byRow_eq : ∀ row < chart.rowCount,
    (viewsOf terms chart.minterms.toList).byRow[row]? = some (chart.rowMarks row).toList
  byColumn_eq : ∀ col < chart.columnCount,
    (viewsOf terms chart.minterms.toList).byColumn[col]? = some (chart.columnMarks col).toList
  pairwise_rowMarks : ∀ row, (chart.rowMarks row).toList.Pairwise (· < ·)
  pairwise_columnMarks : ∀ col, (chart.columnMarks col).toList.Pairwise (· < ·)
  usage_eq : ∀ col, chart.usage col = (List.range chart.rowCount).countP (chart.isMarked · col)

/-- **The two views of a chart agree**, for any terms and any list of minterms. -/
theorem describes_ofTerms (terms : List Term) (required : List Nat) :
    (ofTerms terms required).Describes terms required := by
  have hconsistent := consistent_ofTerms terms required
  have hmark : ∀ row t col m, (ofTerms terms required).term? row = some t →
      (ofTerms terms required).minterm? col = some m →
      (col ∈ (ofTerms terms required).rowMarks row ↔ m ∈ t.covered) := by
    intro row t col m ht hm
    rw [mem_rowMarks_ofTerms, ht, hm]
    simp
  constructor
  case term?_eq => exact fun row => List.getElem?_toArray
  case ascending => exact IndexSet.ascending _
  case mem_minterms => exact fun m => IndexSet.mem_ofList
  case isMarked_iff =>
    intro row t col m ht hm
    rw [isMarked_iff, hmark row t col m ht hm]
  case mem_columnMarks_iff =>
    intro row t col m ht hm
    rw [← IndexSet.mem_def, hconsistent.mem_columnMarks, hmark row t col m ht hm]
  case mem_rowMarks_iff => exact hmark
  case byRow_eq => exact fun row hrow => byRow_viewsOf hrow
  case byColumn_eq => exact fun col hcol => byColumn_viewsOf hcol
  case pairwise_rowMarks => exact fun row => IndexSet.ascending _
  case pairwise_columnMarks => exact fun col => IndexSet.ascending _
  case usage_eq => exact fun col => usage_eq_countP hconsistent col

end TwoLevel.Chart
