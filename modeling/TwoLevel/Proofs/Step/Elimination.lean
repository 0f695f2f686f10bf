import TwoLevel.Proofs.Chart.Consistency
import TwoLevel.Step

/-!
# What steps eliminate

A step eliminates the minterms of the columns that its row marks and that no row before it marks.
Of the steps of any selections, whatever is covered before the first:

* **`exists_mem_eliminated_iff`** — together they eliminate the minterms of the columns that are
  open at the start and that some selected row marks.
* **`pairwise_eliminated`** — no minterm is eliminated by two of them.
* **`eliminated_ne_nil`** — none of them is idle, provided that the rows are productive.
-/

namespace TwoLevel

/-! ## The minterms of columns

Columns and their minterms are in the same order, so that different columns have different
minterms. -/

namespace Chart

variable {chart : Chart}

theorem minterm?_lt {i j m n : Nat} (hij : i < j) (hm : chart.minterm? i = some m)
    (hn : chart.minterm? j = some n) : m < n := by
  obtain ⟨hi, rfl⟩ := List.getElem?_eq_some_iff.1 hm
  obtain ⟨hj, rfl⟩ := List.getElem?_eq_some_iff.1 hn
  exact List.pairwise_iff_getElem.1 chart.minterms.ascending i j hi hj hij

theorem minterm?_inj {i j n : Nat} (hi : chart.minterm? i = some n)
    (hj : chart.minterm? j = some n) : i = j := by
  rcases Nat.lt_trichotomy i j with hlt | heq | hgt
  · exact absurd (minterm?_lt hlt hi hj) (Nat.lt_irrefl n)
  · exact heq
  · exact absurd (minterm?_lt hgt hj hi) (Nat.lt_irrefl n)

theorem mem_mintermsOf {columns : IndexSet} {n : Nat} :
    n ∈ chart.mintermsOf columns ↔ ∃ col ∈ columns, chart.minterm? col = some n :=
  List.mem_filterMap

theorem pairwise_mintermsOf (chart : Chart) (columns : IndexSet) :
    (chart.mintermsOf columns).Pairwise (· < ·) :=
  columns.ascending.filterMap chart.minterm? fun _ _ hij _ hm _ hn => minterm?_lt hij hm hn

theorem mintermsOf_ne_nil {columns : IndexSet} {col : Nat} (hcol : col ∈ columns)
    (hlt : col < chart.columnCount) : chart.mintermsOf columns ≠ [] :=
  List.ne_nil_of_mem (mem_mintermsOf.2 ⟨col, hcol, List.getElem?_eq_getElem hlt⟩)

end Chart

/-! ## The steps of a selection

All statements are by induction on the selections, for any columns that are covered before: the tail
of a selection starts with the columns that its head has covered. -/

namespace Step

variable {chart : Chart} {covered : IndexSet} {selections : List (Nat × Selection)}

theorem map_selection_traceFrom (chart : Chart) (covered : IndexSet)
    (selections : List (Nat × Selection)) :
    (traceFrom chart covered selections).map (fun s => (s.row, s.selection)) = selections := by
  induction selections generalizing covered with
  | nil => rfl
  | cons x selections ih => rw [traceFrom, List.map_cons, ih]

theorem map_row_traceFrom (chart : Chart) (covered : IndexSet)
    (selections : List (Nat × Selection)) :
    (traceFrom chart covered selections).map (·.row) = selections.map (·.1) := by
  have hrows := congrArg (List.map Prod.fst) (map_selection_traceFrom chart covered selections)
  rw [List.map_map] at hrows
  exact hrows

theorem pairwise_of_mem_traceFrom {s : Step} (h : s ∈ traceFrom chart covered selections) :
    s.eliminated.Pairwise (· < ·) := by
  induction selections generalizing covered with
  | nil => cases h
  | cons x selections ih =>
    rcases List.mem_cons.1 h with rfl | h
    · exact chart.pairwise_mintermsOf _
    · exact ih h

theorem exists_mem_eliminated_iff {n : Nat} :
    (∃ s ∈ traceFrom chart covered selections, n ∈ s.eliminated) ↔
      ∃ col, chart.minterm? col = some n ∧ col ∉ covered ∧
        ∃ row ∈ selections.map (·.1), col ∈ chart.rowMarks row := by
  induction selections generalizing covered with
  | nil => simp [traceFrom]
  | cons x selections ih =>
    obtain ⟨row, selection⟩ := x
    simp only [traceFrom, List.map_cons, List.mem_cons, exists_eq_or_imp, ih, Chart.mem_mintermsOf,
      IndexSet.mem_diff, IndexSet.mem_union, not_or]
    constructor
    · rintro (⟨col, ⟨hmark, hopen⟩, hn⟩ | ⟨col, hn, ⟨hopen, -⟩, hrest⟩)
      · exact ⟨col, hn, hopen, Or.inl hmark⟩
      · exact ⟨col, hn, hopen, Or.inr hrest⟩
    · rintro ⟨col, hn, hopen, hrow⟩
      -- the first row that marks the column is the one that eliminates its minterm
      by_cases hmark : col ∈ chart.rowMarks row
      · exact Or.inl ⟨col, ⟨hmark, hopen⟩, hn⟩
      · exact Or.inr ⟨col, hn, ⟨hopen, hmark⟩, hrow.resolve_left hmark⟩

theorem pairwise_eliminated (chart : Chart) (covered : IndexSet)
    (selections : List (Nat × Selection)) :
    (traceFrom chart covered selections).Pairwise fun s t => ∀ n ∈ s.eliminated, n ∉ t.eliminated
    := by
  induction selections generalizing covered with
  | nil => exact .nil
  | cons x selections ih =>
    refine List.pairwise_cons.2 ⟨fun t ht n hn hmem => ?_, ih _⟩
    obtain ⟨col, hcol, hn⟩ := Chart.mem_mintermsOf.1 hn
    obtain ⟨other, hother, hopen, -⟩ := exists_mem_eliminated_iff.1 ⟨t, ht, hmem⟩
    -- the later step would need a column that the head has left open
    obtain rfl := Chart.minterm?_inj hn hother
    rw [IndexSet.mem_union, not_or] at hopen
    exact hopen.2 (IndexSet.mem_diff.1 hcol).1

theorem eliminated_ne_nil (hchart : chart.Consistent) {columns : List Nat}
    (hrows : chart.Productive columns (selections.map (·.1)))
    (hopen : ∀ col ∈ columns, col ∉ covered) :
    ∀ s ∈ traceFrom chart covered selections, s.eliminated ≠ [] := by
  induction selections generalizing covered columns with
  | nil => exact fun s hs => absurd hs List.not_mem_nil
  | cons x selections ih =>
    obtain ⟨⟨col, hcol, hmark⟩, hrest⟩ := hrows
    refine List.forall_mem_cons.2 ⟨?_, ih hrest fun c hc => ?_⟩
    · exact Chart.mintermsOf_ne_nil (IndexSet.mem_diff.2 ⟨hmark, hopen col hcol⟩)
        (hchart.col_lt hmark)
    · obtain ⟨hc, hleft⟩ := Chart.mem_leftOpen.1 hc
      rw [IndexSet.mem_union, not_or]
      exact ⟨hopen c hc, hleft⟩

end Step

end TwoLevel
