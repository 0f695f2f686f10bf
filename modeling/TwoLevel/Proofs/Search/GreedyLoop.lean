import Mathlib.Data.List.Dedup
import TwoLevel.Proofs.Search.Smallest

/-!
# The greedy loop

`CoverProblem.GreedyRun` is the greedy loop as it goes round by round: the row with the greatest
gain is taken, and the loop gives up when there is no row or the best one gains nothing. Nothing in
it says that it ends. It does, since a row that gains something leaves fewer columns open, and so
it comes to the greedy size and to nothing else (**`greedyRun_iff`**).

**`greedySize?_exact`** says what that size is worth: it is missing exactly if some column can not
be covered, and it is otherwise the size of a set of rows that covers the columns.
-/

namespace TwoLevel

theorem IndexSet.size_ofList (ns : List Nat) : (IndexSet.ofList ns).size = ns.dedup.length := by
  apply List.Perm.length_eq
  rw [List.perm_ext_iff_of_nodup (IndexSet.ofList ns).nodup_toList ns.nodup_dedup]
  intro n
  rw [← IndexSet.mem_def, IndexSet.mem_ofList, List.mem_dedup]

namespace CoverProblem

variable {p : CoverProblem}

/-! ## Rounds -/

/--
The greedy loop on some open columns, and what it comes to: no size if there is no allowed row or
the best one gains nothing, and otherwise the number of rows taken until no column is open.
-/
inductive GreedyRun (p : CoverProblem) : IndexSet → Option Nat → Prop where
  | done {openColumns : IndexSet} (h : openColumns.isEmpty = true) :
      GreedyRun p openColumns (some 0)
  | noRow {openColumns : IndexSet} (h : openColumns.isEmpty = false)
      (hbest : p.bestRow? openColumns = none) : GreedyRun p openColumns none
  | noGain {openColumns : IndexSet} {row : Nat} (h : openColumns.isEmpty = false)
      (hbest : p.bestRow? openColumns = some row) (hgain : p.gain openColumns row = 0) :
      GreedyRun p openColumns none
  | round {openColumns : IndexSet} {row : Nat} {size? : Option Nat}
      (h : openColumns.isEmpty = false) (hbest : p.bestRow? openColumns = some row)
      (hgain : p.gain openColumns row ≠ 0)
      (hrest : GreedyRun p (openColumns \ p.chart.rowMarks row) size?) :
      GreedyRun p openColumns (size?.map (· + 1))

/-- The loop ends. Induction on the rounds, each of which leaves fewer columns open. -/
theorem greedyRun_greedySize? (p : CoverProblem) (openColumns : IndexSet) :
    p.GreedyRun openColumns (p.greedySize? openColumns) := by
  fun_induction greedySize? p openColumns with
  | case1 openColumns hempty => exact .done hempty
  | case2 openColumns hopen hnone => exact .noRow (Bool.eq_false_iff.2 hopen) hnone
  | case3 openColumns hopen row hbest hlt ih =>
    exact .round (Bool.eq_false_iff.2 hopen) hbest (size_diff_rowMarks_lt_iff.1 hlt) ih
  | case4 openColumns hopen row hbest hle =>
    -- the guard of the recursion fails exactly where the loop finds no gain
    have hgain : p.gain openColumns row = 0 := not_not.1 (mt size_diff_rowMarks_lt_iff.2 hle)
    exact .noGain (Bool.eq_false_iff.2 hopen) hbest hgain

theorem GreedyRun.eq_greedySize? {openColumns : IndexSet} {size? : Option Nat}
    (h : p.GreedyRun openColumns size?) : size? = p.greedySize? openColumns := by
  induction h with
  | done hempty => rw [greedySize?, if_pos hempty]
  | noRow hopen hbest => rw [greedySize?, hopen, hbest]; rfl
  | @noGain openColumns row hopen hbest hgain =>
    have hle : ¬ (openColumns \ p.chart.rowMarks row).size < openColumns.size :=
      fun hlt => size_diff_rowMarks_lt_iff.1 hlt hgain
    rw [greedySize?, hopen, hbest]
    simp [hle]
  | @round openColumns row size? hopen hbest hgain _ ih =>
    rw [greedySize?, hopen, hbest, ih]
    simp [size_diff_rowMarks_lt_iff.2 hgain]

/-- **The greedy loop comes to the greedy size and to nothing else.** -/
theorem greedyRun_iff {openColumns : IndexSet} {size? : Option Nat} :
    p.GreedyRun openColumns size? ↔ size? = p.greedySize? openColumns :=
  ⟨fun h => h.eq_greedySize?, fun h => h ▸ p.greedyRun_greedySize? openColumns⟩

/-! ## The greedy size -/

theorem greedySize?_eq_none_iff (hchart : p.chart.Consistent) {openColumns : IndexSet} :
    p.greedySize? openColumns = none ↔ ∃ col ∈ openColumns, p.choices col = [] := by
  refine ⟨exists_choices_eq_nil hchart, ?_⟩
  rintro ⟨col, hcol, hnil⟩
  cases hgreedy : p.greedySize? openColumns with
  | none => rfl
  | some size =>
    obtain ⟨rows, -, hcovers, -⟩ := exists_cover_of_greedySize? hgreedy
    exact absurd hcovers (not_covers_of_choices_eq_nil hchart hcol hnil)

end CoverProblem

namespace Chart

/-- Rows that may be used, together marking all of the columns. -/
structure CoveredBy (chart : Chart) (excluded : IndexSet) (columns : List Nat) (rows : IndexSet) :
    Prop where
  lt_rowCount : ∀ row ∈ rows, row < chart.rowCount
  not_excluded : ∀ row ∈ rows, row ∉ excluded
  marks : ∀ col ∈ columns, ∃ row ∈ rows, chart.isMarked row col = true

/--
**The greedy size is attained.** The greedy loop comes to an end, without a size exactly if some
column is marked by excluded rows at most. A size that it comes to is that of a set of rows that
covers the columns, and there are as many different columns at least.
-/
theorem greedySize?_exact (terms : List Term) (required : List Nat) (excluded covered : IndexSet)
    (columns : List Nat) :
    let p := CoverProblem.ofChart (ofTerms terms required) excluded covered
    (∀ size?, p.GreedyRun (.ofList columns) size? ↔ size? = p.greedySize? (.ofList columns)) ∧
    (p.greedySize? (.ofList columns) = none ↔
      ∃ col ∈ columns, ∀ row, (ofTerms terms required).isMarked row col = true → row ∈ excluded) ∧
    ∀ size, p.greedySize? (.ofList columns) = some size →
      size ≤ columns.dedup.length ∧
      ∃ rows : IndexSet, rows.size = size ∧
        (ofTerms terms required).CoveredBy excluded columns rows := by
  intro p
  have hchart : p.chart.Consistent := consistent_ofTerms terms required
  refine ⟨fun _ => CoverProblem.greedyRun_iff, ?_, fun size hsize => ?_⟩
  · rw [CoverProblem.greedySize?_eq_none_iff hchart]
    simp only [IndexSet.mem_ofList, p,
      choices_ofChart_eq_nil_iff (consistent_ofTerms terms required)]
  · obtain ⟨rows, hlength, ⟨hallowed, hmarks⟩, hproductive⟩ :=
      CoverProblem.exists_cover_of_greedySize? hsize
    have hdedup : rows.dedup = rows := List.dedup_eq_self.2 hproductive.nodup
    refine ⟨?_, .ofList rows, ?_, ?_⟩
    · rw [← hlength, ← IndexSet.size_ofList]
      exact hproductive.length_le
    · rw [IndexSet.size_ofList, hdedup, hlength]
    · constructor
      · intro row hrow
        exact (CoverProblem.mem_allowedRows.1 (hallowed row (IndexSet.mem_ofList.1 hrow))).1
      · intro row hrow
        exact (CoverProblem.mem_allowedRows.1 (hallowed row (IndexSet.mem_ofList.1 hrow))).2
      · intro col hcol
        obtain ⟨row, hrow, hmark⟩ := hmarks col (IndexSet.mem_ofList.2 hcol)
        exact ⟨row, IndexSet.mem_ofList.2 hrow, isMarked_iff.2 hmark⟩

end Chart

end TwoLevel
