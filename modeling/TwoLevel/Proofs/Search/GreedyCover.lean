import Mathlib.Logic.Basic
import TwoLevel.Proofs.Search.Completions
import TwoLevel.Search.Bound

/-!
# What the greedy size stands for

The search uses the greedy size as a limit only. That is safe because the size is attained: the
rows taken one after the other are a cover of that size (`exists_cover_of_greedySize?`). And the
size is missing only if some column has no allowed row (`exists_choices_eq_nil`), since a best row
without gain means that no allowed row marks any open column.
-/

namespace TwoLevel.CoverProblem

variable {p : CoverProblem}

theorem toList_diff_rowMarks (p : CoverProblem) (openColumns : IndexSet) (row : Nat) :
    (openColumns \ p.chart.rowMarks row).toList = p.chart.leftOpen row openColumns.toList := rfl

/-! ## Gains -/

theorem gain_eq_zero_iff {openColumns : IndexSet} {row : Nat} :
    p.gain openColumns row = 0 ↔ ∀ col ∈ openColumns, col ∉ p.chart.rowMarks row := by
  rw [gain, IndexSet.size, List.length_eq_zero_iff, List.eq_nil_iff_forall_not_mem]
  simp only [← IndexSet.mem_def, IndexSet.mem_filter, decide_eq_true_eq, not_and]
  exact ⟨fun h col hcol hmark => h col hmark hcol, fun h col hmark hcol => h col hcol hmark⟩

theorem gain_ne_zero_iff {openColumns : IndexSet} {row : Nat} :
    p.gain openColumns row ≠ 0 ↔ ∃ col ∈ openColumns, col ∈ p.chart.rowMarks row := by
  simp [gain_eq_zero_iff]

/-- A row without gain leaves all columns open, and any other row leaves fewer. -/
theorem size_diff_rowMarks_lt_iff {openColumns : IndexSet} {row : Nat} :
    (openColumns \ p.chart.rowMarks row).size < openColumns.size ↔
      p.gain openColumns row ≠ 0 := by
  rw [gain_ne_zero_iff, IndexSet.size, toList_diff_rowMarks, Chart.leftOpen, IndexSet.size,
    List.length_filter_lt_length_iff_exists]
  simp [IndexSet.mem_def]

theorem mem_allowedRows_of_bestRow? {openColumns : IndexSet} {row : Nat}
    (h : p.bestRow? openColumns = some row) : row ∈ p.allowedRows := List.maxOn?_mem h

theorem gain_le_of_bestRow? {openColumns : IndexSet} {row other : Nat}
    (h : p.bestRow? openColumns = some row) (hother : other ∈ p.allowedRows) :
    p.gain openColumns other ≤ p.gain openColumns row := by
  have hle := List.le_apply_get_maxOn?_of_mem (f := p.gain openColumns) hother
  rw [bestRow?] at h
  simpa only [h, Option.get_some] using hle

theorem bestRow?_eq_none_iff {openColumns : IndexSet} :
    p.bestRow? openColumns = none ↔ p.allowedRows = [] := by
  rw [bestRow?, ← Option.not_isSome_iff_eq_none, List.isSome_maxOn?_iff, not_not]

/-! ## The greedy cover -/

/-- The greedy size is that of a productive cover. Induction on the rounds of the greedy loop. -/
theorem exists_cover_of_greedySize? {openColumns : IndexSet} {size : Nat}
    (h : p.greedySize? openColumns = some size) :
    ∃ rows, rows.length = size ∧ p.Covers rows openColumns.toList ∧
      p.chart.Productive openColumns.toList rows := by
  fun_induction greedySize? p openColumns generalizing size with
  | case1 openColumns hempty =>
    obtain rfl := Option.some.inj h
    rw [IndexSet.isEmpty_iff] at hempty
    subst hempty
    exact ⟨[], rfl, by simp [Covers], trivial⟩
  | case2 openColumns _ hnone => simp at h
  | case3 openColumns _ row hbest hlt ih =>
    obtain ⟨n, hn, rfl⟩ := Option.map_eq_some_iff.1 h
    obtain ⟨rows, hlen, hcovers, hproductive⟩ := ih hn
    rw [toList_diff_rowMarks] at hcovers hproductive
    refine ⟨row :: rows, by rw [List.length_cons, hlen], ?_, ?_, hproductive⟩
    · exact hcovers.cons (mem_allowedRows_of_bestRow? hbest)
    · exact gain_ne_zero_iff.1 (size_diff_rowMarks_lt_iff.1 hlt)
  | case4 openColumns _ row hbest hle => simp at h

theorem exists_choices_eq_nil (hchart : p.chart.Consistent) {openColumns : IndexSet}
    (h : p.greedySize? openColumns = none) : ∃ col ∈ openColumns, p.choices col = [] := by
  fun_induction greedySize? p openColumns with
  | case1 openColumns hempty => simp at h
  | case2 openColumns hopen hnone =>
    rw [bestRow?_eq_none_iff] at hnone
    obtain ⟨col, hcol⟩ := IndexSet.exists_mem_of_not_isEmpty hopen
    refine ⟨col, hcol, List.eq_nil_iff_forall_not_mem.2 fun row hrow => ?_⟩
    have hallowed := ((mem_choices_iff hchart).1 hrow).1
    simp [hnone] at hallowed
  | case3 openColumns _ row hbest hlt ih =>
    obtain ⟨col, hcol, hnil⟩ := ih (Option.map_eq_none_iff.1 h)
    exact ⟨col, (IndexSet.mem_diff.1 hcol).1, hnil⟩
  | case4 openColumns hopen row hbest hle =>
    have hzero : p.gain openColumns row = 0 := not_not.1 (mt size_diff_rowMarks_lt_iff.2 hle)
    obtain ⟨col, hcol⟩ := IndexSet.exists_mem_of_not_isEmpty hopen
    refine ⟨col, hcol, List.eq_nil_iff_forall_not_mem.2 fun other hrow => ?_⟩
    obtain ⟨hallowed, hmark⟩ := (mem_choices_iff hchart).1 hrow
    have hgain := gain_le_of_bestRow? hbest hallowed
    rw [hzero, Nat.le_zero, gain_eq_zero_iff] at hgain
    exact hgain col hcol hmark

end TwoLevel.CoverProblem
