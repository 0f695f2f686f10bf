import Mathlib.Data.List.Count
import Mathlib.Data.List.Induction
import TwoLevel.Proofs.Search.Completions
import TwoLevel.Search

/-!
# The lower bound is admissible

`CoverProblem.lowerBound?` goes through the open columns once and counts. `gain_tally` says what
its counters hold after some columns, and two arguments on them give the bound:

* **`isolated_le_length`** — an isolated column has no allowed row that occurred before it. So
  every isolated column makes a cover longer by a row that was of no use until then.
* **`length_le_mul_of_marks`** — rows that mark at most `n` of the columns each can not mark more
  than `n` columns a row.

Hence the bound is never greater than the size of a cover (`le_length_of_lowerBound?`), and it is
missing only where there is no cover at all (`lowerBound?_eq_none_iff`).
-/

namespace TwoLevel

/-! ## The counters -/

namespace Tally

/-- The number of the columns seen that a row may be used for. -/
def gain (t : Tally) (row : Nat) : Nat := t.gains[row]?.getD 0

@[simp] theorem gain_empty (rowCount row : Nat) : (empty rowCount).gain row = 0 := by
  simp only [gain, empty, Array.getElem?_replicate]
  split <;> rfl

theorem gain_add {t : Tally} {rows : List Nat} {row : Nat} (hnodup : rows.Nodup)
    (hrow : row < t.gains.size) :
    (t.add rows).gain row = t.gain row + if row ∈ rows then 1 else 0 := by
  simp only [gain, add]
  rw [getElem?_foldl_modify hnodup, Array.getElem?_eq_getElem hrow]
  split <;> simp

@[simp] theorem size_gains_add (t : Tally) (rows : List Nat) :
    (t.add rows).gains.size = t.gains.size :=
  size_foldl_modify t.gains (· + 1) rows

theorem isolated_add (t : Tally) (rows : List Nat) :
    (t.add rows).isolated =
      if rows.all (t.gain · = 0) then t.isolated + 1 else t.isolated := rfl

theorem le_foldl_max {gains : List Nat} {n start : Nat} (h : n ≤ start ∨ ∃ g ∈ gains, n ≤ g) :
    n ≤ gains.foldl max start := by
  induction gains generalizing start with
  | nil => simpa using h
  | cons g gains ih =>
    rw [List.foldl_cons]
    apply ih
    rcases h with h | ⟨k, hk, hle⟩
    · exact Or.inl (Nat.le_trans h (Nat.le_max_left _ _))
    · rcases List.mem_cons.1 hk with rfl | hk
      · exact Or.inl (Nat.le_trans hle (Nat.le_max_right _ _))
      · exact Or.inr ⟨k, hk, hle⟩

theorem gain_le_maxGain (t : Tally) (row : Nat) : t.gain row ≤ t.maxGain := by
  unfold gain maxGain
  rw [← Array.foldl_toList]
  cases hrow : t.gains[row]? with
  | none => exact Nat.zero_le _
  | some g =>
    have hmem : g ∈ t.gains.toList := Array.mem_toList_iff.2 (Array.mem_of_getElem? hrow)
    exact le_foldl_max (Or.inr ⟨g, hmem, Nat.le_refl _⟩)

end Tally

namespace CoverProblem

variable {p : CoverProblem}

theorem nodup_choices (p : CoverProblem) (col : Nat) : (p.choices col).Nodup := by
  rw [choices_eq]
  exact (p.chart.columnMarks col).nodup_toList.filter _

theorem tally_concat (p : CoverProblem) (columns : List Nat) (col : Nat) :
    p.tally (columns ++ [col]) = (p.tally columns).add (p.choices col) := by
  simp [tally, List.foldl_append]

@[simp] theorem size_gains_tally (p : CoverProblem) (columns : List Nat) :
    (p.tally columns).gains.size = p.chart.rowCount := by
  induction columns using List.reverseRecOn with
  | nil => simp [tally, Tally.empty]
  | append_singleton columns col ih => rw [tally_concat, Tally.size_gains_add, ih]

theorem gain_tally (columns : List Nat) {row : Nat} (hrow : row < p.chart.rowCount) :
    (p.tally columns).gain row = columns.countP (row ∈ p.choices ·) := by
  induction columns using List.reverseRecOn with
  | nil => simp [tally]
  | append_singleton columns col ih =>
    have hsize : row < (p.tally columns).gains.size := by
      rw [size_gains_tally]
      exact hrow
    rw [tally_concat, Tally.gain_add (p.nodup_choices col) hsize, ih, List.countP_append]
    simp [List.countP_cons]

/-! ## Isolated columns -/

/-- May the row be used for one of the columns? -/
def isUseful (p : CoverProblem) (columns : List Nat) (row : Nat) : Bool :=
  columns.any (row ∈ p.choices ·)

theorem isUseful_iff {columns : List Nat} {row : Nat} (hrow : row < p.chart.rowCount) :
    p.isUseful columns row = true ↔ (p.tally columns).gain row ≠ 0 := by
  rw [gain_tally columns hrow, isUseful, List.any_eq_true, ← Nat.pos_iff_ne_zero,
    List.countP_pos_iff]

theorem isUseful_concat {columns : List Nat} {col row : Nat} :
    p.isUseful (columns ++ [col]) row = true ↔
      p.isUseful columns row = true ∨ row ∈ p.choices col := by
  simp [isUseful]

theorem Covers.of_append {rows columns more : List Nat} (h : p.Covers rows (columns ++ more)) :
    p.Covers rows columns ∧ p.Covers rows more :=
  ⟨⟨h.1, fun col hcol => h.2 col (List.mem_append_left _ hcol)⟩,
    ⟨h.1, fun col hcol => h.2 col (List.mem_append_right _ hcol)⟩⟩

/-- A cover has a useful row for each isolated column. Induction on the columns, last one out. -/
theorem isolated_le_countP (hchart : p.chart.Consistent) {rows columns : List Nat}
    (h : p.Covers rows columns) :
    (p.tally columns).isolated ≤ rows.countP (p.isUseful columns) := by
  induction columns using List.reverseRecOn with
  | nil => exact Nat.zero_le _
  | append_singleton columns col ih =>
    obtain ⟨hcolumns, hcol⟩ := h.of_append
    have hle := ih hcolumns
    have hmono : ∀ row, p.isUseful columns row = true → p.isUseful (columns ++ [col]) row = true :=
      fun row hrow => isUseful_concat.2 (Or.inl hrow)
    rw [tally_concat, Tally.isolated_add]
    split
    · rename_i hall
      obtain ⟨row, hrow, hchoice⟩ := hcol.exists_choice hchart List.mem_cons_self
      -- the row for the isolated column was useless before it
      have hzero : (p.tally columns).gain row = 0 := by
        simpa using List.all_eq_true.1 hall row hchoice
      have hrange : row < p.chart.rowCount := (mem_allowedRows.1 (h.1 row hrow)).1
      have huseless : p.isUseful columns row = false := by
        rw [Bool.eq_false_iff, Ne, isUseful_iff hrange, not_not]
        exact hzero
      have huseful : row ∈ rows.filter (p.isUseful (columns ++ [col])) :=
        List.mem_filter.2 ⟨hrow, isUseful_concat.2 (Or.inr hchoice)⟩
      -- so it is counted now and was not counted before
      have hlt := List.countP_lt_length_iff.2 ⟨row, huseful, huseless⟩
      rw [List.countP_filter, ← List.countP_eq_length_filter] at hlt
      have heq : rows.countP
          (fun row => p.isUseful columns row && p.isUseful (columns ++ [col]) row)
          = rows.countP (p.isUseful columns) := by
        apply List.countP_congr
        intro row _
        rw [Bool.and_eq_true]
        exact ⟨And.left, fun hrow => ⟨hrow, hmono row hrow⟩⟩
      omega
    · exact Nat.le_trans hle (List.countP_mono_left fun row _ => hmono row)

theorem isolated_le_length (hchart : p.chart.Consistent) {rows columns : List Nat}
    (h : p.Covers rows columns) : (p.tally columns).isolated ≤ rows.length :=
  Nat.le_trans (isolated_le_countP hchart h) List.countP_le_length

/-! ## The greatest gain -/

/-- Rows that mark at most `n` columns each mark no more than `n` columns a row altogether. -/
theorem length_le_mul_of_marks (chart : Chart) {rows columns : List Nat} {n : Nat}
    (hgain : ∀ row ∈ rows, columns.countP (· ∈ chart.rowMarks row) ≤ n)
    (hmark : ∀ col ∈ columns, ∃ row ∈ rows, col ∈ chart.rowMarks row) :
    columns.length ≤ rows.length * n := by
  induction rows generalizing columns with
  | nil =>
    cases columns with
    | nil => simp
    | cons col columns => simpa using hmark col List.mem_cons_self
  | cons row rows ih =>
    have hsub : (chart.leftOpen row columns).Sublist columns := List.filter_sublist
    have hrest : (chart.leftOpen row columns).length ≤ rows.length * n := by
      apply ih
      · intro r hr
        exact Nat.le_trans (hsub.countP_le) (hgain r (List.mem_cons_of_mem _ hr))
      · intro col hcol
        obtain ⟨hcol, hopen⟩ := Chart.mem_leftOpen.1 hcol
        obtain ⟨r, hr, hcr⟩ := hmark col hcol
        rcases List.mem_cons.1 hr with rfl | hr
        · exact absurd hcr hopen
        · exact ⟨r, hr, hcr⟩
    -- the first row marks at most `n` of the columns, and the other rows the rest
    have hfirst := hgain row List.mem_cons_self
    have hsplit : columns.length
        = columns.countP (· ∈ chart.rowMarks row) + (chart.leftOpen row columns).length := by
      rw [Chart.leftOpen, ← List.countP_eq_length_filter,
        List.length_eq_countP_add_countP (p := (· ∈ chart.rowMarks row))]
      simp
    rw [List.length_cons, Nat.succ_mul]
    omega

theorem length_le_mul_maxGain (hchart : p.chart.Consistent) {rows columns : List Nat}
    (h : p.Covers rows columns) :
    columns.length ≤ rows.length * (p.tally columns).maxGain := by
  apply length_le_mul_of_marks p.chart _ h.2
  intro row hrow
  have hallowed := h.1 row hrow
  have hgain := gain_tally columns (mem_allowedRows.1 hallowed).1
  have hcount : columns.countP (· ∈ p.chart.rowMarks row)
      = columns.countP (row ∈ p.choices ·) := by
    apply List.countP_congr
    intro col _
    simp [mem_choices_iff hchart, hallowed]
  rw [hcount, ← hgain]
  exact Tally.gain_le_maxGain _ row

theorem ceilDiv_le_of_le_mul {m n k : Nat} (h : m ≤ k * n) : (m + n - 1) / n ≤ k := by
  rcases Nat.eq_zero_or_pos n with rfl | hn
  · simp
  · apply Nat.le_of_lt_succ
    rw [Nat.div_lt_iff_lt_mul hn, Nat.succ_mul]
    omega

/-! ## The bound -/

theorem lowerBound?_eq_none_iff {columns : List Nat} :
    p.lowerBound? columns = none ↔ ∃ col ∈ columns, p.choices col = [] := by
  unfold lowerBound?
  split <;> simp_all

@[simp] theorem lowerBound?_nil (p : CoverProblem) : p.lowerBound? [] = some 0 := by
  have hquotient : (0 + (p.tally []).maxGain - 1) / (p.tally []).maxGain = 0 :=
    Nat.le_zero.1 (ceilDiv_le_of_le_mul (by simp))
  have hisolated : (p.tally []).isolated = 0 := rfl
  simp only [lowerBound?, List.any_nil, Bool.false_eq_true, if_false, List.length_nil, hquotient,
    hisolated, Nat.max_self]

theorem le_length_of_lowerBound? (hchart : p.chart.Consistent) {rows columns : List Nat}
    {bound : Nat} (hbound : p.lowerBound? columns = some bound) (h : p.Covers rows columns) :
    bound ≤ rows.length := by
  unfold lowerBound? at hbound
  split at hbound
  · simp at hbound
  · obtain rfl := Option.some.inj hbound
    exact Nat.max_le.2 ⟨isolated_le_length hchart h,
      ceilDiv_le_of_le_mul (length_le_mul_maxGain hchart h)⟩

theorem not_covers_of_lowerBound? (hchart : p.chart.Consistent) {rows columns : List Nat}
    (hbound : p.lowerBound? columns = none) : ¬ p.Covers rows columns := by
  obtain ⟨col, hcol, hnil⟩ := lowerBound?_eq_none_iff.1 hbound
  exact not_covers_of_choices_eq_nil hchart hcol hnil

end CoverProblem

end TwoLevel
