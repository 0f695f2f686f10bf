import TwoLevel.Term

/-!
# Coverage charts

The rows of a `Chart` are terms, its columns are the minterms to cover, in ascending order. A row
marks a column when its term was built to cover the minterm of the column. The marks are kept by
row and by column; the two views agree (`mem_rowMarks_ofTerms`, `mem_columnMarks_ofTerms`).
-/

namespace TwoLevel

/-- Which terms cover which minterms, by row and by column. -/
structure Chart where
  terms : Array Term
  minterms : IndexSet
  marksByRow : Array IndexSet
  marksByColumn : Array IndexSet

namespace Chart

/-- The columns whose minterms a term covers. -/
def columnsOf (minterms : Array Nat) (t : Term) : IndexSet :=
  (IndexSet.range minterms.size).filter fun col => minterms[col]?.any t.covers

/-- The rows that mark a column. -/
def rowsOf (marksByRow : Array IndexSet) (col : Nat) : IndexSet :=
  (IndexSet.range marksByRow.size).filter fun row => marksByRow[row]?.any (col ∈ ·)

/-- The chart of some terms for some minterms, given in any order and with any repetitions. -/
def ofTerms (terms : List Term) (required : List Nat) : Chart :=
  let rows := terms.toArray
  let minterms := IndexSet.ofList required
  let columns := minterms.toList.toArray
  let marksByRow := rows.map (columnsOf columns)
  { terms := rows
    minterms
    marksByRow
    marksByColumn := Array.ofFn fun col : Fin columns.size => rowsOf marksByRow col }

/-- The number of rows. -/
def rowCount (chart : Chart) : Nat := chart.terms.size

/-- The number of columns. -/
def columnCount (chart : Chart) : Nat := chart.minterms.size

/-- The term of a row. -/
def term? (chart : Chart) (row : Nat) : Option Term := chart.terms[row]?

/-- The minterm of a column. -/
def minterm? (chart : Chart) (col : Nat) : Option Nat := chart.minterms.toList[col]?

/-- The columns that a row marks. -/
def rowMarks (chart : Chart) (row : Nat) : IndexSet := chart.marksByRow[row]?.getD ∅

/-- The rows that mark a column. -/
def columnMarks (chart : Chart) (col : Nat) : IndexSet := chart.marksByColumn[col]?.getD ∅

/-- Does the row mark the column? -/
def isMarked (chart : Chart) (row col : Nat) : Bool := col ∈ chart.rowMarks row

/-- The number of rows that mark a column. -/
def usage (chart : Chart) (col : Nat) : Nat := (chart.columnMarks col).size

/-- The minterms of some columns. -/
def mintermsOf (chart : Chart) (columns : IndexSet) : List Nat :=
  columns.toList.filterMap chart.minterm?

/-- A row marks the columns of the minterms its term covers. -/
theorem mem_rowMarks_ofTerms {terms : List Term} {required : List Nat} {row col : Nat} :
    col ∈ (ofTerms terms required).rowMarks row ↔
      ∃ t m, (ofTerms terms required).term? row = some t ∧
        (ofTerms terms required).minterm? col = some m ∧ m ∈ t.covered := by
  simp only [rowMarks, ofTerms, term?, minterm?, Array.getElem?_map, List.getElem?_toArray]
  cases terms[row]? with
  | none => simp
  | some t =>
    simp only [Option.map_some, Option.getD_some, columnsOf, IndexSet.mem_filter,
      IndexSet.mem_range, List.size_toArray, List.getElem?_toArray, Option.some.injEq]
    constructor
    · rintro ⟨hcol, hany⟩
      rw [List.getElem?_eq_getElem hcol] at hany ⊢
      exact ⟨t, _, rfl, rfl, by simpa [Term.covers] using hany⟩
    · rintro ⟨_, m, rfl, hm, hcov⟩
      exact ⟨(List.getElem?_eq_some_iff.1 hm).1, by simpa [hm, Term.covers] using hcov⟩

/-- The two views of the marks agree. -/
theorem mem_columnMarks_ofTerms {terms : List Term} {required : List Nat} {row col : Nat} :
    row ∈ (ofTerms terms required).columnMarks col ↔
      col ∈ (ofTerms terms required).rowMarks row := by
  constructor
  · intro h
    simp only [columnMarks, ofTerms, Array.getElem?_ofFn] at h
    split at h
    · simp only [Option.getD_some, rowsOf, IndexSet.mem_filter, IndexSet.mem_range] at h
      obtain ⟨hrow, hany⟩ := h
      rw [Array.getElem?_eq_getElem hrow] at hany
      simp only [rowMarks, ofTerms]
      rw [Array.getElem?_eq_getElem hrow]
      simpa using hany
    · simp at h
  · intro h
    obtain ⟨t, m, ht, hm, -⟩ := mem_rowMarks_ofTerms.1 h
    have hcol : col < (IndexSet.ofList required).toList.length :=
      (List.getElem?_eq_some_iff.1 hm).1
    simp only [rowMarks, ofTerms] at h
    simp only [columnMarks, ofTerms, Array.getElem?_ofFn, List.size_toArray, hcol, dite_true,
      Option.getD_some, rowsOf, IndexSet.mem_filter, IndexSet.mem_range]
    cases hmarks : (terms.toArray.map (columnsOf (IndexSet.ofList required).toList.toArray))[row]?
      with
    | none =>
      rw [hmarks] at h
      simp at h
    | some marks =>
      rw [hmarks, Option.getD_some] at h
      exact ⟨(Array.getElem?_eq_some_iff.1 hmarks).1, by simpa using h⟩

end Chart

end TwoLevel
