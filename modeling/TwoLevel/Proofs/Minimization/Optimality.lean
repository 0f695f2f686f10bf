import Mathlib.Tactic.Choose
import TwoLevel.Proofs.Minimization.Stages

/-!
# The cover of a minimization is a smallest one

A cover realizes a table when it gives the outputs of the table wherever these are specified.

* **`exists_minimize_realizes`** — every table with an output 1 is minimized, to a cover that
  realizes it.
* **`exists_minimize_length_le`** — no cover by cubes of the table's width that realizes the table
  has fewer terms.

The second rests on a translation. The terms of a cover that realizes the table are implicants, each
lies in a prime implicant, and the rows of these primes mark every column
(`Cover.Realizes.exists_rows`). So a cover of any shape becomes a choice of as many rows, and among
these the essential rows with the result of the search are a smallest one.
-/

namespace TwoLevel

/-- The cover gives the outputs of the table wherever they are specified. -/
structure Cover.Realizes (cover : Cover) (table : TruthTable) : Prop where
  accepts_of_one : ∀ m < table.size, table.output m = .one → cover.accepts m = true
  not_accepts_of_zero : ∀ m < table.size, table.output m = .zero → cover.accepts m = false

/-! ## From rows to terms -/

namespace Minimization.StagesOf

variable {m : Minimization} {table : TruthTable}

theorem mem_terms_cover (h : m.StagesOf table) {t : Term} :
    t ∈ m.cover.terms ↔ ∃ row ∈ m.rows, table.primeChart.term? row = some t := by
  rw [cover, h.chart_eq, List.mem_filterMap]

theorem isPrimeImplicant_of_mem_cover (h : m.StagesOf table) {t : Term} (ht : t ∈ m.cover.terms) :
    table.IsPrimeImplicant t.cube := by
  obtain ⟨row, -, hterm⟩ := h.mem_terms_cover.1 ht
  exact TruthTable.isPrimeImplicant_of_term? hterm

theorem rows_eq (h : m.StagesOf table) :
    m.rows = table.primeChart.essentials.rows.toList ++ m.selected := by
  rw [rows, h.essentials_eq, h.chart_eq]

theorem markedBy_rows (h : m.StagesOf table) : table.primeChart.MarkedBy m.rows := by
  rw [h.rows_eq]
  exact Chart.markedBy_essentials_append table.consistent_primeChart h.minimalCover?_eq

/--
**The cover realizes the table.** The row that marks the column of a minterm has a term that accepts
it, and no prime implicant accepts a minterm with output 0.
-/
theorem realizes (h : m.StagesOf table) : m.cover.Realizes table := by
  constructor
  · intro n _ hone
    obtain ⟨col, hcol, hn⟩ := TruthTable.exists_column hone
    obtain ⟨row, hrow, hmark⟩ := h.markedBy_rows col hcol
    obtain ⟨t, ht⟩ := TruthTable.exists_term?_of_isMarked hmark
    rw [Cover.accepts_iff]
    exact ⟨t, h.mem_terms_cover.2 ⟨row, hrow, ht⟩,
      (TruthTable.isMarked_primeChart_iff ht hn).1 hmark⟩
  · intro n hlt hzero
    rw [Bool.eq_false_iff, Ne, Cover.accepts_iff]
    rintro ⟨t, ht, haccepts⟩
    exact (h.isPrimeImplicant_of_mem_cover ht).output_ne_zero n hlt haccepts hzero

theorem length_terms_cover_le (h : m.StagesOf table) :
    m.cover.terms.length ≤ table.primeChart.essentials.rows.size + m.selected.length := by
  calc m.cover.terms.length
      ≤ m.rows.length := List.length_filterMap_le _ _
    _ = table.primeChart.essentials.rows.size + m.selected.length := by
        rw [h.rows_eq, List.length_append, IndexSet.size]

end Minimization.StagesOf

/-! ## From terms to rows -/

namespace TruthTable

variable {table : TruthTable}

/-- Some row marks all the columns whose minterms an implicant accepts. -/
theorem IsImplicant.exists_row {c : Cube} (h : table.IsImplicant c) :
    ∃ row, ∀ col m, table.primeChart.minterm? col = some m → c.accepts m = true →
      table.primeChart.isMarked row col = true := by
  obtain ⟨b, hprime, hle⟩ := h.exists_prime
  obtain ⟨row, t, ht, rfl⟩ := TruthTable.exists_row hprime
  refine ⟨row, fun col m hm haccepts => ?_⟩
  exact (isMarked_primeChart_iff ht hm).2 (hle m haccepts)

end TruthTable

namespace Cover.Realizes

variable {cover : Cover} {table : TruthTable}

theorem isImplicant (h : cover.Realizes table) {t : Term} (ht : t ∈ cover.terms)
    (hwidth : t.width = table.width) : table.IsImplicant t.cube := by
  refine ⟨hwidth, fun m hlt haccepts hzero => ?_⟩
  have hnot := h.not_accepts_of_zero m hlt hzero
  rw [Bool.eq_false_iff, Ne, Cover.accepts_iff] at hnot
  exact hnot ⟨t, ht, haccepts⟩

/-- **A cover that realizes the table gives as many rows, which mark every column.** -/
theorem exists_rows (h : cover.Realizes table)
    (hwidth : ∀ t ∈ cover.terms, t.width = table.width) :
    ∃ rows : List Nat, rows.length = cover.terms.length ∧ table.primeChart.MarkedBy rows := by
  have hrow : ∀ t ∈ cover.terms, ∃ row, ∀ col m, table.primeChart.minterm? col = some m →
      t.accepts m = true → table.primeChart.isMarked row col = true :=
    fun t ht => (h.isImplicant ht (hwidth t ht)).exists_row
  -- one row for each term, though different terms may have the same
  choose! row hmark using hrow
  refine ⟨cover.terms.map row, List.length_map _, fun col hcol => ?_⟩
  obtain ⟨m, hm⟩ := TruthTable.exists_minterm? hcol
  have hone := TruthTable.output_of_minterm? hm
  have hlt : m < table.size := TruthTable.lt_size_of_output_ne (by simp [hone])
  obtain ⟨t, ht, haccepts⟩ := Cover.accepts_iff.1 (h.accepts_of_one m hlt hone)
  exact ⟨row t, List.mem_map_of_mem ht, hmark t ht col m hm haccepts⟩

end Cover.Realizes

/-! ## The main results -/

namespace TruthTable

/-- **A table with an output 1 is minimized to a cover that realizes it.** -/
theorem exists_minimize_realizes (table : TruthTable) (h : ∃ m, table.output m = .one) :
    ∃ m, table.minimize = .ok m ∧ m.cover.Realizes table := by
  obtain ⟨m, hm⟩ := exists_minimize h
  exact ⟨m, hm, (stagesOf_of_minimize hm).realizes⟩

/-- The minterms 0, 1, 2, 5, 6, 7 of three variables, each covered by two of six primes. -/
def cyclic : TruthTable :=
  ⟨3, #[.one, .one, .one, .zero, .zero, .one, .one, .one], rfl, by decide⟩

theorem exists_minimize_realizes_cyclic :
    (∃ m, cyclic.output m = .one) ∧
      ∃ m, cyclic.minimize = .ok m ∧ m.cover.Realizes cyclic :=
  ⟨⟨0, rfl⟩, exists_minimize_realizes cyclic ⟨0, rfl⟩⟩

/--
**The cover of a minimization is a smallest one.** No terms of the table's width realize the table
that are fewer, be they prime or not.
-/
theorem exists_minimize_length_le (table : TruthTable) (h : ∃ m, table.output m = .one)
    (other : Cover) (hwidth : ∀ t ∈ other.terms, t.width = table.width)
    (hrealizes : other.Realizes table) :
    ∃ m, table.minimize = .ok m ∧ m.cover.terms.length ≤ other.terms.length := by
  obtain ⟨m, hm⟩ := exists_minimize h
  have hstages := stagesOf_of_minimize hm
  obtain ⟨rows, hlength, hmarked⟩ := hrealizes.exists_rows hwidth
  refine ⟨m, hm, ?_⟩
  calc m.cover.terms.length
      ≤ table.primeChart.essentials.rows.size + m.selected.length := hstages.length_terms_cover_le
    _ ≤ rows.length :=
        Chart.size_essentials_add_length_le table.consistent_primeChart hstages.minimalCover?_eq
          hmarked
    _ = other.terms.length := hlength

/-- Three cubes realize the cyclic table: the first is that of the minterms 0 and 1. -/
def cyclicCover : Cover :=
  ⟨[.ofCube [.free, .zero, .zero], .ofCube [.zero, .one, .free], .ofCube [.one, .free, .one]]⟩

theorem exists_minimize_length_le_cyclic :
    ((∃ m, cyclic.output m = .one) ∧ (∀ t ∈ cyclicCover.terms, t.width = cyclic.width) ∧
      cyclicCover.Realizes cyclic) ∧
      ∃ m, cyclic.minimize = .ok m ∧ m.cover.terms.length ≤ 3 := by
  have hwidth : ∀ t ∈ cyclicCover.terms, t.width = cyclic.width := by decide
  have hrealizes : cyclicCover.Realizes cyclic := ⟨by decide, by decide⟩
  exact ⟨⟨⟨0, rfl⟩, hwidth, hrealizes⟩,
    exists_minimize_length_le cyclic ⟨0, rfl⟩ cyclicCover hwidth hrealizes⟩

end TruthTable

end TwoLevel
