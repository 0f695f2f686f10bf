import TwoLevel.Proofs.Minimization.Steps

/-!
# The rows of a minimization

Each row of the chart is essential, selected by the search or unused, and only one of these
(`StagesOf.perm_rows`). The rows of the chart are the prime implicants, so that rows and cubes
determine each other (`eq_of_cube_eq`), and the terms of the cover are distinct prime implicants.

A row is essential exactly if its term owns a minterm: one with output 1 that no other prime
implicant accepts (**`mem_essentials_primeChart_iff`**). The search leaves the essential rows out,
so that no row that it selects owns a minterm. What the rows of a minimization are is put together
in `Minimization.SortsRows` (**`exists_minimize_sortsRows`**).
-/

namespace TwoLevel

namespace TruthTable

variable {table : TruthTable}

/-- A minterm with output 1 that the cube accepts, and no other prime implicant. -/
structure Owns (table : TruthTable) (c : Cube) (n : Nat) : Prop where
  output_eq : table.output n = .one
  accepts : c.accepts n = true
  eq_of_accepts : ∀ b, table.IsPrimeImplicant b → b.accepts n = true → b = c

/-- No cube is that of two rows. -/
theorem eq_of_cube_eq {r s : Nat} {t u : Term} (ht : table.primeChart.term? r = some t)
    (hu : table.primeChart.term? s = some u) (heq : t.cube = u.cube) : r = s := by
  rw [term?_primeChart] at ht hu
  have hr : r < ((primes table.initialTerms).map (·.cube)).length := by
    rw [List.length_map]
    exact (List.getElem?_eq_some_iff.1 ht).1
  refine (List.getElem?_inj hr (nodup_map_cube_primes table)).1 ?_
  rw [List.getElem?_map, List.getElem?_map, ht, hu, Option.map_some, Option.map_some, heq]

/-- **A row is essential exactly if its term owns a minterm.** -/
theorem mem_essentials_primeChart_iff {row : Nat} {t : Term}
    (ht : table.primeChart.term? row = some t) :
    row ∈ table.primeChart.essentials.rows ↔ ∃ n, table.Owns t.cube n := by
  have hchart := table.consistent_primeChart
  constructor
  · intro h
    obtain ⟨col, hcol, hsole⟩ := Chart.mem_rows_essentials.1 h
    obtain ⟨n, hn⟩ := exists_minterm? hcol
    have hmarks : ∀ r, table.primeChart.isMarked r col = true ↔ r = row := by
      intro r
      rw [Chart.isMarked_iff, ← hchart.mem_columnMarks, hsole, IndexSet.mem_singleton]
    refine ⟨n, output_of_minterm? hn, (isMarked_primeChart_iff ht hn).1 ((hmarks row).2 rfl), ?_⟩
    intro b hprime haccepts
    obtain ⟨r, u, hu, rfl⟩ := exists_row hprime
    obtain rfl := (hmarks r).1 ((isMarked_primeChart_iff hu hn).2 haccepts)
    obtain rfl := Option.some.inj (hu.symm.trans ht)
    rfl
  · rintro ⟨n, hn⟩
    obtain ⟨col, hcol, hminterm⟩ := exists_column hn.output_eq
    refine Chart.mem_rows_essentials.2 ⟨col, hcol, ?_⟩
    ext r
    rw [hchart.mem_columnMarks, ← Chart.isMarked_iff, IndexSet.mem_singleton]
    constructor
    · intro hmark
      obtain ⟨u, hu⟩ := exists_term?_of_isMarked hmark
      have haccepts := (isMarked_primeChart_iff hu hminterm).1 hmark
      exact eq_of_cube_eq hu ht (hn.eq_of_accepts u.cube (isPrimeImplicant_of_term? hu) haccepts)
    · rintro rfl
      exact (isMarked_primeChart_iff ht hminterm).2 hn.accepts

end TruthTable

/--
Each row of the chart is essential, selected or unused. The cover is made of distinct prime
implicants, of which the essential ones own a minterm and the selected ones do not.
-/
structure Minimization.SortsRows (m : Minimization) (table : TruthTable) : Prop where
  perm_rows : (m.essentials.rows.toList ++ m.selected ++ m.unusedRows).Perm
    (List.range m.chart.rowCount)
  term?_eq : ∀ row, m.chart.term? row = m.primes.terms[row]?
  map_term?_eq : (m.essentials.rows.toList ++ m.selected).map m.chart.term? =
    m.cover.terms.map some
  nodup_cover : (m.cover.terms.map (·.cube)).Nodup
  isPrimeImplicant : ∀ t ∈ m.cover.terms, table.IsPrimeImplicant t.cube
  exists_owns : ∀ row ∈ m.essentials.rows,
    ∃ t, m.chart.term? row = some t ∧ ∃ n, table.Owns t.cube n
  not_owns : ∀ row ∈ m.selected, ∃ t, m.chart.term? row = some t ∧ ∀ n, ¬ table.Owns t.cube n

namespace Minimization

theorem mem_unusedRows {m : Minimization} {row : Nat} :
    row ∈ m.unusedRows ↔ row < m.chart.rowCount ∧ row ∉ m.rows := by
  simp [unusedRows, rows, ← IndexSet.mem_def]

namespace StagesOf

variable {m : Minimization} {table : TruthTable}

theorem perm_rows (h : m.StagesOf table) :
    (m.rows ++ m.unusedRows).Perm (List.range m.chart.rowCount) := by
  have hlt : ∀ row ∈ m.rows, row < m.chart.rowCount := by
    intro row hrow
    obtain ⟨t, ht⟩ := h.exists_term? hrow
    rw [← h.chart_eq] at ht
    exact (Array.getElem?_eq_some_iff.1 ht).1
  have hnodup : (m.rows ++ m.unusedRows).Nodup := by
    refine List.nodup_append.2 ⟨h.productive_rows.nodup, List.nodup_range.filter _, ?_⟩
    rintro row hrow _ hunused rfl
    exact (mem_unusedRows.1 hunused).2 hrow
  refine (List.perm_ext_iff_of_nodup hnodup List.nodup_range).2 fun row => ?_
  rw [List.mem_append, List.mem_range, mem_unusedRows]
  constructor
  · rintro (hrow | ⟨hrow, -⟩)
    · exact hlt row hrow
    · exact hrow
  · intro hrow
    by_cases hmem : row ∈ m.rows
    · exact .inl hmem
    · exact .inr ⟨hrow, hmem⟩

theorem nodup_cover (h : m.StagesOf table) : (m.cover.terms.map (·.cube)).Nodup := by
  have hterms : m.cover.terms = m.rows.filterMap table.primeChart.term? := by
    rw [cover, h.chart_eq]
  rw [hterms, List.Nodup, List.pairwise_map, List.pairwise_filterMap]
  refine h.productive_rows.nodup.imp fun hne t ht u hu heq => hne ?_
  exact TruthTable.eq_of_cube_eq ht hu heq

theorem sortsRows (h : m.StagesOf table) : m.SortsRows table where
  perm_rows := h.perm_rows
  term?_eq row := by
    rw [h.chart_eq, TruthTable.term?_primeChart, Minimization.primes, h.rounds_eq]
    rfl
  map_term?_eq := h.map_term?_rows
  nodup_cover := h.nodup_cover
  isPrimeImplicant _ ht := h.isPrimeImplicant_of_mem_cover ht
  exists_owns row hrow := by
    obtain ⟨t, ht⟩ := h.exists_term? (List.mem_append_left m.selected hrow)
    rw [h.essentials_eq, h.chart_eq] at hrow
    exact ⟨t, h.chart_eq ▸ ht, (TruthTable.mem_essentials_primeChart_iff ht).1 hrow⟩
  not_owns row hrow := by
    obtain ⟨t, ht⟩ := h.exists_term? (List.mem_append_right _ hrow)
    have hchart := table.consistent_primeChart
    -- the search was told to leave the essential rows out
    have hnot := (Chart.smallestCompletion_of_minimalCover? hchart h.minimalCover?_eq).not_excluded
      row hrow
    rw [TruthTable.mem_essentials_primeChart_iff ht] at hnot
    exact ⟨t, h.chart_eq ▸ ht, not_exists.1 hnot⟩

end StagesOf

end Minimization

namespace TruthTable

/--
**Each row is essential, selected or unused, and the cover is made of primes.** The essential rows
are those with a minterm that only their prime implicant accepts.
-/
theorem exists_minimize_sortsRows (table : TruthTable) (h : ∃ n, table.output n = .one) :
    ∃ m, table.minimize = .ok m ∧ m.SortsRows table := by
  obtain ⟨m, hm⟩ := exists_minimize h
  exact ⟨m, hm, (stagesOf_of_minimize hm).sortsRows⟩

theorem exists_minimize_sortsRows_cyclicWithEssential :
    (∃ n, cyclicWithEssential.output n = .one) ∧
      ∃ m, cyclicWithEssential.minimize = .ok m ∧ m.SortsRows cyclicWithEssential :=
  ⟨⟨14, rfl⟩, exists_minimize_sortsRows cyclicWithEssential ⟨14, rfl⟩⟩

/-- Only the term of row 7 accepts minterm 14, and three more rows do for the cycle. -/
example : (cyclicWithEssential.minimize.map fun m =>
    (m.essentials.rows.toList, m.selected, m.unusedRows)) =
      .ok ([7], [0, 1, 5], [2, 3, 4, 6]) := by decide +kernel

end TruthTable

end TwoLevel
