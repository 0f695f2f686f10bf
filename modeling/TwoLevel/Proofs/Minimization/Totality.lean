import TwoLevel.Proofs.Minimization.Optimality

/-!
# Minimization has one failure

A table without an output 1 has nothing to minimize, and every other table is minimized: the checks
for a search without result and for a column left open never fail (`minimize_cases`). A cover that
is returned has a term, and all its terms have the width of the table, so that it has an expression
in any spelling and for any names of that number (`StagesOf.expression_eq`).

The two together are **`minimize_total`**.
-/

namespace TwoLevel

namespace TruthTable

variable {table : TruthTable}

theorem minimize_of_forall_ne (h : ∀ n, table.output n ≠ .one) :
    table.minimize = .error .emptyFunction := by
  have hempty : table.required.isEmpty = true := by
    rw [IndexSet.isEmpty_iff]
    ext n
    simp [h n]
  unfold minimize
  simp only [hempty, if_true]

theorem minimize_cases (table : TruthTable) :
    ((∀ n, table.output n ≠ .one) ∧ table.minimize = .error .emptyFunction) ∨
      ((∃ n, table.output n = .one) ∧ ∃ m, table.minimize = .ok m) := by
  by_cases h : ∃ n, table.output n = .one
  · exact Or.inr ⟨h, exists_minimize h⟩
  · have hnone : ∀ n, table.output n ≠ .one := fun n hn => h ⟨n, hn⟩
    exact Or.inl ⟨hnone, minimize_of_forall_ne hnone⟩

theorem exists_output_of_minimize {m : Minimization} (h : table.minimize = .ok m) :
    ∃ n, table.output n = .one := by
  rcases table.minimize_cases with ⟨-, herror⟩ | ⟨hone, -⟩
  · rw [herror] at h
    cases h
  · exact hone

end TruthTable

/-! ## The expression of the cover -/

namespace Minimization.StagesOf

variable {m : Minimization} {table : TruthTable}

theorem width_of_mem_cover (h : m.StagesOf table) {t : Term} (ht : t ∈ m.cover.terms) :
    t.width = table.width :=
  (h.isPrimeImplicant_of_mem_cover ht).width_eq

theorem terms_cover_ne_nil (h : m.StagesOf table) (hone : ∃ n, table.output n = .one) :
    m.cover.terms ≠ [] := by
  obtain ⟨n, hn⟩ := hone
  have hlt : n < table.size := TruthTable.lt_size_of_output_ne (by simp [hn])
  obtain ⟨t, ht, -⟩ := Cover.accepts_iff.1 (h.realizes.accepts_of_one n hlt hn)
  exact List.ne_nil_of_mem ht

theorem expression_eq (h : m.StagesOf table) (hone : ∃ n, table.output n = .one) {names : Names}
    (hnames : names.size = table.width) (s : Spelling) :
    m.cover.expression names s = .ok (s.sum names m.cover.terms) := by
  have hne := h.terms_cover_ne_nil hone
  unfold Cover.expression
  cases hterms : m.cover.terms with
  | nil => exact absurd hterms hne
  | cons t ts =>
    have hwidth : t.width = table.width := h.width_of_mem_cover (by rw [hterms]; simp)
    simp only [Names.checkWidth_of_eq (hnames.trans hwidth.symm)]
    rfl

end Minimization.StagesOf

/--
**Minimization fails for the constant 0 and for no other table.** No error tells of minterms that
are left uncovered, and every cover that is returned has an expression.
-/
theorem TruthTable.minimize_total (table : TruthTable) :
    (table.minimize = .error .emptyFunction ↔ ∀ n, table.output n ≠ .one) ∧
      ((∃ n, table.output n = .one) → ∃ m, table.minimize = .ok m) ∧
      (∀ minterms, table.minimize ≠ .error (.uncovered minterms)) ∧
      ∀ m, table.minimize = .ok m → ∀ names : Names, names.size = table.width →
        ∀ s, ∃ text, m.cover.expression names s = .ok text := by
  refine ⟨⟨fun herror n hn => ?_, minimize_of_forall_ne⟩, exists_minimize, fun minterms h => ?_,
    fun m hm names hnames s => ?_⟩
  · obtain ⟨m, hm⟩ := exists_minimize ⟨n, hn⟩
    rw [hm] at herror
    cases herror
  · rcases table.minimize_cases with ⟨-, herror⟩ | ⟨-, m, hm⟩
    · rw [herror] at h
      cases h
    · rw [hm] at h
      cases h
  · have hstages := stagesOf_of_minimize hm
    exact ⟨_, hstages.expression_eq (exists_output_of_minimize hm) hnames s⟩

end TwoLevel
