import TwoLevel.Proofs.Minimization.Totality
import TwoLevel.Proofs.Spelling.Reading

/-!
# The expression of two texts

A table and names that are given as texts have one expression in each spelling (`expressionIn`), or
one error in its place. It is the sum of the terms of the smallest cover, where the constant 0 is
the sum without terms, so that the two need not be told apart. `simplify` gives the expression in
the textbook's spelling (**`simplify_eq_expressionIn`**).
-/

namespace TwoLevel

/-- The terms of the expression of a function: those of its cover, and none for the constant 0. -/
def TruthTable.sumTerms (table : TruthTable) : List Term :=
  match table.minimize with
  | .ok m => m.cover.terms
  | .error _ => []

/-- The expression of a function in some spelling, with a name for each variable. -/
def TruthTable.expression (table : TruthTable) (names : Names) (s : Spelling) :
    Except Error String := do
  names.checkWidth table.width
  return s.sum names table.sumTerms

/-- The expression of the function of a text in some spelling, with the names of another text. -/
def expressionIn (s : Spelling) (tableText namesText : String) : Except Error String := do
  let table ← TruthTable.ofText tableText
  let names ← Names.ofText namesText
  table.expression names s

section

variable {table : TruthTable} {names : Names} {s : Spelling}

theorem TruthTable.expression_of_size_eq (hcount : names.size = table.width) :
    table.expression names s = .ok (s.sum names table.sumTerms) := by
  unfold expression
  rw [Names.checkWidth_of_eq hcount]
  rfl

theorem TruthTable.expression_of_size_ne (hcount : names.size ≠ table.width) :
    table.expression names s = .error (.nameCount table.width names.size) := by
  unfold expression
  rw [Names.checkWidth_of_ne hcount]
  rfl

/-- A minimized table has the expression of its cover; one that is not has the constant 0. -/
theorem TruthTable.minimize_cases_sumTerms (table : TruthTable) :
    (table.minimize = .error .emptyFunction ∧ table.sumTerms = []) ∨
      ∃ m, table.minimize = .ok m ∧ table.sumTerms = m.cover.terms ∧
        ∀ names : Names, names.size = table.width → ∀ s,
          m.cover.expression names s = .ok (s.sum names table.sumTerms) := by
  unfold sumTerms
  rcases table.minimize_cases with ⟨-, herror⟩ | ⟨hone, m, hm⟩
  · rw [herror]
    exact .inl ⟨rfl, rfl⟩
  · rw [hm]
    refine .inr ⟨m, rfl, rfl, fun names hcount s => ?_⟩
    exact (stagesOf_of_minimize hm).expression_eq hone hcount s

theorem simplify_eq_expressionIn (tableText namesText : String) :
    simplify tableText namesText = expressionIn .textbook tableText namesText := by
  unfold simplify expressionIn
  refine bind_congr fun table => bind_congr fun names => ?_
  by_cases hcount : names.size = table.width
  · rw [TruthTable.expression_of_size_eq hcount, Names.checkWidth_of_eq hcount]
    rcases table.minimize_cases_sumTerms with ⟨herror, hterms⟩ | ⟨m, hm, -, hexpression⟩
    · rw [herror, hterms]
      rfl
    · rw [hm]
      exact hexpression names hcount .textbook
  · rw [TruthTable.expression_of_size_ne hcount, Names.checkWidth_of_ne hcount]
    rfl

end

/-! ## What an expression is made of -/

theorem exists_of_bind_eq_ok {α β : Type} {x : Except Error α} {f : α → Except Error β} {b : β}
    (h : x >>= f = .ok b) : ∃ a, x = .ok a ∧ f a = .ok b := by
  cases x with
  | error e => cases h
  | ok a => exact ⟨a, rfl, h⟩

theorem exists_sum_of_expressionIn {s : Spelling} {tableText namesText expression : String}
    (h : expressionIn s tableText namesText = .ok expression) :
    ∃ (names : Names) (table : TruthTable), expression = s.sum names table.sumTerms := by
  obtain ⟨table, -, h⟩ := exists_of_bind_eq_ok h
  obtain ⟨names, -, h⟩ := exists_of_bind_eq_ok h
  obtain ⟨-, -, h⟩ := exists_of_bind_eq_ok h
  exact ⟨names, table, (Except.ok.inj h).symm⟩

/-- In all three spellings a sum stands on one line. -/
theorem newline_not_mem_sum {s : Spelling} (hs : s ∈ [Spelling.textbook, .symbolic, .verbal])
    (names : Names) (terms : List Term) : '\n' ∉ (s.sum names terms).toList := by
  have hparts : ∀ text ∈ [s.falseText, s.orText, s.trueText, s.andText, s.notText],
      '\n' ∉ text.toList := by
    simp only [List.mem_cons, List.not_mem_nil, or_false] at hs
    rcases hs with rfl | rfl | rfl <;> decide
  simp only [List.forall_mem_cons] at hparts
  obtain ⟨hfalse, hor, htrue, hand, hnot, -⟩ := hparts
  intro hmem
  rcases Spelling.mem_sum hmem with hmem | hmem | ⟨t, -, hmem⟩
  · exact hfalse hmem
  · exact hor hmem
  · rcases Spelling.mem_product hmem with hword | hmem | hmem | hmem
    · cases hword
    · exact htrue hmem
    · exact hand hmem
    · exact hnot hmem

theorem newline_not_mem_of_expressionIn {s : Spelling}
    (hs : s ∈ [Spelling.textbook, .symbolic, .verbal])
    {tableText namesText expression : String}
    (h : expressionIn s tableText namesText = .ok expression) : '\n' ∉ expression.toList := by
  obtain ⟨names, table, rfl⟩ := exists_sum_of_expressionIn h
  exact newline_not_mem_sum hs names table.sumTerms

end TwoLevel
