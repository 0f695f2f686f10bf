import TwoLevel.Proofs.Minimization.Totality
import TwoLevel.Proofs.Names.Reading
import TwoLevel.Proofs.Spelling.Reading
import TwoLevel.Proofs.TruthTable.Reading

/-!
# From a text to the expression of a smallest cover

`simplify` reads a table and names, and writes an expression. What it needs is that the table is
one, that the names are, and that there is a name for each variable; otherwise the error is that of
the first of these that fails (`SimplifyFault`). It needs nothing else, and the expression agrees
with the table wherever the table says 0 or 1, as a reader sees who knows only the notation and
that the first name is that of the most significant bit (**`simplify_agrees_with_table`**).
-/

namespace TwoLevel

/-! ## Faults -/

/-- What is wrong with the two texts: the table comes before the names, they before their number. -/
inductive SimplifyFault (tableText namesText : String) : Error → Prop where
  | table (e : Error) (hfault : TruthTable.Fault tableText e) :
      SimplifyFault tableText namesText e
  | names (table : TruthTable) (htable : table.WrittenIn tableText) (e : Error)
      (hfault : Names.Fault namesText e) :
      SimplifyFault tableText namesText e
  | count (table : TruthTable) (htable : table.WrittenIn tableText) (names : Names)
      (hnames : names.WrittenIn namesText) (hcount : names.size ≠ table.width) :
      SimplifyFault tableText namesText (.nameCount table.width names.size)

section

variable {tableText namesText : String} {table : TruthTable} {names : Names} {e : Error}

theorem simplify_of_fault (h : SimplifyFault tableText namesText e) :
    simplify tableText namesText = .error e := by
  unfold simplify
  cases h with
  | table e hfault =>
    rw [TruthTable.ofText_eq_error_iff.2 hfault]
    rfl
  | names table htable e hfault =>
    rw [TruthTable.ofText_eq_ok_iff.2 htable, Names.ofText_eq_error_iff.2 hfault]
    rfl
  | count table htable names hnames hcount =>
    rw [TruthTable.ofText_eq_ok_iff.2 htable, Names.ofText_eq_ok_iff.2 hnames]
    show (do names.checkWidth table.width; _) = _
    rw [Names.checkWidth_of_ne hcount]
    rfl

theorem simplify_of_written (htable : table.WrittenIn tableText)
    (hnames : names.WrittenIn namesText) (hcount : names.size = table.width) :
    simplify tableText namesText =
      match table.minimize with
      | .ok m => m.cover.expression names .textbook
      | .error .emptyFunction => .ok Spelling.textbook.falseText
      | .error e => .error e := by
  unfold simplify
  rw [TruthTable.ofText_eq_ok_iff.2 htable, Names.ofText_eq_ok_iff.2 hnames]
  show (do names.checkWidth table.width; _) = _
  rw [Names.checkWidth_of_eq hcount]
  rfl

theorem simplify_cases (tableText namesText : String) :
    (∃ e, SimplifyFault tableText namesText e) ∨
      ∃ (table : TruthTable) (names : Names), table.WrittenIn tableText ∧
        names.WrittenIn namesText ∧ names.size = table.width := by
  cases htable : TruthTable.ofText tableText with
  | error e => exact .inl ⟨e, .table e (TruthTable.ofText_eq_error_iff.1 htable)⟩
  | ok table =>
    have htable := TruthTable.ofText_eq_ok_iff.1 htable
    cases hnames : Names.ofText namesText with
    | error e => exact .inl ⟨e, .names table htable e (Names.ofText_eq_error_iff.1 hnames)⟩
    | ok names =>
      have hnames := Names.ofText_eq_ok_iff.1 hnames
      by_cases hcount : names.size = table.width
      · exact .inr ⟨table, names, htable, hnames, hcount⟩
      · exact .inl ⟨_, .count table htable names hnames hcount⟩

/-! ## The expression -/

theorem exists_terms_of_written (htable : table.WrittenIn tableText)
    (hnames : names.WrittenIn namesText) (hcount : names.size = table.width) :
    ∃ terms : List Term, (∀ t ∈ terms, t.width = table.width) ∧ (Cover.mk terms).Realizes table ∧
      simplify tableText namesText = .ok (Spelling.textbook.sum names terms) := by
  rw [simplify_of_written htable hnames hcount]
  rcases table.minimize_cases with ⟨hzero, herror⟩ | ⟨hone, m, hm⟩
  · -- the constant 0 is the sum without terms
    refine ⟨[], by simp, ⟨fun n _ hn => absurd hn (hzero n), fun n _ _ => rfl⟩, ?_⟩
    rw [herror]
    rfl
  · have hstages := TruthTable.stagesOf_of_minimize hm
    refine ⟨m.cover.terms, fun t ht => hstages.width_of_mem_cover ht, hstages.realizes, ?_⟩
    rw [hm]
    exact hstages.expression_eq hone hcount .textbook

theorem SimplifyFault.ne (h : SimplifyFault tableText namesText e) :
    e ≠ .emptyFunction ∧ e ≠ .emptyCover ∧ ∀ minterms, e ≠ .uncovered minterms := by
  cases h with
  | table e hfault => cases hfault <;> simp
  | names table htable e hfault =>
    obtain ⟨before, piece, after, _, -, hrefuses⟩ := hfault
    cases hrefuses <;> simp
  | count => simp

theorem simplify_eq_error_iff :
    simplify tableText namesText = .error e ↔ SimplifyFault tableText namesText e := by
  constructor
  · intro herror
    rcases simplify_cases tableText namesText with
      ⟨e', hfault⟩ | ⟨table, names, htable, hnames, hcount⟩
    · rw [simplify_of_fault hfault] at herror
      exact Except.error.inj herror ▸ hfault
    · obtain ⟨terms, -, -, hterms⟩ := exists_terms_of_written htable hnames hcount
      rw [hterms] at herror
      cases herror
  · exact simplify_of_fault

end

/--
**The end-to-end contract.** The errors are the faults of the two texts, and none of them tells of a
failure within the minimization. Without a fault the result is an expression that agrees with the
table on every row whose symbol is 1 or 0.
-/
theorem simplify_agrees_with_table (tableText namesText : String) :
    (∀ e, simplify tableText namesText = .error e ↔ SimplifyFault tableText namesText e) ∧
      (∀ e, simplify tableText namesText = .error e →
        e ≠ .emptyFunction ∧ e ≠ .emptyCover ∧ ∀ minterms, e ≠ .uncovered minterms) ∧
      ((∀ e, ¬ SimplifyFault tableText namesText e) →
        ∃ (text : String) (names : Names) (expression : Expression),
          simplify tableText namesText = .ok text ∧ names.WrittenIn namesText ∧
          names.readExpression? text = some expression ∧
          ∀ m, ((TruthTable.symbols tableText)[m]? = some '1' → expression.eval m = true) ∧
            ((TruthTable.symbols tableText)[m]? = some '0' → expression.eval m = false)) := by
  refine ⟨fun e => simplify_eq_error_iff, fun e h => (simplify_eq_error_iff.1 h).ne,
    fun hnone => ?_⟩
  rcases simplify_cases tableText namesText with
    ⟨e, hfault⟩ | ⟨table, names, htable, hnames, hcount⟩
  · exact absurd hfault (hnone e)
  · obtain ⟨terms, hwidth, hrealizes, hterms⟩ := exists_terms_of_written htable hnames hcount
    have hread := names.readExpression?_sum fun t ht => (hwidth t ht).trans hcount.symm
    refine ⟨_, names, _, hterms, hnames, hread, fun m => ?_⟩
    rw [← Cover.accepts_eq_eval ⟨terms⟩]
    constructor
    · intro hone
      have houtput := Option.some.inj (htable.ofSymbol?_eq hone)
      exact hrealizes.accepts_of_one m (htable.lt_size hone) houtput.symm
    · intro hzero
      have houtput := Option.some.inj (htable.ofSymbol?_eq hzero)
      exact hrealizes.not_accepts_of_zero m (htable.lt_size hzero) houtput.symm

/-- The last variable is bit 0, which is 0 on the rows 0 and 2. -/
example : simplify "1010" "a b" = .ok "b'" := by decide +kernel

end TwoLevel
