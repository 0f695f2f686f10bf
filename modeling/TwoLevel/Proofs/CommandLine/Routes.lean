import TwoLevel.CommandLine.Session
import TwoLevel.Proofs.CommandLine.Arguments
import TwoLevel.Proofs.Minimization.Expression
import TwoLevel.Proofs.Report.Ending

/-!
# Three routes to one expression

A run with a table and names as operands shows the expression of the minimized function in one of
three ways: alone, at the end of a report, or at the end of a report with all steps. Each of them,
and `simplify` too, checks the number of names, tells the constant 0 apart and writes the expression
by itself. All of them come to the `expressionIn` the spelling that is asked for, or to the error in
its place (**`Session.routes_agree`**).
-/

namespace TwoLevel.CommandLine

/-! ## Asking for a route -/

/-- The ways to show an expression. -/
inductive Route where
  | quiet
  | plain
  | verbose
  deriving DecidableEq

/-- The arguments that ask for a route. -/
def Route.arguments : Route → List String
  | quiet => ["--quiet"]
  | plain => []
  | verbose => ["--verbose"]

/-- Do the options ask for a route, and for the spelling of the expression? -/
structure Options.Asks (o : Options) (route : Route) (s : Spelling) : Prop where
  quiet_eq : o.quiet = decide (route = .quiet)
  verbose_eq : o.verbose = decide (route = .verbose)
  spelling_eq : o.spelling?.getD .textbook = s

/-- Do arguments before `--` ask for a route and a spelling, without giving an operand? -/
structure Asks (args : List String) (route : Route) (s : Spelling) : Prop where
  separator_not_mem : "--" ∉ args
  exists_options : ∃ o, Command.ofArguments args = .ok (.minimize o) ∧ o.operands = [] ∧
    o.Asks route s

theorem asks_format (route : Route) {name : String} {s : Spelling}
    (h : spellingOfName? name = some s) : Asks (route.arguments ++ ["--format", name]) route s := by
  unfold spellingOfName? at h
  split at h
  case h_4 => cases h
  -- three names and three routes, each read to the end
  all_goals
    cases h
    cases route <;> exact ⟨by decide, _, rfl, rfl, rfl, rfl, rfl⟩

/-! ## What a run shows -/

/-- Does a run end with the expression, or with the error in its place? -/
def Outcome.Shows (outcome : Outcome) (route : Route) : Except Error String → Prop
  | .error e => outcome.status = 1 ∧ outcome.output = "" ∧ outcome.messages = [e.message]
  | .ok expression =>
    outcome.status = 0 ∧
      match route with
      | .quiet => outcome.output = expression ++ "\n"
      | .plain | .verbose =>
        ∃ before, outcome.output = before ++ "\n\nFinal expression:\n" ++ expression ++ "\n"

section

variable {o : Options} {table : TruthTable} {names : Names} {s : Spelling}

theorem exists_quietOutcome_eq (hcount : names.size = table.width) :
    ∃ messages, quietOutcome o table names s =
      .ok (.success (s.sum names table.sumTerms ++ "\n") messages) := by
  unfold quietOutcome
  rw [Names.checkWidth_of_eq hcount]
  rcases table.minimize_cases_sumTerms with ⟨herror, hterms⟩ | ⟨m, hm, -, hexpression⟩
  · rw [herror, hterms]
    exact ⟨[], rfl⟩
  · refine ⟨logLines o table m, ?_⟩
    rw [hm]
    show (m.cover.expression names s >>= _) = _
    rw [hexpression names hcount s]
    rfl

theorem exists_ofTable_eq (hcount : names.size = table.width) (verbose : Bool) :
    ∃ report, Report.ofTable table names verbose s = .ok report ∧
      report.expression = s.sum names table.sumTerms := by
  unfold Report.ofTable
  rw [Names.checkWidth_of_eq hcount]
  rcases table.minimize_cases_sumTerms with ⟨herror, hterms⟩ | ⟨m, hm, hterms, -⟩
  · rw [herror, hterms]
    exact ⟨⟨table, names, none, verbose, s⟩, rfl, rfl⟩
  · rw [hm, hterms]
    exact ⟨⟨table, names, some m, verbose, s⟩, rfl, rfl⟩

theorem exists_reportOutcome_eq (hcount : names.size = table.width) :
    ∃ before messages, reportOutcome o table names s =
      .ok (.success (before ++ "\n\nFinal expression:\n" ++ s.sum names table.sumTerms ++ "\n")
        messages) := by
  obtain ⟨report, hreport, hexpression⟩ := exists_ofTable_eq (s := s) hcount o.verbose
  obtain ⟨before, htext⟩ := report.exists_text_eq
  obtain ⟨messages, houtcome⟩ :
      ∃ messages, reportOutcome o table names s = .ok (.success report.text messages) := by
    unfold reportOutcome
    rw [hreport]
    exact ⟨_, rfl⟩
  exact ⟨before, messages, by rw [houtcome, htext, hexpression]⟩

theorem quietOutcome_of_size_ne (hcount : names.size ≠ table.width) :
    quietOutcome o table names s = .error (.nameCount table.width names.size) := by
  unfold quietOutcome
  rw [Names.checkWidth_of_ne hcount]
  rfl

theorem reportOutcome_of_size_ne (hcount : names.size ≠ table.width) :
    reportOutcome o table names s = .error (.nameCount table.width names.size) := by
  unfold reportOutcome Report.ofTable
  rw [Names.checkWidth_of_ne hcount]
  rfl

/-- A route shows the expression of the table, or fails with the error in its place. -/
theorem route_cases {route : Route} (ho : o.Asks route s) :
    (∃ r, (if o.quiet then quietOutcome o table names s else reportOutcome o table names s) =
        .ok r ∧ r.Shows route (table.expression names s)) ∨
      ∃ e, (if o.quiet then quietOutcome o table names s else reportOutcome o table names s) =
        .error e ∧ table.expression names s = .error e := by
  rw [ho.quiet_eq]
  by_cases hcount : names.size = table.width
  · rw [TruthTable.expression_of_size_eq hcount]
    obtain ⟨messages, hquiet⟩ := exists_quietOutcome_eq (o := o) (s := s) hcount
    obtain ⟨before, messages', hreport⟩ := exists_reportOutcome_eq (o := o) (s := s) hcount
    rw [hquiet, hreport]
    cases route with
    | quiet => exact .inl ⟨_, rfl, rfl, rfl⟩
    | plain | verbose => exact .inl ⟨_, rfl, rfl, before, rfl⟩
  · rw [quietOutcome_of_size_ne hcount, reportOutcome_of_size_ne hcount, ite_self]
    exact .inr ⟨_, rfl, TruthTable.expression_of_size_ne hcount⟩

theorem readNames_of_ne {namesText : String} (hne : namesText ≠ "") (width : Nat) :
    readNames width namesText = Names.ofText namesText :=
  if_neg (by simpa using hne)

/-! ## Runs on two operands -/

variable {route : Route} {tableText namesText : String}

theorem shows_outcome (ho : o.Asks route s) (hne : namesText ≠ "") :
    (outcome o table namesText).Shows route
      (Names.ofText namesText >>= fun names => table.expression names s) := by
  unfold outcome
  rw [readNames_of_ne hne, ho.spelling_eq]
  cases Names.ofText namesText with
  | error e => exact ⟨rfl, rfl, rfl⟩
  | ok names =>
    simp only [bind, Except.bind]
    rcases route_cases ho with ⟨r, hr, hshows⟩ | ⟨e, he, herror⟩
    · rw [hr]
      exact hshows
    · rw [he, herror]
      exact ⟨rfl, rfl, rfl⟩

theorem exists_withTable_eq_finish (ho : o.Asks route s) (hne : namesText ≠ "") :
    ∃ outcome, Session.withTable o [namesText] tableText = .finish outcome ∧
      outcome.Shows route (expressionIn s tableText namesText) := by
  unfold Session.withTable expressionIn
  cases TruthTable.ofText tableText with
  | error e => exact ⟨_, rfl, rfl, rfl, rfl⟩
  | ok table =>
    refine ⟨_, rfl, ?_⟩
    rw [show " ".intercalate [namesText] = namesText from String.intercalate_singleton]
    exact shows_outcome ho hne

end

/--
**The routes agree.** With options for a spelling before the table and the names, a run asks for
nothing, and all routes show the same: the error, or a single line with the expression. In the
textbook's spelling this is what `simplify` gives.
-/
theorem Session.routes_agree {options : Route → List String} {s : Spelling}
    (hs : s ∈ [Spelling.textbook, .symbolic, .verbal])
    (hoptions : ∀ route, Asks (options route) route s) (tableText : String) {namesText : String}
    (hne : namesText ≠ "") :
    ∃ result : Except Error String,
      (∀ route, ∃ outcome,
        Session.ofArguments (options route ++ ["--", tableText, namesText]) = .finish outcome ∧
          outcome.Shows route result) ∧
      (∀ expression, result = .ok expression → '\n' ∉ expression.toList) ∧
      (s = .textbook → simplify tableText namesText = result) := by
  refine ⟨expressionIn s tableText namesText, fun route => ?_, fun expression => ?_, ?_⟩
  · obtain ⟨hsep, o, ho, hoperands, hasks⟩ := hoptions route
    rw [ofArguments_append_operands hsep ho hoperands]
    exact exists_withTable_eq_finish (o := o.addOperands [tableText, namesText])
      ⟨hasks.quiet_eq, hasks.verbose_eq, hasks.spelling_eq⟩ hne
  · exact newline_not_mem_of_expressionIn hs
  · rintro rfl
    exact simplify_eq_expressionIn tableText namesText

/-- The last variable is bit 0, which is 0 on the rows 0 and 2; row 1 may have either value. -/
theorem Session.routes_agree_default :
    (∀ route : Route, Asks (route.arguments ++ ["--format", "default"]) route .textbook) ∧
      "a b" ≠ "" ∧
      ∃ result, result = .ok "b'" ∧ ∀ route : Route, ∃ outcome,
        Session.ofArguments (route.arguments ++ ["--format", "default"] ++ ["--", "1x10", "a b"]) =
            .finish outcome ∧
          outcome.Shows route result := by
  have hasks := fun route : Route => asks_format route (show spellingOfName? "default" = _ from rfl)
  have hne : "a b" ≠ "" := by decide
  refine ⟨hasks, hne, ?_⟩
  obtain ⟨result, hshows, -, hsimplify⟩ := routes_agree (by decide) hasks "1x10" hne
  have hresult : simplify "1x10" "a b" = .ok "b'" := by decide +kernel
  exact ⟨result, (hsimplify rfl).symm.trans hresult, hshows⟩

end TwoLevel.CommandLine
