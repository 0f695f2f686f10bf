import TwoLevel.Proofs.Text.Lines
import TwoLevel.Report

/-!
# How a report ends

Every report, of a constant as of any other function and verbose or not, ends with the expression
on a line of its own, after a blank line and a title (**`Report.exists_text_eq`**). The line before
the blank one is the last of the statistics, or of the minterms if there is nothing to minimize.
-/

namespace TwoLevel

theorem Cover.Group.endsLine_text (group : Cover.Group) : Text.EndsLine group.text :=
  Text.endsLine_newline.prepend _

namespace Report

/-- The expression that a report is about. -/
def expression (r : Report) : String :=
  match r.minimization? with
  | some m => r.spelling.sum r.names m.cover.terms
  | none => r.spelling.constant false

theorem endsLine_mintermsText (r : Report) : Text.EndsLine r.mintermsText := by
  unfold mintermsText
  refine Text.EndsLine.append_join ⟨_, rfl⟩ fun line hline => ?_
  obtain ⟨m, -, rfl⟩ := List.mem_map.1 hline
  exact ⟨_, rfl⟩

theorem exists_minimizationText_eq (r : Report) (m : Minimization) :
    ∃ before, Text.EndsLine before ∧ r.minimizationText m =
      before ++ expressionText (r.spelling.sum r.names m.cover.terms) := by
  refine ⟨_, Text.EndsLine.append_join ?_ fun line hline => ?_, rfl⟩
  · exact Text.EndsLine.prepend ⟨"\nStatistics:", rfl⟩ _
  · obtain ⟨group, -, rfl⟩ := List.mem_map.1 hline
    exact group.endsLine_text

theorem exists_text_eq_expressionText (r : Report) :
    ∃ before, Text.EndsLine before ∧ r.text = before ++ expressionText r.expression := by
  unfold text expression
  cases r.minimization? with
  | none => exact ⟨r.mintermsText, r.endsLine_mintermsText, rfl⟩
  | some m =>
    obtain ⟨before, hbefore, htext⟩ := r.exists_minimizationText_eq m
    refine ⟨r.mintermsText ++ before, hbefore.prepend _, ?_⟩
    show r.mintermsText ++ r.minimizationText m = _
    rw [htext, ← String.append_assoc]

theorem newline_append_expressionText (expression : String) :
    "\n" ++ expressionText expression = "\n\nFinal expression:\n" ++ expression ++ "\n" := by
  unfold expressionText
  have htitle : "\n\nFinal expression:\n" = "\n" ++ "\nFinal expression:\n" := by decide
  rw [htitle]
  simp only [String.append_assoc]

/-- **A report ends with the expression, under its title and after a blank line.** -/
theorem exists_text_eq (r : Report) :
    ∃ before, r.text = before ++ "\n\nFinal expression:\n" ++ r.expression ++ "\n" := by
  obtain ⟨text, ⟨before, hbefore⟩, htext⟩ := r.exists_text_eq_expressionText
  refine ⟨before, ?_⟩
  calc r.text = before ++ ("\n" ++ expressionText r.expression) := by
        rw [htext, hbefore, String.append_assoc]
    _ = _ := by
        rw [newline_append_expressionText, String.append_assoc, String.append_assoc,
          String.append_assoc]

end Report

end TwoLevel
