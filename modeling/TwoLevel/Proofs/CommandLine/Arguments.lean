import TwoLevel.CommandLine.Session

/-!
# Operands after the options

What follows `--` is read as operands, whatever it looks like. Options that are read without it are
read the same way with it, and the operands are added at the end
(**`Command.ofArguments_append_separator`**). A session whose operands all follow `--` takes the
first for the table and the others for names (`Session.ofArguments_append_operands`).
-/

namespace TwoLevel.CommandLine

/-- Adds operands after those that there are. -/
def Options.addOperands (o : Options) (operands : List String) : Options :=
  { o with operands := o.operands ++ operands }

/-! ## Reading up to the separator

The induction is on the options, for every state that the reader may be in. At the end of the
options it is never waiting for a value, or it would take the separator for one: without the
separator such options are refused. -/

namespace Command

variable {options : List String} {o : Options}

theorem readAll_append_separator (hsep : "--" ∉ options) {progress : Progress}
    (h : readAll options progress = .ok (.minimize o)) (operands : List String) :
    readAll (options ++ "--" :: operands) progress = .ok (.minimize (o.addOperands operands)) := by
  induction options generalizing progress with
  | nil =>
    cases progress with
    | version => cases h
    | awaiting p o' => cases h
    | reading o' =>
      rw [readAll] at h
      rw [List.nil_append, readAll, if_pos rfl]
      split at h
      · cases h
      · cases h
        rw [if_neg ‹_›]
        rfl
  | cons arg args ih =>
    have harg : arg ≠ "--" := (List.ne_of_not_mem_cons hsep).symm
    have hargs : "--" ∉ args := List.not_mem_of_not_mem_cons hsep
    rw [List.cons_append]
    cases progress with
    | version => cases h
    | awaiting p o' =>
      rw [readAll] at h ⊢
      split at h
      · cases h
      · exact ih hargs h
    | reading o' =>
      rw [readAll, if_neg harg] at h ⊢
      split at h
      · cases h
      · exact ih hargs h

/-- **Options are read the same way with operands after them.** -/
theorem ofArguments_append_separator (hsep : "--" ∉ options)
    (h : ofArguments options = .ok (.minimize o)) (operands : List String) :
    ofArguments (options ++ "--" :: operands) = .ok (.minimize (o.addOperands operands)) :=
  readAll_append_separator hsep h operands

end Command

/-! ## Sessions with operands -/

theorem Session.ofArguments_append_operands {options : List String} {o : Options}
    (hsep : "--" ∉ options) (h : Command.ofArguments options = .ok (.minimize o))
    (hnone : o.operands = []) (table : String) (names : List String) :
    ofArguments (options ++ "--" :: table :: names) =
      withTable (o.addOperands (table :: names)) names table := by
  have hoperands : (o.addOperands (table :: names)).operands = table :: names := by
    rw [Options.addOperands, hnone, List.nil_append]
  unfold ofArguments
  rw [Command.ofArguments_append_separator hsep h]
  simp only [hoperands]

end TwoLevel.CommandLine
