import TwoLevel.Proofs.Text.Splitting

/-!
# Texts that end a line

A text that is laid out line by line ends with a line break, and so does whatever is put before it
or, line by line, after it. What follows it then starts on a line of its own. The lines of such a
text are found again (**`linesOf_join`**); it is flush if they have one length.
-/

namespace TwoLevel.Text

/-- Is a line break the last character? -/
def EndsLine (text : String) : Prop := ∃ before, text = before ++ "\n"

theorem endsLine_newline : EndsLine "\n" := ⟨"", rfl⟩

theorem EndsLine.prepend {text : String} (h : EndsLine text) (before : String) :
    EndsLine (before ++ text) := by
  obtain ⟨start, rfl⟩ := h
  exact ⟨before ++ start, String.append_assoc.symm⟩

theorem EndsLine.append_join {text : String} (htext : EndsLine text) {lines : List String}
    (hlines : ∀ line ∈ lines, EndsLine line) : EndsLine (text ++ .join lines) := by
  induction lines generalizing text with
  | nil => simpa [String.join] using htext
  | cons line lines ih =>
    obtain ⟨hline, hlines⟩ := List.forall_mem_cons.1 hlines
    rw [String.join_cons, ← String.append_assoc]
    exact ih (hline.prepend text) hlines

/-! ## The lines of a text -/

/-- The lines of a text that ends a line, each without its line break. -/
def linesOf (text : String) : List (List Char) := (parts ['\n'] text.toList).dropLast

/-- Have all lines the same number of characters? -/
def Flush (text : String) : Prop := ∃ length, ∀ line ∈ linesOf text, line.length = length

/-- The lines of a text that is laid out line by line. -/
theorem linesOf_join {lines : List String} (h : ∀ line ∈ lines, '\n' ∉ line.toList) :
    linesOf (.join (lines.map (· ++ "\n"))) = lines.map String.toList := by
  suffices hparts : parts ['\n'] (String.join (lines.map (· ++ "\n"))).toList =
      lines.map String.toList ++ [[]] by
    rw [linesOf, hparts, List.dropLast_concat]
  induction lines with
  | nil => rfl
  | cons line lines ih =>
    obtain ⟨hline, hlines⟩ := List.forall_mem_cons.1 h
    rw [List.map_cons, String.join_cons, String.toList_append, String.toList_append]
    show parts ['\n'] (line.toList ++ ['\n'] ++ _) = _
    rw [parts_append List.mem_cons_self hline, ih hlines]
    rfl

end TwoLevel.Text
