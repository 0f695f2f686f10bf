import TwoLevel.Proofs.CommandLine.Routes
import TwoLevel.Proofs.Names.Reading
import TwoLevel.Proofs.Text.Blanks
import TwoLevel.Proofs.Text.Splitting
import TwoLevel.Proofs.TruthTable.Reading

/-!
# Giving a table and names, or answering for them

A run asks for the table and the names that its arguments do not give. The answers come from the
lines of the input and are trimmed, while arguments are taken as they are and the names joined by
spaces. Neither tables nor names see blanks at their ends, so that in both ways the run comes to the
same outcome, after the questions in one of them.

There is one exception. A blank answer is trimmed to the empty text, and this asks for made-up
names; names that are blank as arguments are not the empty text, and are no names either. The two
ways end alike exactly if this does not happen to a function that has variables
(**`Session.answers_agree_iff`**).
-/

namespace TwoLevel

/-! ## Readers that do not see trimming -/

theorem TruthTable.ofText_congr {text other : String} (h : symbols text = symbols other) :
    ofText text = ofText other := by
  unfold symbols at h
  simp only [ofText, h]

theorem TruthTable.ofText_trim (text : String) : ofText (Text.trim text) = ofText text :=
  ofText_congr (Text.filter_trim text)

theorem Names.isSeparator_of_isBlank {c : Char} (h : Text.isBlank c = true) :
    isSeparator c = true := by
  simp [isSeparator, h]

theorem Names.ofText_trim (text : String) : ofText (Text.trim text) = ofText text := by
  rw [ofText, Text.words_trim fun c hc => isSeparator_of_isBlank hc, ofText]

theorem Names.ofText_of_isBlank {text : String} (h : Text.IsBlank text) : ofText text = .ok ∅ := by
  rw [ofText, Text.words_eq_nil fun c hc => isSeparator_of_isBlank (h c hc)]
  rfl

namespace CommandLine

/-! ## Names joined by spaces -/

section

variable {names : List String}

theorem toList_intercalate_space (name : String) (names : List String) :
    (" ".intercalate (name :: names)).toList =
      name.toList ++ (names.map String.toList).flatMap ([' '] ++ ·) := by
  rw [String.toList_intercalate, List.map_cons]
  exact Text.intercalate_cons_eq [' '] name.toList (names.map String.toList)

theorem newline_not_mem_intercalate (h : ∀ name ∈ names, '\n' ∉ name.toList) :
    '\n' ∉ (" ".intercalate names).toList := by
  rw [String.toList_intercalate]
  intro hmem
  rcases Text.mem_intercalate hmem with hspace | ⟨text, htext, hmem⟩
  · revert hspace
    decide
  · obtain ⟨name, hname, rfl⟩ := List.mem_map.1 htext
    exact h name hname hmem

theorem intercalate_eq_empty_iff (hne : names ≠ []) :
    " ".intercalate names = "" ↔ names = [""] := by
  cases names with
  | nil => exact absurd rfl hne
  | cons name names =>
    rw [← String.toList_inj, toList_intercalate_space, String.toList_empty]
    cases names with
    | nil => simp
    | cons next names => simp

theorem isBlank_intercalate_iff :
    Text.IsBlank (" ".intercalate names) ↔ ∀ name ∈ names, Text.IsBlank name := by
  cases names with
  | nil => simp [Text.IsBlank]
  | cons name names =>
    have hspace : Text.isBlank ' ' = true := by decide
    unfold Text.IsBlank
    rw [toList_intercalate_space, List.forall_mem_append, List.forall_mem_cons,
      List.forall_mem_flatMap, List.forall_mem_map]
    refine and_congr_right fun _ => forall₂_congr fun next _ => ?_
    rw [List.singleton_append, List.forall_mem_cons]
    exact and_iff_right hspace

end

/-! ## Names that are read -/

section

variable {o : Options} {table : TruthTable} {text : String} {names : Names} {width : Nat}

theorem readNames_empty (width : Nat) : readNames width "" = .ok (.generic width) := rfl

/-- Only if a blank text stands for the names of some variables is trimming it seen. -/
theorem readNames_trim (h : Text.IsBlank text → text = "" ∨ width = 0) :
    readNames width (Text.trim text) = readNames width text := by
  by_cases hblank : Text.IsBlank text
  · rw [Text.trim_eq_empty_iff.2 hblank]
    by_cases hempty : text = ""
    · rw [hempty]
    · -- no names are also what is made up for no variables
      obtain rfl := (h hblank).resolve_left hempty
      rw [readNames_empty, readNames_of_ne hempty, Names.ofText_of_isBlank hblank]
      exact congrArg Except.ok (Names.ext rfl)
  · have hempty : text ≠ "" := by
      rintro rfl
      exact hblank fun c hc => absurd hc List.not_mem_nil
    rw [readNames_of_ne (Text.trim_eq_empty_iff.not.2 hblank), readNames_of_ne hempty,
      Names.ofText_trim]

theorem status_outcome (h : readNames table.width text = .ok names) :
    (outcome o table text).status = if names.size = table.width then 0 else 1 := by
  unfold outcome
  simp only [h, bind, Except.bind]
  by_cases hcount : names.size = table.width
  · obtain ⟨messages, hquiet⟩ :=
      exists_quietOutcome_eq (o := o) (s := o.spelling?.getD .textbook) hcount
    obtain ⟨before, messages', hreport⟩ :=
      exists_reportOutcome_eq (o := o) (s := o.spelling?.getD .textbook) hcount
    rw [hquiet, hreport, if_pos hcount]
    cases o.quiet <;> rfl
  · rw [quietOutcome_of_size_ne hcount, reportOutcome_of_size_ne hcount, ite_self, if_neg hcount]
    rfl

end

/-! ## Runs that ask -/

/-- The outcome with a question before its output. -/
def Outcome.after (question : String) (outcome : Outcome) : Outcome :=
  { outcome with output := question ++ outcome.output }

/-- The questions of a run without operands: the second one comes after a table only. -/
def questions (tableText : String) : String :=
  match TruthTable.ofText tableText with
  | .error _ => tablePrompt
  | .ok table => tablePrompt ++ namesPrompt table.width

/-- The input that answers the questions: the table, and the names on the next line. -/
def answerLines (tableText : String) (names : List String) : List Char :=
  tableText.toList ++ '\n' :: ((" ".intercalate names).toList ++ ['\n'])

/-- The outcome for a table and names that are given as texts. -/
def outcomeOn (o : Options) (tableText namesText : String) : Outcome :=
  match TruthTable.ofText tableText with
  | .error e => .failure e
  | .ok table => outcome o table namesText

/-- Options that ask for a minimization, without an operand. -/
structure OptionsOnly (args : List String) (o : Options) : Prop where
  separator_not_mem : "--" ∉ args
  ofArguments_eq : Command.ofArguments args = .ok (.minimize o)
  operands_eq : o.operands = []

/-- Blank names for a function that has variables. A single empty name does not count. -/
structure BlankNames (tableText : String) (names : List String) : Prop where
  exists_table : ∃ table, TruthTable.ofText tableText = .ok table ∧ table.width ≠ 0
  isBlank_of_mem : ∀ name ∈ names, Text.IsBlank name
  ne_empty : names ≠ [""]

section

variable {o : Options} {args names : List String} {tableText : String}

theorem Session.replay_ask {question line : String} {answer : String → Session}
    (h : '\n' ∉ line.toList) (rest : List Char) :
    (ask question answer).replay (line.toList ++ '\n' :: rest) =
      ((answer (Text.trim line)).replay rest).after question := by
  have hline := Text.decide_ne_of_not_mem h
  rw [replay, List.takeWhile_append_of_pos hline, List.dropWhile_append_of_pos hline,
    List.takeWhile_cons_of_neg (by simp), List.dropWhile_cons_of_neg (by simp), List.append_nil,
    String.ofList_toList]
  rfl

/-- A run with a table and names as operands comes to their outcome. -/
theorem Session.ofArguments_eq_finish (h : OptionsOnly args o) (hne : names ≠ [])
    (tableText : String) :
    ofArguments (args ++ "--" :: tableText :: names) =
      .finish (outcomeOn o tableText (" ".intercalate names)) := by
  rw [ofArguments_append_operands h.separator_not_mem h.ofArguments_eq h.operands_eq]
  unfold withTable outcomeOn
  cases TruthTable.ofText tableText with
  | error e => rfl
  | ok table =>
    cases names with
    | nil => exact absurd rfl hne
    | cons name names => rfl

/-- A run without operands comes to the outcome of the trimmed names, after its questions. -/
theorem Session.replay_answerLines (h : OptionsOnly args o) (htable : '\n' ∉ tableText.toList)
    (hnames : ∀ name ∈ names, '\n' ∉ name.toList) :
    (ofArguments args).replay (answerLines tableText names) =
      (outcomeOn o tableText (Text.trim (" ".intercalate names))).after (questions tableText) := by
  have hask : ofArguments args = .ask tablePrompt (withTable o []) := by
    unfold ofArguments
    rw [h.ofArguments_eq]
    simp only [h.operands_eq]
  rw [hask, answerLines, replay_ask htable]
  unfold withTable outcomeOn questions
  rw [TruthTable.ofText_trim]
  cases TruthTable.ofText tableText with
  | error e => rfl
  | ok table =>
    show ((ask _ _).replay _).after _ = _
    rw [replay_ask (newline_not_mem_intercalate hnames)]
    simp only [replay, Outcome.after, String.append_assoc]

theorem outcomeOn_trim (hne : names ≠ []) (h : ¬ BlankNames tableText names) :
    outcomeOn o tableText (Text.trim (" ".intercalate names)) =
      outcomeOn o tableText (" ".intercalate names) := by
  unfold outcomeOn
  split
  · rfl
  · rename_i table htable
    unfold outcome
    rw [readNames_trim fun hblank => ?_]
    -- a blank text is empty or there are no variables, or else the names are blank
    by_contra hnot
    rw [not_or, intercalate_eq_empty_iff hne] at hnot
    exact h ⟨⟨table, htable, hnot.2⟩, isBlank_intercalate_iff.1 hblank, hnot.1⟩

/-- Blank names are no names as arguments, and made up as an answer. -/
theorem BlankNames.status_outcomeOn (h : BlankNames tableText names) (hne : names ≠ []) :
    (outcomeOn o tableText (" ".intercalate names)).status = 1 ∧
      (outcomeOn o tableText (Text.trim (" ".intercalate names))).status = 0 := by
  obtain ⟨⟨table, htable, hwidth⟩, hblank, hnames⟩ := h
  have hblank := isBlank_intercalate_iff.2 hblank
  have hempty := (intercalate_eq_empty_iff hne).not.2 hnames
  have hgiven : readNames table.width (" ".intercalate names) = .ok ∅ := by
    rw [readNames_of_ne hempty, Names.ofText_of_isBlank hblank]
  unfold outcomeOn
  rw [htable, Text.trim_eq_empty_iff.2 hblank]
  simp only [status_outcome hgiven, status_outcome (readNames_empty table.width)]
  exact ⟨if_neg fun hcount => hwidth hcount.symm, if_pos (Names.size_generic table.width)⟩

end

/--
**Arguments and answers come to the same**, unless the names are blank and the function has
variables: then the arguments are refused, and the answers give made-up names.
-/
theorem Session.answers_agree_iff {args : List String} {o : Options} (h : OptionsOnly args o)
    {tableText : String} {names : List String} (hne : names ≠ [])
    (htable : '\n' ∉ tableText.toList) (hnames : ∀ name ∈ names, '\n' ∉ name.toList) :
    ∃ given, ofArguments (args ++ "--" :: tableText :: names) = .finish given ∧
      ((ofArguments args).replay (answerLines tableText names) = given.after (questions tableText) ↔
        ¬ BlankNames tableText names) ∧
      (BlankNames tableText names → given.status = 1 ∧
        ((ofArguments args).replay (answerLines tableText names)).status = 0) := by
  have hdiffer := fun hblank : BlankNames tableText names => hblank.status_outcomeOn (o := o) hne
  refine ⟨_, ofArguments_eq_finish h hne tableText, ?_⟩
  rw [replay_answerLines h htable hnames]
  refine ⟨⟨fun hagree hblank => ?_, fun hblank => ?_⟩, hdiffer⟩
  · obtain ⟨hgiven, hasked⟩ := hdiffer hblank
    have hstatus := congrArg Outcome.status hagree
    simp only [Outcome.after, hgiven, hasked] at hstatus
    cases hstatus
  · rw [outcomeOn_trim hne hblank]

/-- Blanks around the texts make no difference; the last variable is 0 on the rows 0 and 2. -/
theorem Session.answers_agree_iff_quiet :
    OptionsOnly ["--quiet"] { quiet := true } ∧ ["a ", "b"] ≠ [] ∧ '\n' ∉ " 1x10".toList ∧
      (∀ name ∈ ["a ", "b"], '\n' ∉ name.toList) ∧ ¬ BlankNames " 1x10" ["a ", "b"] ∧
      ∃ given, ofArguments ["--quiet", "--", " 1x10", "a ", "b"] = .finish given ∧
        given.output = "b'\n" ∧
        (ofArguments ["--quiet"]).replay (answerLines " 1x10" ["a ", "b"]) =
          given.after (questions " 1x10") := by
  have hoptions : OptionsOnly ["--quiet"] { quiet := true } := ⟨by decide, rfl, rfl⟩
  have hne : ["a ", "b"] ≠ [] := by decide
  have htable : '\n' ∉ " 1x10".toList := by decide
  have hnames : ∀ name ∈ ["a ", "b"], '\n' ∉ name.toList := by decide
  have hnot : ¬ BlankNames " 1x10" ["a ", "b"] := fun h =>
    absurd (h.isBlank_of_mem "b" (by decide)) (by decide)
  obtain ⟨given, hgiven, hagree, -⟩ := answers_agree_iff hoptions hne htable hnames
  have houtput :
      ((ofArguments ["--quiet", "--", " 1x10", "a ", "b"]).replay []).output = "b'\n" := by
    decide +kernel
  have hreplay := congrArg (fun session => (session.replay []).output) hgiven
  exact ⟨hoptions, hne, htable, hnames, hnot, given, hgiven, hreplay.symm.trans houtput,
    hagree.2 hnot⟩

/-- A single name of one space: two variables have no names, or made-up ones. -/
theorem Session.answers_differ_space :
    '\n' ∉ "1010".toList ∧ '\n' ∉ " ".toList ∧
      ((ofArguments ["--", "1010", " "]).replay []).status = 1 ∧
      ((ofArguments []).replay (answerLines "1010" [" "])).status = 0 := by decide +kernel

end CommandLine

end TwoLevel
