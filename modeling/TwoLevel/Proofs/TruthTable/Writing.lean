import TwoLevel.Proofs.TruthTable.Reading

/-!
# Reading a table and writing it again

Six characters stand for outputs, four of them for the unspecified one, and the others for none. A
table that is read from symbols has the output of each at its row. It is written with the same
symbols, except that an unspecified output has one spelling only (`WrittenIn.spelledBy`). What is
written is read as the same table (`writtenIn_text`).

Together with the faults of a text, this says for every text what reading gives, and that writing is
undone by it (**`ofText_exact`**).
-/

namespace TwoLevel

namespace Output

/-- The characters that stand for an output. -/
def alphabet : List Char := ['0', '1', 'x', 'X', '-', '*']

/-- What each of the characters stands for. -/
inductive SpelledBy : Output → Char → Prop where
  | zero : SpelledBy .zero '0'
  | one : SpelledBy .one '1'
  | dontCare {c : Char} (h : c ∈ ['x', 'X', '-', '*']) : SpelledBy .dontCare c

/-- The character with the other spellings of an unspecified output replaced. -/
def normalized (c : Char) : Char := if c ∈ ['X', '-', '*'] then 'x' else c

theorem ofSymbol?_eq_some_iff {c : Char} {o : Output} :
    ofSymbol? c = some o ↔ o.SpelledBy c := by
  constructor
  · intro h
    unfold ofSymbol? at h
    split at h <;> cases h
    case h_1 => exact .zero
    case h_2 => exact .one
    all_goals exact .dontCare (by decide)
  · rintro (_ | _ | h)
    · rfl
    · rfl
    · simp only [List.mem_cons, List.not_mem_nil, or_false] at h
      rcases h with rfl | rfl | rfl | rfl <;> rfl

theorem mem_alphabet_iff {c : Char} : c ∈ alphabet ↔ (ofSymbol? c).isSome := by
  rw [Option.isSome_iff_exists]
  simp only [ofSymbol?_eq_some_iff]
  constructor
  · intro h
    simp only [alphabet, List.mem_cons, List.not_mem_nil, or_false] at h
    rcases h with rfl | rfl | h
    · exact ⟨_, .zero⟩
    · exact ⟨_, .one⟩
    · exact ⟨_, .dontCare (by simpa using h)⟩
  · rintro ⟨o, _ | _ | h⟩
    · decide
    · decide
    · exact List.mem_cons_of_mem _ (List.mem_cons_of_mem _ h)

theorem SpelledBy.symbol_eq {o : Output} {c : Char} (h : o.SpelledBy c) :
    o.symbol = normalized c := by
  cases h with
  | zero => rfl
  | one => rfl
  | dontCare h =>
    simp only [List.mem_cons, List.not_mem_nil, or_false] at h
    rcases h with rfl | rfl | rfl | rfl <;> rfl

theorem map_symbol_eq {cs : List Char} {outputs : List Output}
    (h : cs.map ofSymbol? = outputs.map some) : outputs.map (·.symbol) = cs.map normalized := by
  induction cs generalizing outputs with
  | nil =>
    cases outputs with
    | nil => rfl
    | cons o outputs => cases h
  | cons c cs ih =>
    cases outputs with
    | nil => cases h
    | cons o outputs =>
      rw [List.map_cons, List.map_cons, List.cons.injEq] at h
      obtain ⟨hc, hcs⟩ := h
      rw [List.map_cons, List.map_cons, ih hcs, (ofSymbol?_eq_some_iff.1 hc).symbol_eq]

theorem isBlank_symbol (o : Output) : Text.isBlank o.symbol = false := by cases o <;> decide

end Output

namespace TruthTable

variable {text : String} {table : TruthTable}

/-! ## Writing -/

/-- The table that a list of symbols gives: its rows, in order, and the text written for it. -/
structure SpelledBy (table : TruthTable) (cs : List Char) : Prop where
  length_eq : cs.length = mintermCount table.width
  output_spelledBy : ∀ m (h : m < cs.length), (table.output m).SpelledBy cs[m]
  text_eq : table.text = .ofList (cs.map Output.normalized)

theorem WrittenIn.spelledBy (h : table.WrittenIn text) : table.SpelledBy (symbols text) where
  length_eq := h.length_symbols
  output_spelledBy _ hm :=
    Output.ofSymbol?_eq_some_iff.1 (h.ofSymbol?_eq (List.getElem?_eq_getElem hm))
  text_eq := congrArg String.ofList (Output.map_symbol_eq h)

theorem symbols_text (table : TruthTable) :
    symbols table.text = table.outputs.toList.map (·.symbol) := by
  rw [symbols, text, String.toList_ofList, List.filter_eq_self]
  intro c hc
  obtain ⟨o, -, rfl⟩ := List.mem_map.1 hc
  rw [Output.isBlank_symbol, Bool.not_false]

theorem writtenIn_text (table : TruthTable) : table.WrittenIn table.text := by
  rw [WrittenIn, symbols_text, List.map_map]
  exact List.map_congr_left fun o _ => Output.ofSymbol?_symbol o

/-! ## Texts without a fault -/

theorem exists_writtenIn {width : Nat} (hlength : (symbols text).length = mintermCount width)
    (hwidth : width ≤ maxVariables) (hsymbols : ∀ c ∈ symbols text, c ∈ Output.alphabet) :
    ∃ table : TruthTable, table.WrittenIn text ∧ table.width = width := by
  rcases ofText_cases text with ⟨table, -, hwritten⟩ | ⟨e, -, hfault⟩
  · exact ⟨table, hwritten, mintermCount_inj (hwritten.length_symbols.symm.trans hlength)⟩
  · -- each fault is excluded by one of the hypotheses
    cases hfault with
    | length hnone => exact absurd hlength (hnone width)
    | width other hother hmax =>
      have := mintermCount_inj (hother.symm.trans hlength)
      omega
    | symbol other _ _ before c after hsplit _ hc =>
      have hmem := Output.mem_alphabet_iff.1 (hsymbols c (by simp [hsplit]))
      rw [hc] at hmem
      cases hmem

/--
**What reading a text gives.** The number of the symbols is looked at first, then the width, then
the symbols from the left; without a fault the result is the table that they spell. Every table is
read from the text that is written for it.
-/
theorem ofText_exact (text : String) :
    ((∀ width, (symbols text).length ≠ mintermCount width) →
        ofText text = .error (.tableLength (symbols text).length)) ∧
      (∀ width, (symbols text).length = mintermCount width →
        (maxVariables < width → ofText text = .error (.tooManyVariables width)) ∧
        (width ≤ maxVariables →
          (∀ before c after, symbols text = before ++ c :: after →
            (∀ d ∈ before, d ∈ Output.alphabet) → c ∉ Output.alphabet →
              ofText text = .error (.tableSymbol c before.length)) ∧
          ((∀ c ∈ symbols text, c ∈ Output.alphabet) →
            ∃ table, ofText text = .ok table ∧ table.width = width ∧
              table.SpelledBy (symbols text)))) ∧
      ∀ table : TruthTable, ofText table.text = .ok table := by
  refine ⟨fun hlength => ?_, fun width hlength => ⟨fun hwidth => ?_, fun hwidth => ⟨?_, ?_⟩⟩, ?_⟩
  · exact ofText_eq_error_iff.2 (.length hlength)
  · exact ofText_eq_error_iff.2 (.width width hlength hwidth)
  · intro before c after hsplit hbefore hc
    have hnone : Output.ofSymbol? c = none := by
      rwa [Output.mem_alphabet_iff, Option.not_isSome_iff_eq_none] at hc
    exact ofText_eq_error_iff.2 (.symbol width hlength hwidth before c after hsplit
      (fun d hd => Output.mem_alphabet_iff.1 (hbefore d hd)) hnone)
  · intro hsymbols
    obtain ⟨table, hwritten, htable⟩ := exists_writtenIn hlength hwidth hsymbols
    exact ⟨table, ofText_eq_ok_iff.2 hwritten, htable, hwritten.spelledBy⟩
  · exact fun table => ofText_eq_ok_iff.2 table.writtenIn_text

/-- An unspecified output is written in one way. -/
example : (ofText "0x01 -1*0").toOption.map TruthTable.text = some "0x01x1x0" := by decide +kernel

end TruthTable

end TwoLevel
