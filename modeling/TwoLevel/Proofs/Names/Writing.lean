import TwoLevel.Proofs.Names.Grammar
import TwoLevel.Proofs.Names.Reading
import TwoLevel.Proofs.Text.Blanks

/-!
# Names and their texts

The names of a list are found again in its text, whether they were read or made up: no identifier
is empty or holds a separator (**`pieces_text`**). With what `Reading` says of the texts that are
lists of names and of those that are not, and the grammar of a name, this settles the reader
(**`listing_exact`**).
-/

namespace TwoLevel.Names

variable {names : Names}

theorem isSeparator_of_isWordChar {c : Char} (h : isWordChar c = true) : isSeparator c = false :=
  of_isWordChar (p := fun c => isWordChar c = true → isSeparator c = false) (by decide) h h

theorem identifier_of_mem {name : String} (h : name ∈ names.toList) : Identifier name.toList :=
  isIdentifier_iff.1 (names.isIdentifier_of_mem name h)

/-- The pieces of the text of a list are its names. -/
theorem pieces_text (names : Names) : pieces names.text = names.toList := by
  have hwords : Text.words isSeparator ([' '].intercalate (names.toList.map String.toList)) =
      names.toList.map String.toList := by
    refine Text.words_intercalate (by decide) ?_ ?_
    · rintro _ htext rfl
      obtain ⟨name, hname, hempty⟩ := List.mem_map.1 htext
      obtain ⟨c, hc, -⟩ := (identifier_of_mem hname).exists_isAlpha
      rw [hempty] at hc
      exact List.not_mem_nil hc
    · intro text htext c hc
      obtain ⟨name, hname, rfl⟩ := List.mem_map.1 htext
      exact isSeparator_of_isWordChar ((identifier_of_mem hname).isWordChar_of_mem c hc)
  rw [pieces, text, String.toList_intercalate]
  show (Text.words isSeparator ([' '].intercalate (names.toList.map String.toList))).map
    String.ofList = names.toList
  rw [hwords, List.map_map]
  simp [Function.comp_def]

/-- Distinct identifiers are the names of a list. -/
theorem exists_toList_eq_iff {list : List String} :
    (∃ names : Names, list = names.toList) ↔
      list.Nodup ∧ ∀ name ∈ list, Identifier name.toList := by
  constructor
  · rintro ⟨names, rfl⟩
    exact ⟨names.nodup, fun name hname => identifier_of_mem hname⟩
  · rintro ⟨hnodup, hid⟩
    exact ⟨⟨list, fun name hname => isIdentifier_iff.2 (hid name hname), hnodup⟩, rfl⟩

/--
**A text is read exactly if its pieces are distinct identifiers.** The names are then its pieces,
and otherwise the first piece that is no identifier, or repeats an earlier one, makes the error. An
identifier is a text of the grammar of names. What is written for a list of names, read or made up,
is read as that list.
-/
theorem listing_exact (text : String) :
    (∀ names, ofText text = .ok names ↔ names.WrittenIn text) ∧
      ((∃ names, ofText text = .ok names) ↔
        (pieces text).Nodup ∧ ∀ piece ∈ pieces text, Identifier piece.toList) ∧
      (∀ e, ofText text = .error e ↔ Fault text e) ∧
      (∀ piece, Identifier piece ↔ piece ∈ identifierPattern.matches') ∧
      ∀ names : Names, ofText names.text = .ok names := by
  refine ⟨fun names => ofText_eq_ok_iff, ?_, fun e => ofText_eq_error_iff,
    fun piece => mem_matches'_identifierPattern.symm,
    fun names => ofText_eq_ok_iff.2 (pieces_text names)⟩
  rw [← exists_toList_eq_iff]
  exact exists_congr fun names => ofText_eq_ok_iff

/-- Any run of blanks, commas and semicolons separates two names. -/
example : (ofText " A  B;C,d_1 ").map (·.text) = .ok "A B C d_1" := by decide +kernel

end TwoLevel.Names
