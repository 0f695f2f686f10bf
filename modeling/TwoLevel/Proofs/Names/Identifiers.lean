import TwoLevel.Names

/-!
# What an identifier is made of

The scanner for identifiers drops a lead and looks at the rest. The texts it accepts have a plain
description (**`isIdentifier_iff`**): they are made of letters, digits and underscores, hold a
letter, and do not start with a digit. So no identifier is a constant or holds an operator.
-/

namespace TwoLevel.Names

/-- A text that may be the name of a variable. -/
structure Identifier (text : List Char) : Prop where
  isWordChar_of_mem : ∀ c ∈ text, isWordChar c = true
  exists_isAlpha : ∃ c ∈ text, c.isAlpha = true
  isDigit_head : ∀ c cs, text = c :: cs → c.isDigit = false

/-! ## Characters -/

theorem le_toNat_of_isAlpha {c : Char} (h : c.isAlpha = true) : 65 ≤ c.toNat := by
  have hletter : (c.isUpper || c.isLower) = true := h
  rcases Bool.or_eq_true_iff.1 hletter with hupper | hlower
  · exact (of_decide_eq_true hupper).1
  · have hcode : 97 ≤ c.toNat := of_decide_eq_true (Bool.and_eq_true_iff.1 hlower).1
    omega

theorem isDigit_of_isAlpha {c : Char} (h : c.isAlpha = true) : c.isDigit = false := by
  have hcode := le_toNat_of_isAlpha h
  rw [Bool.eq_false_iff, Ne, Char.isDigit_iff_toNat]
  rintro ⟨-, hle⟩
  have hle : c.toNat ≤ 57 := hle
  omega

theorem isLeadChar_of_isAlpha {c : Char} (h : c.isAlpha = true) : isLeadChar c = false := by
  have hne : c ≠ '_' := by
    rintro rfl
    revert h
    decide
  simp [isLeadChar, isDigit_of_isAlpha h, hne]

theorem isAlpha_of_isWordChar {c : Char} (h : isWordChar c = true)
    (hlead : isLeadChar c = false) : c.isAlpha = true := by
  simp only [isLeadChar, Bool.or_eq_false_iff] at hlead
  simpa [isWordChar, Char.isAlphanum, hlead.1, hlead.2] using h

/-! ## The scanner -/

theorem isPlainIdentifier_cons_iff {c : Char} {cs : List Char} :
    isPlainIdentifier (c :: cs) = true ↔
      c.isAlpha = true ∧ ∀ d ∈ c :: cs, isWordChar d = true := by
  simp only [isPlainIdentifier, Bool.and_eq_true, List.all_eq_true, List.forall_mem_cons]
  constructor
  · rintro ⟨hc, hcs⟩
    exact ⟨hc, isWordChar_of_isAlpha hc, hcs⟩
  · rintro ⟨hc, -, hcs⟩
    exact ⟨hc, hcs⟩

/-- What follows a lead is a plain identifier if there are word characters only, with a letter. -/
theorem isPlainIdentifier_dropWhile_iff {text : List Char} :
    isPlainIdentifier (text.dropWhile isLeadChar) = true ↔
      (∀ c ∈ text, isWordChar c = true) ∧ ∃ c ∈ text, c.isAlpha = true := by
  induction text with
  | nil => simp [isPlainIdentifier]
  | cons c cs ih =>
    by_cases hlead : isLeadChar c = true
    · have hc : ¬ c.isAlpha = true := by
        intro halpha
        rw [isLeadChar_of_isAlpha halpha] at hlead
        cases hlead
      rw [List.dropWhile_cons_of_pos hlead, ih]
      simp [hc, isWordChar_of_isLeadChar hlead]
    · rw [List.dropWhile_cons_of_neg hlead, isPlainIdentifier_cons_iff]
      constructor
      · rintro ⟨halpha, hword⟩
        exact ⟨hword, c, by simp, halpha⟩
      · rintro ⟨hword, -⟩
        exact ⟨isAlpha_of_isWordChar (hword c (by simp)) (by simpa using hlead), hword⟩

theorem isIdentifier_cons {c : Char} {cs : List Char} (h : c.isDigit = false) :
    isIdentifier (c :: cs) = isPlainIdentifier ((c :: cs).dropWhile isLeadChar) := by
  by_cases hc : c = '_'
  · have hlead : isLeadChar c = true := by simp [isLeadChar, hc]
    simp [isIdentifier, hc, List.dropWhile_cons_of_pos (hc ▸ hlead)]
  · have hlead : ¬ isLeadChar c = true := by simp [isLeadChar, hc, h]
    simp [isIdentifier, hc, List.dropWhile_cons_of_neg hlead]

theorem isIdentifier_iff {text : List Char} : isIdentifier text = true ↔ Identifier text := by
  cases text with
  | nil =>
    constructor
    · intro h
      cases h
    · rintro ⟨-, ⟨c, hc, -⟩, -⟩
      cases hc
  | cons c cs =>
    by_cases hdigit : c.isDigit = true
    · constructor
      · intro h
        have hc : c ≠ '_' := by
          rintro rfl
          revert hdigit
          decide
        have halpha := (isPlainIdentifier_cons_iff.1 (by simpa [isIdentifier, hc] using h)).1
        rw [isDigit_of_isAlpha halpha] at hdigit
        cases hdigit
      · rintro ⟨-, -, hhead⟩
        rw [hhead c cs rfl] at hdigit
        cases hdigit
    · have hdigit : c.isDigit = false := by simpa using hdigit
      rw [isIdentifier_cons hdigit, isPlainIdentifier_dropWhile_iff]
      constructor
      · rintro ⟨hword, halpha⟩
        refine ⟨hword, halpha, fun d ds h => ?_⟩
        cases h
        exact hdigit
      · rintro ⟨hword, halpha, -⟩
        exact ⟨hword, halpha⟩

end TwoLevel.Names
