import Mathlib.Computability.RegularExpressions
import Mathlib.Data.List.TakeWhile
import TwoLevel.Names
import TwoLevel.Proofs.Names.Identifiers

/-!
# Identifiers as a regular expression

The grammar of a name is `(_[0-9_]*)?[a-zA-Z][a-zA-Z0-9_]*`. Its parts overlap: a digit or an
underscore may belong to the lead or to the end. Yet the first letter of a text can only be where
the lead stops, so that the texts of the grammar are the identifiers
(**`mem_matches'_identifierPattern`**).

A class of characters is a sum of single characters; all classes lie in ASCII, where their members
are found by looking at each code.
-/

namespace TwoLevel.Names

/-! ## The grammar -/

/-- One of some characters. -/
def oneOf : List Char → RegularExpression Char
  | [] => 0
  | c :: cs => .char c + oneOf cs

/-- The upper-case letters. -/
def capitals : List Char := "ABCDEFGHIJKLMNOPQRSTUVWXYZ".toList

/-- The characters of a lead. -/
def leadChars : List Char := "0123456789_".toList

/-- The grammar of a name: an optional lead that starts with an underscore, a letter, the rest. -/
def identifierPattern : RegularExpression Char :=
  (1 + .char '_' * (oneOf leadChars).star) *
    (oneOf (alphabet ++ capitals) * (oneOf (alphabet ++ capitals ++ leadChars)).star)

/-! ## Classes of characters -/

theorem toNat_lt_of_isWordChar {c : Char} (h : isWordChar c = true) : c.toNat < 128 := by
  have hcases : ((c.isUpper || c.isLower) || c.isDigit || decide (c = '_')) = true := h
  simp only [Bool.or_eq_true, decide_eq_true_eq] at hcases
  rcases hcases with ((hupper | hlower) | hdigit) | rfl
  · have hcode : c.toNat ≤ 90 := (of_decide_eq_true hupper).2
    omega
  · have hcode : c.toNat ≤ 122 := of_decide_eq_true (Bool.and_eq_true_iff.1 hlower).2
    omega
  · have hcode : c.toNat ≤ 57 := (Char.isDigit_iff_toNat.1 hdigit).2
    omega
  · decide

/-- What holds of each code below 128 holds of each word character. -/
theorem of_isWordChar {p : Char → Prop} (h : ∀ n < 128, p (Char.ofNat n)) {c : Char}
    (hc : isWordChar c = true) : p c :=
  Char.ofNat_toNat c ▸ h c.toNat (toNat_lt_of_isWordChar hc)

theorem mem_leadChars {c : Char} : c ∈ leadChars ↔ isLeadChar c = true := by
  constructor
  · exact List.all_eq_true.1 (by decide) c
  · intro h
    exact of_isWordChar (p := fun c => isLeadChar c = true → c ∈ leadChars) (by decide)
      (isWordChar_of_isLeadChar h) h

theorem mem_letters {c : Char} : c ∈ alphabet ++ capitals ↔ c.isAlpha = true := by
  constructor
  · exact List.all_eq_true.1 (by decide) c
  · intro h
    exact of_isWordChar (p := fun c => c.isAlpha = true → c ∈ alphabet ++ capitals) (by decide)
      (isWordChar_of_isAlpha h) h

theorem mem_wordChars {c : Char} :
    c ∈ alphabet ++ capitals ++ leadChars ↔ isWordChar c = true := by
  rw [List.mem_append, mem_letters, mem_leadChars]
  simp [isWordChar, isLeadChar, Char.isAlphanum, or_assoc]

/-! ## The texts of the grammar -/

theorem mem_matches'_oneOf {cs text : List Char} :
    text ∈ (oneOf cs).matches' ↔ ∃ c ∈ cs, text = [c] := by
  induction cs with
  | nil => simp [oneOf]
  | cons c cs ih =>
    rw [oneOf, RegularExpression.matches'_add, Language.mem_add, ih, List.exists_mem_cons_iff]
    exact or_congr_left Set.mem_singleton_iff

theorem mem_matches'_star_oneOf {cs text : List Char} :
    text ∈ (oneOf cs).star.matches' ↔ ∀ c ∈ text, c ∈ cs := by
  rw [RegularExpression.matches'_star, Language.mem_kstar]
  constructor
  · rintro ⟨words, rfl, hwords⟩ c hc
    obtain ⟨word, hword, hc⟩ := List.mem_flatten.1 hc
    obtain ⟨d, hd, rfl⟩ := mem_matches'_oneOf.1 (hwords word hword)
    rwa [List.mem_singleton.1 hc]
  · intro h
    -- each character is a word of its own
    refine ⟨text.map fun c => [c], (List.flatMap_singleton' text).symm, fun word hword => ?_⟩
    obtain ⟨c, hc, rfl⟩ := List.mem_map.1 hword
    exact mem_matches'_oneOf.2 ⟨c, h c hc, rfl⟩

theorem mem_matches'_lead {lead : List Char} :
    lead ∈ (1 + .char '_' * (oneOf leadChars).star : RegularExpression Char).matches' ↔
      lead = [] ∨ ∃ cs, lead = '_' :: cs ∧ ∀ c ∈ cs, isLeadChar c = true := by
  rw [RegularExpression.matches'_add, RegularExpression.matches'_epsilon,
    RegularExpression.matches'_mul, RegularExpression.matches'_char, Language.mem_add,
    Language.mem_one, Language.mem_mul]
  refine or_congr_right ?_
  constructor
  · rintro ⟨_, rfl, cs, hcs, rfl⟩
    exact ⟨cs, rfl, fun c hc => mem_leadChars.1 (mem_matches'_star_oneOf.1 hcs c hc)⟩
  · rintro ⟨cs, rfl, hcs⟩
    exact ⟨['_'], rfl, cs, mem_matches'_star_oneOf.2 fun c hc => mem_leadChars.2 (hcs c hc), rfl⟩

theorem mem_matches'_plain {text : List Char} :
    text ∈ (oneOf (alphabet ++ capitals) *
        (oneOf (alphabet ++ capitals ++ leadChars)).star).matches' ↔
      isPlainIdentifier text = true := by
  rw [RegularExpression.matches'_mul, Language.mem_mul]
  constructor
  · rintro ⟨_, hfirst, rest, hrest, rfl⟩
    obtain ⟨c, hc, rfl⟩ := mem_matches'_oneOf.1 hfirst
    have hword : ∀ d ∈ rest, isWordChar d = true := fun d hd =>
      mem_wordChars.1 (mem_matches'_star_oneOf.1 hrest d hd)
    simpa [isPlainIdentifier, mem_letters.1 hc] using hword
  · cases text with
    | nil => exact fun h => absurd h (by decide)
    | cons c cs =>
      intro h
      obtain ⟨hc, hcs⟩ := isPlainIdentifier_cons_iff.1 h
      exact ⟨[c], mem_matches'_oneOf.2 ⟨c, mem_letters.2 hc, rfl⟩, cs,
        mem_matches'_star_oneOf.2 fun d hd => mem_wordChars.2 (hcs d (List.mem_cons_of_mem c hd)),
        rfl⟩

/-- **The texts of the grammar are the identifiers.** -/
theorem mem_matches'_identifierPattern {text : List Char} :
    text ∈ identifierPattern.matches' ↔ Identifier text := by
  rw [identifierPattern, RegularExpression.matches'_mul, Language.mem_mul, ← isIdentifier_iff]
  constructor
  · rintro ⟨lead, hlead, rest, hrest, rfl⟩
    have hplain := mem_matches'_plain.1 hrest
    rcases mem_matches'_lead.1 hlead with rfl | ⟨cs, rfl, hcs⟩
    · exact isIdentifier_of_isPlainIdentifier hplain
    · -- what the lead leaves over starts with a letter, which ends a run of lead characters
      have hstop : (cs ++ rest).dropWhile isLeadChar = rest.dropWhile isLeadChar :=
        List.dropWhile_append_of_pos hcs
      have hdrop : isPlainIdentifier (rest.dropWhile isLeadChar) = true := by
        cases rest with
        | nil => exact hplain
        | cons c rest =>
          have hc := isLeadChar_of_isAlpha (isPlainIdentifier_cons_iff.1 hplain).1
          rwa [List.dropWhile_cons_of_neg (by simp [hc])]
      show (if '_' = '_' then isPlainIdentifier ((cs ++ rest).dropWhile isLeadChar)
        else isPlainIdentifier ('_' :: (cs ++ rest))) = true
      rw [if_pos rfl, hstop, hdrop]
  · intro h
    cases text with
    | nil => cases h
    | cons c cs =>
      by_cases hc : c = '_'
      · have hplain : isPlainIdentifier (cs.dropWhile isLeadChar) = true := by
          simpa [isIdentifier, hc] using h
        refine ⟨'_' :: cs.takeWhile isLeadChar,
          mem_matches'_lead.2 (.inr ⟨_, rfl, fun d hd => List.mem_takeWhile_imp hd⟩),
          cs.dropWhile isLeadChar, mem_matches'_plain.2 hplain, ?_⟩
        rw [List.cons_append, List.takeWhile_append_dropWhile, hc]
      · have hplain : isPlainIdentifier (c :: cs) = true := by simpa [isIdentifier, hc] using h
        exact ⟨[], mem_matches'_lead.2 (.inl rfl), c :: cs, mem_matches'_plain.2 hplain, rfl⟩

end TwoLevel.Names
