import TwoLevel.Proofs.Spelling.Reading

/-!
# Expressions determine their terms

In the textbook's and in the symbolic spelling an expression can be read back, whatever the names:
there may be fewer or more of them than variables (**`readsBack_of_width_eq`**). What is needed
beyond reading with a name for each variable is that the text of every variable tells its bit. A
variable without a name is its bit between underscores, which is no identifier for want of a letter.

The spelling in words cannot be read back, since `true` may be the name of a variable.
-/

namespace TwoLevel

/-! ## The bit of a text -/

namespace Names

/-- The number between two underscores. -/
def placeholderBit? (text : String) : Option Nat :=
  match text.toList with
  | '_' :: cs => if cs.getLast? = some '_' then (String.ofList cs.dropLast).toNat? else none
  | _ => none

/-- The bit of a variable, given by its name or by its number. -/
def bitOfLabel? (names : Names) (text : String) : Option Nat :=
  (names.bitOf? text).or (placeholderBit? text)

section

variable {names : Names} {bit : Nat}

theorem not_isAlpha_of_mem_label (h : names.nameOfBit? bit = none) :
    ∀ c ∈ (names.label bit).toList, ¬ c.isAlpha = true := by
  intro c hc halpha
  have hlead := isLeadChar_of_isAlpha halpha
  rw [toList_label_of_none h] at hc
  rcases List.mem_append.1 hc with hc | hc
  · rcases List.mem_cons.1 hc with rfl | hc
    · cases hlead
    · simp [isLeadChar, Text.isDigit_of_mem_repr hc] at hlead
  · obtain rfl := List.mem_singleton.1 hc
    cases hlead

theorem label_not_mem (h : names.nameOfBit? bit = none) : names.label bit ∉ names.toList := by
  intro hmem
  obtain ⟨c, hc, halpha⟩ := (isIdentifier_iff.1 (names.isIdentifier_of_mem _ hmem)).exists_isAlpha
  exact not_isAlpha_of_mem_label h c hc halpha

theorem placeholderBit?_label (h : names.nameOfBit? bit = none) :
    placeholderBit? (names.label bit) = some bit := by
  have hlast : (bit.repr.toList ++ ['_']).getLast? = some '_' := by simp
  unfold placeholderBit?
  rw [toList_label_of_none h]
  simp only [List.cons_append, if_pos hlast, List.dropLast_concat, String.ofList_toList]
  exact Nat.toNat?_repr bit

/-- **The text of a variable tells its bit.** -/
theorem bitOfLabel?_label (names : Names) (bit : Nat) :
    names.bitOfLabel? (names.label bit) = some bit := by
  rcases Nat.lt_or_ge bit names.size with hlt | hle
  · rw [bitOfLabel?, bitOf?_label hlt, Option.some_or]
  · have hnone := nameOfBit?_eq_none_iff.2 hle
    have hbit : names.bitOf? (names.label bit) = none := by
      rw [bitOf?, List.idxOf?_eq_none_iff.2 (label_not_mem hnone), Option.map_none]
    rw [bitOfLabel?, hbit, Option.none_or, placeholderBit?_label hnone]

end

end Names

/-! ## Reading cubes -/

namespace Spelling

/-- Reads the cubes of some width of a sum. -/
def readCubes? (s : Spelling) (names : Names) (width : Nat) (text : String) : Option (List Cube) :=
  (s.readSum? names.bitOfLabel? text).map (·.map (Cube.ofFactors width))

theorem legible_symbolic : symbolic.Legible '|' '&' '!' := by
  constructor
  case isDigit_trueText | isDigit_falseText => exact List.all_eq_true.1 (by decide)
  all_goals decide

/-- What it means that the expression of some terms of one width can be read back. -/
structure ReadsBack (s : Spelling) (names : Names) (width : Nat) (terms : List Term) : Prop where
  readCubes?_eq : s.readCubes? names width (s.sum names terms) = some (terms.map (·.cube))
  /-- The constant 0 is the sum without terms only. -/
  sum_eq_zero_iff : s.sum names terms = "0" ↔ terms = []
  /-- The constant 1 is the product of a free term only. -/
  product_eq_one_iff : ∀ t ∈ terms, s.product names t.cube = "1" ↔ t.cube.isFree = true
  /-- No product is the constant 0. -/
  product_ne_zero : ∀ t ∈ terms, s.product names t.cube ≠ "0"
  /-- Other terms of that width have another expression. -/
  unique : ∀ others : List Term, (∀ t ∈ others, t.width = width) →
    s.sum names others = s.sum names terms → others.map (·.cube) = terms.map (·.cube)

section

variable {s : Spelling} {orMark andMark notMark : Char} (h : s.Legible orMark andMark notMark)
  {names : Names} {width : Nat} {terms : List Term}

include h

theorem readCubes?_sum (hwidth : ∀ t ∈ terms, t.width = width) :
    s.readCubes? names width (s.sum names terms) = some (terms.map (·.cube)) := by
  have hread : s.readSum? names.bitOfLabel? (s.sum names terms) =
      some (terms.map (·.cube.factors)) :=
    readSum?_sum h fun _ _ l _ => names.bitOfLabel?_label l.bit
  rw [readCubes?, hread, Option.map_some, List.map_map]
  congr 1
  refine List.map_congr_left fun t ht => ?_
  rw [Function.comp_apply, ← hwidth t ht]
  exact t.cube.ofFactors_factors

theorem sum_eq_falseText_iff : s.sum names terms = s.falseText ↔ terms = [] := by
  constructor
  · intro heq
    exact Decidable.byContradiction fun hne => sum_ne_falseText h hne heq
  · rintro rfl
    rfl

theorem product_eq_trueText_iff {c : Cube} :
    s.product names c = s.trueText ↔ c.isFree = true := by
  cases hfree : c.isFree with
  | true => simp [product, hfree]
  | false =>
    have hne : (s.product names c).toList ≠ s.trueText.toList :=
      product_ne_of_isDigit h hfree h.isDigit_trueText
    simp [← String.toList_inj, hne]

theorem readsBack_of_legible (htrue : s.trueText = "1") (hfalse : s.falseText = "0")
    (hwidth : ∀ t ∈ terms, t.width = width) : s.ReadsBack names width terms where
  readCubes?_eq := readCubes?_sum h hwidth
  sum_eq_zero_iff := hfalse ▸ sum_eq_falseText_iff h
  product_eq_one_iff _ _ := htrue ▸ product_eq_trueText_iff h
  product_ne_zero t _ heq :=
    product_ne_falseText h t.cube (congrArg String.toList (heq.trans hfalse.symm))
  unique others hothers heq := by
    have hread : s.readCubes? names width (s.sum names others) = some (others.map (·.cube)) :=
      readCubes?_sum h hothers
    rw [heq, readCubes?_sum h hwidth] at hread
    exact (Option.some.inj hread).symm

end

/-- **An expression in the textbook's or in the symbolic spelling can be read back.** -/
theorem readsBack_of_width_eq {s : Spelling} (hs : s = textbook ∨ s = symbolic) (names : Names)
    {width : Nat} {terms : List Term} (hwidth : ∀ t ∈ terms, t.width = width) :
    s.ReadsBack names width terms := by
  rcases hs with rfl | rfl
  · exact readsBack_of_legible legible_textbook rfl rfl hwidth
  · exact readsBack_of_legible legible_symbolic rfl rfl hwidth

/-- Three variables with two names, so that the first is a number. -/
theorem readsBack_of_width_eq_letters_two :
    symbolic.sum (.letters 2) [.ofCube [.one, .free, .zero], .ofCube [.free, .free, .free]] =
        "!_2_ & b | 1" ∧
      symbolic.ReadsBack (.letters 2) 3
        [.ofCube [.one, .free, .zero], .ofCube [.free, .free, .free]] :=
  ⟨by decide +kernel, readsBack_of_width_eq (.inr rfl) (.letters 2) (by decide)⟩

end Spelling

end TwoLevel
