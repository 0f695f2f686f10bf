import TwoLevel.Proofs.Cube.Factors
import TwoLevel.Proofs.Names.Identifiers
import TwoLevel.Proofs.Text.Splitting
import TwoLevel.Spelling

/-!
# Reading expressions

An expression is read by splitting it into products, splitting each product into literals, and
taking the complement mark off the literals. What the writer makes of terms is read back as the
factors of their cubes (**`readSum?_sum`**), in every spelling whose operators can be told from
each other and from names (`Legible`). With a name for each variable nothing else is needed to read
the textbook's spelling (**`Names.readExpression?_sum`**).

The text of a variable is never mistaken for something else: it is made of word characters, so that
it holds no operator, and one of these is no digit, so that it is no constant.
-/

namespace TwoLevel

/-! ## Texts of variables -/

namespace Names

theorem toList_label_of_none {names : Names} {bit : Nat} (h : names.nameOfBit? bit = none) :
    (names.label bit).toList = '_' :: bit.repr.toList ++ ['_'] := by
  have htext : names.label bit = "_" ++ bit.repr ++ "_" := by
    rw [label, h]
    rfl
  rw [htext, String.toList_append, String.toList_append]
  rfl

theorem identifier_of_nameOfBit? {names : Names} {bit : Nat} {name : String}
    (h : names.nameOfBit? bit = some name) : Identifier name.toList := by
  have hmem : name ∈ names.toList := List.mem_reverse.1 (List.mem_of_getElem? h)
  exact isIdentifier_iff.1 (names.isIdentifier_of_mem name hmem)

theorem isWordChar_of_mem_label {names : Names} {bit : Nat} :
    ∀ c ∈ (names.label bit).toList, isWordChar c = true := by
  intro c hc
  cases hname : names.nameOfBit? bit with
  | none =>
    rw [toList_label_of_none hname] at hc
    rcases List.mem_append.1 hc with hc | hc
    · rcases List.mem_cons.1 hc with rfl | hc
      · decide
      · exact isWordChar_of_mem_toList_repr c hc
    · obtain rfl := List.mem_singleton.1 hc
      decide
  | some name =>
    rw [label, hname, Option.getD_some] at hc
    exact (identifier_of_nameOfBit? hname).isWordChar_of_mem c hc

theorem exists_mem_label_not_isDigit (names : Names) (bit : Nat) :
    ∃ c ∈ (names.label bit).toList, c.isDigit = false := by
  cases hname : names.nameOfBit? bit with
  | none => exact ⟨'_', by simp [toList_label_of_none hname], by decide⟩
  | some name =>
    obtain ⟨c, hc, halpha⟩ := (identifier_of_nameOfBit? hname).exists_isAlpha
    rw [label, hname, Option.getD_some]
    exact ⟨c, hc, isDigit_of_isAlpha halpha⟩

theorem not_mem_of_isWordChar {mark : Char} (hmark : isWordChar mark = false) {text : List Char}
    (htext : ∀ c ∈ text, isWordChar c = true) : mark ∉ text := by
  intro hmem
  rw [htext mark hmem] at hmark
  cases hmark

theorem not_mem_of_isDigit {mark : Char} (hmark : isWordChar mark = false) {text : List Char}
    (htext : ∀ c ∈ text, c.isDigit = true) : mark ∉ text := by
  refine not_mem_of_isWordChar hmark fun c hc => isWordChar_of_isLeadChar ?_
  simp [isLeadChar, htext c hc]

end Names

/-! ## The reader -/

namespace Spelling

/-- The text of the variable, if the text is complemented. -/
def complemented? (s : Spelling) (text : List Char) : Option (List Char) :=
  let mark := s.notText.toList
  if s.notFollows then
    if mark.isSuffixOf text then some (text.take (text.length - mark.length)) else none
  else if mark.isPrefixOf text then some (text.drop mark.length) else none

section

variable (s : Spelling) (bitOf? : String → Option Nat)

/-- Reads a variable, complemented or not; `bitOf?` tells the bit that a text stands for. -/
def readLiteral? (text : List Char) : Option Literal :=
  match s.complemented? text with
  | some name => (bitOf? (.ofList name)).map (⟨·, false⟩)
  | none => (bitOf? (.ofList text)).map (⟨·, true⟩)

/-- Reads a product; the constant 1 is the product without literals. -/
def readProduct? (text : List Char) : Option (List Literal) :=
  if text = s.trueText.toList then some []
  else (Text.parts s.andText.toList text).mapM (s.readLiteral? bitOf?)

/-- Reads a sum; the constant 0 is the sum without products. -/
def readSum? (text : String) : Option Expression :=
  if text = s.falseText then some []
  else (Text.parts s.orText.toList text.toList).mapM (s.readProduct? bitOf?)

end

/--
The operators of a spelling have marks that are no word characters. The mark of a sum is in no other
operator and that of a product not in the complement mark. The constants are different numerals.
-/
structure Legible (s : Spelling) (orMark andMark notMark : Char) : Prop where
  mem_orText : orMark ∈ s.orText.toList
  mem_andText : andMark ∈ s.andText.toList
  mem_notText : notMark ∈ s.notText.toList
  orMark_not_word : Names.isWordChar orMark = false
  andMark_not_word : Names.isWordChar andMark = false
  notMark_not_word : Names.isWordChar notMark = false
  orMark_not_mem_andText : orMark ∉ s.andText.toList
  orMark_not_mem_notText : orMark ∉ s.notText.toList
  andMark_not_mem_notText : andMark ∉ s.notText.toList
  isDigit_trueText : ∀ c ∈ s.trueText.toList, c.isDigit = true
  isDigit_falseText : ∀ c ∈ s.falseText.toList, c.isDigit = true
  trueText_ne_falseText : s.trueText ≠ s.falseText

theorem legible_textbook : textbook.Legible '+' '.' '\x27' := by
  constructor
  case isDigit_trueText | isDigit_falseText => exact List.all_eq_true.1 (by decide)
  all_goals decide

theorem mapM_eq_some_map {α β : Type} {f : α → Option β} {g : α → β} {xs : List α}
    (h : ∀ x ∈ xs, f x = some (g x)) : xs.mapM f = some (xs.map g) := by
  induction xs with
  | nil => rfl
  | cons x xs ih =>
    obtain ⟨hx, hxs⟩ := List.forall_mem_cons.1 h
    rw [List.mapM_cons, hx, ih hxs]
    rfl

/-! ## Literals -/

section

variable {s : Spelling} {names : Names} {bitOf? : String → Option Nat}

theorem literals_eq (s : Spelling) (names : Names) (c : Cube) :
    s.literals names c = c.factors.map fun l => s.literal (names.label l.bit) l.value := by
  rw [literals, Cube.factors, List.map_filterMap]
  congr 1
  funext x
  obtain ⟨digit, bit⟩ := x
  cases digit <;> rfl

theorem mem_literal {name : String} {value : Bool} {c : Char}
    (h : c ∈ (s.literal name value).toList) : c ∈ name.toList ∨ c ∈ s.notText.toList := by
  unfold literal at h
  split at h
  · exact .inl h
  · split at h
    · rwa [String.toList_append, List.mem_append] at h
    · rwa [String.toList_append, List.mem_append, or_comm] at h

theorem subset_literal {name : String} {value : Bool} :
    name.toList ⊆ (s.literal name value).toList := by
  intro c hc
  unfold literal
  split
  · exact hc
  · split <;> simp [hc]

theorem complemented?_literal (name : String) :
    s.complemented? (s.literal name false).toList = some name.toList := by
  unfold complemented? literal
  cases s.notFollows <;> simp

theorem mem_product {cube : Cube} {c : Char} (h : c ∈ (s.product names cube).toList) :
    Names.isWordChar c = true ∨ c ∈ s.trueText.toList ∨ c ∈ s.andText.toList ∨
      c ∈ s.notText.toList := by
  unfold product at h
  split at h
  · exact .inr (.inl h)
  · rw [String.toList_intercalate, literals_eq, List.map_map] at h
    rcases Text.mem_intercalate h with h | ⟨text, htext, h⟩
    · exact .inr (.inr (.inl h))
    · obtain ⟨l, -, rfl⟩ := List.mem_map.1 htext
      rcases mem_literal h with h | h
      · exact .inl (Names.isWordChar_of_mem_label c h)
      · exact .inr (.inr (.inr h))

theorem mem_sum {terms : List Term} {c : Char} (h : c ∈ (s.sum names terms).toList) :
    c ∈ s.falseText.toList ∨ c ∈ s.orText.toList ∨
      ∃ t ∈ terms, c ∈ (s.product names t.cube).toList := by
  unfold sum at h
  split at h
  · exact .inl h
  · rw [String.toList_intercalate, List.map_map] at h
    rcases Text.mem_intercalate h with h | ⟨text, htext, h⟩
    · exact .inr (.inl h)
    · obtain ⟨t, ht, rfl⟩ := List.mem_map.1 htext
      exact .inr (.inr ⟨t, ht, h⟩)

end

section

variable {s : Spelling} {orMark andMark notMark : Char} (h : s.Legible orMark andMark notMark)
  {names : Names} {bitOf? : String → Option Nat}

include h

theorem complemented?_of_isWordChar {text : List Char}
    (htext : ∀ c ∈ text, Names.isWordChar c = true) : s.complemented? text = none := by
  have hmark : notMark ∉ text := Names.not_mem_of_isWordChar h.notMark_not_word htext
  have hsuffix : ¬ s.notText.toList <:+ text := fun hs => hmark (hs.subset h.mem_notText)
  have hprefix : ¬ s.notText.toList <+: text := fun hp => hmark (hp.subset h.mem_notText)
  unfold complemented?
  simp [hsuffix, hprefix]

theorem readLiteral?_literal {name : String} {bit : Nat}
    (hname : ∀ c ∈ name.toList, Names.isWordChar c = true) (hbit : bitOf? name = some bit)
    (value : Bool) :
    s.readLiteral? bitOf? (s.literal name value).toList = some ⟨bit, value⟩ := by
  unfold readLiteral?
  cases value with
  | false => simp [complemented?_literal, hbit]
  | true => simp [literal, complemented?_of_isWordChar h hname, hbit]

/-! ## Products -/

theorem andMark_not_mem_literal (names : Names) (l : Literal) :
    andMark ∉ (s.literal (names.label l.bit) l.value).toList := by
  intro hmem
  rcases mem_literal hmem with hmem | hmem
  · exact Names.not_mem_of_isWordChar h.andMark_not_word Names.isWordChar_of_mem_label hmem
  · exact h.andMark_not_mem_notText hmem

theorem parts_product (names : Names) {c : Cube} (hfree : c.isFree = false) :
    Text.parts s.andText.toList (s.product names c).toList =
      c.factors.map fun l => (s.literal (names.label l.bit) l.value).toList := by
  have hne : c.factors ≠ [] := by
    rw [Ne, Cube.factors_eq_nil_iff, hfree]
    exact Bool.false_ne_true
  rw [product, if_neg (by simp [hfree]), String.toList_intercalate, literals_eq, List.map_map]
  refine Text.parts_intercalate h.mem_andText ?_ (by simpa using hne)
  intro text htext
  obtain ⟨l, -, rfl⟩ := List.mem_map.1 htext
  exact andMark_not_mem_literal h names l

/-- A product with a literal is no numeral. -/
theorem product_ne_of_isDigit {c : Cube} (hfree : c.isFree = false) {numeral : List Char}
    (hnumeral : ∀ d ∈ numeral, d.isDigit = true) : (s.product names c).toList ≠ numeral := by
  intro heq
  have hparts := parts_product h names hfree
  have hmark : andMark ∉ numeral := Names.not_mem_of_isDigit h.andMark_not_word hnumeral
  rw [heq, Text.parts_of_not_mem h.mem_andText hmark] at hparts
  -- the only part is the text of a literal, which holds a character that is no digit
  obtain ⟨l, -, hl⟩ := List.mem_map.1 (hparts ▸ List.mem_singleton_self numeral)
  obtain ⟨d, hd, hdigit⟩ := names.exists_mem_label_not_isDigit l.bit
  rw [hnumeral d (hl ▸ subset_literal hd)] at hdigit
  cases hdigit

theorem readProduct?_product {c : Cube}
    (hbit : ∀ l ∈ c.factors, bitOf? (names.label l.bit) = some l.bit) :
    s.readProduct? bitOf? (s.product names c).toList = some c.factors := by
  unfold readProduct?
  cases hfree : c.isFree with
  | true =>
    rw [product, hfree, Cube.factors_eq_nil_iff.2 hfree]
    simp
  | false =>
    rw [if_neg (product_ne_of_isDigit h hfree h.isDigit_trueText), parts_product h names hfree,
      List.mapM_map, mapM_eq_some_map (g := id), List.map_id]
    exact fun l hl => readLiteral?_literal h Names.isWordChar_of_mem_label (hbit l hl) l.value

/-! ## Sums -/

theorem orMark_not_mem_product (names : Names) (c : Cube) :
    orMark ∉ (s.product names c).toList := by
  intro hmem
  rcases mem_product hmem with hword | htrue | hand | hnot
  · rw [h.orMark_not_word] at hword
    cases hword
  · exact Names.not_mem_of_isDigit h.orMark_not_word h.isDigit_trueText htrue
  · exact h.orMark_not_mem_andText hand
  · exact h.orMark_not_mem_notText hnot

theorem parts_sum (names : Names) {terms : List Term} (hne : terms ≠ []) :
    Text.parts s.orText.toList (s.sum names terms).toList =
      terms.map fun t => (s.product names t.cube).toList := by
  rw [sum, if_neg (by simpa using hne), String.toList_intercalate, List.map_map]
  refine Text.parts_intercalate h.mem_orText ?_ (by simpa using hne)
  intro text htext
  obtain ⟨t, -, rfl⟩ := List.mem_map.1 htext
  exact orMark_not_mem_product h names t.cube

theorem product_ne_falseText (c : Cube) : (s.product names c).toList ≠ s.falseText.toList := by
  cases hfree : c.isFree with
  | true =>
    rw [product, if_pos hfree]
    exact fun heq => h.trueText_ne_falseText (String.toList_inj.1 heq)
  | false => exact product_ne_of_isDigit h hfree h.isDigit_falseText

theorem sum_ne_falseText {terms : List Term} (hne : terms ≠ []) :
    s.sum names terms ≠ s.falseText := by
  intro heq
  have hparts := parts_sum h names hne
  have hmark : orMark ∉ s.falseText.toList :=
    Names.not_mem_of_isDigit h.orMark_not_word h.isDigit_falseText
  rw [heq, Text.parts_of_not_mem h.mem_orText hmark] at hparts
  obtain ⟨t, -, ht⟩ := List.mem_map.1 (hparts ▸ List.mem_singleton_self s.falseText.toList)
  exact product_ne_falseText h t.cube ht

/-- **A sum is read back as the factors of its terms.** -/
theorem readSum?_sum {terms : List Term}
    (hbit : ∀ t ∈ terms, ∀ l ∈ t.cube.factors, bitOf? (names.label l.bit) = some l.bit) :
    s.readSum? bitOf? (s.sum names terms) = some (terms.map (·.cube.factors)) := by
  unfold readSum?
  by_cases hne : terms = []
  · subst hne
    simp [sum]
  · rw [if_neg (sum_ne_falseText h hne), parts_sum h names hne, List.mapM_map]
    exact mapM_eq_some_map fun t ht => readProduct?_product h (hbit t ht)

end

end Spelling

/-! ## Reading with names -/

/-- The bit of a variable; the first name is that of the most significant bit. -/
def Names.bitOf? (names : Names) (name : String) : Option Nat :=
  (names.toList.idxOf? name).map (names.size - 1 - ·)

theorem Names.bitOf?_label {names : Names} {bit : Nat} (h : bit < names.size) :
    names.bitOf? (names.label bit) = some bit := by
  have hlength : names.toList.length = names.size := rfl
  -- the list runs from the most significant bit down
  have hpos : names.size - 1 - bit < names.toList.length := by omega
  have hlabel : names.label bit = names.toList[names.size - 1 - bit] := by
    have hname : names.nameOfBit? bit = some names.toList[names.size - 1 - bit] := by
      rw [nameOfBit?, List.getElem?_reverse h, List.getElem?_eq_getElem]
      rfl
    rw [label, hname, Option.getD_some]
  have hfirst : names.toList.idxOf? (names.label bit) = some (names.size - 1 - bit) := by
    rw [List.idxOf?_eq_some_iff]
    refine ⟨hpos, hlabel.symm, fun i hi heq => ?_⟩
    -- the names are distinct, so that no earlier one is the same
    have := (List.getElem_inj names.nodup).1 (heq.trans hlabel)
    omega
  rw [bitOf?, hfirst, Option.map_some]
  congr 1
  omega

/-- Reads `a.b' + c` and the constants 0 and 1. -/
def Names.readExpression? (names : Names) (text : String) : Option Expression :=
  Spelling.readSum? ⟨".", " + ", "'", true, "1", "0"⟩ names.bitOf? text

theorem Names.readExpression?_sum (names : Names) {terms : List Term}
    (h : ∀ t ∈ terms, t.width = names.size) :
    names.readExpression? (Spelling.textbook.sum names terms) =
      some (terms.map (·.cube.factors)) := by
  refine Spelling.readSum?_sum Spelling.legible_textbook fun t ht l hl => ?_
  have hlt : l.bit < t.width :=
    Cube.lt_width_of_digit_ne (Cube.digit_ne_free_of_eq_ofBit (Cube.mem_factors.1 hl))
  exact Names.bitOf?_label (h t ht ▸ hlt)

example : (Names.letters 3).readExpression? "a.b' + c" =
    some [[⟨2, true⟩, ⟨1, false⟩], [⟨0, true⟩]] := by decide +kernel

end TwoLevel
