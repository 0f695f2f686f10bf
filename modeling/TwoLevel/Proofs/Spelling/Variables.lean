import TwoLevel.Proofs.Spelling.Reading

/-!
# The variables of an expression

An expression is written from literals whose variables are given by their texts (`Spelling.write`).
For a cover these texts are the labels of the bits, which are names as long as there are names for
them (`Names.label_mem`), and numbers between underscores beyond.

An expression is refused unless there is a name for each variable of the first term. For terms of
one width this is a check of all terms, and no expression has a variable without a name. Where the
widths differ it is not: the cover of `1` and `01` is written `a + _1_'.a` with the one name `a`. So
the check does what it should for every list of names exactly if the terms have one width
(**`Cover.expression_checks_names_iff`**).
-/

namespace TwoLevel

/-- A literal as it is written: the text of its variable, with the value asked of it. -/
structure NamedLiteral where
  name : String
  value : Bool
  deriving DecidableEq, Repr

theorem Names.label_mem {names : Names} {bit : Nat} (h : bit < names.size) :
    names.label bit ∈ names.toList := by
  cases hname : names.nameOfBit? bit with
  | none => exact absurd (nameOfBit?_eq_none_iff.1 hname) (Nat.not_le.2 h)
  | some name =>
    rw [label, hname, Option.getD_some]
    exact List.mem_reverse.1 (List.mem_of_getElem? hname)

theorem Names.exists_label_eq {names : Names} {name : String} (h : name ∈ names.toList) :
    ∃ bit < names.size, names.label bit = name := by
  obtain ⟨bit, hbit⟩ := List.mem_iff_getElem?.1 (List.mem_reverse.2 h)
  have hname : names.nameOfBit? bit = some name := hbit
  refine ⟨bit, Nat.not_le.1 fun hle => ?_, by rw [label, hname, Option.getD_some]⟩
  rw [nameOfBit?_eq_none_iff.2 hle] at hname
  cases hname

/-- The literals of a cube, most significant first, with the texts of their variables. -/
def Cube.namedFactors (names : Names) (c : Cube) : List NamedLiteral :=
  c.factors.map fun l => ⟨names.label l.bit, l.value⟩

theorem Cube.exists_of_mem_namedFactors {names : Names} {c : Cube} {l : NamedLiteral}
    (h : l ∈ c.namedFactors names) : ∃ bit < c.width, l.name = names.label bit := by
  obtain ⟨factor, hfactor, rfl⟩ := List.mem_map.1 h
  have hfixed := Cube.digit_ne_free_of_eq_ofBit (Cube.mem_factors.1 hfactor)
  exact ⟨factor.bit, Cube.lt_width_of_digit_ne hfixed, rfl⟩

namespace Spelling

/-! ## Writing -/

/-- How a product of literals is written; the empty product is the constant 1. -/
def writeProduct (s : Spelling) (product : List NamedLiteral) : String :=
  if product.isEmpty then s.trueText
  else s.andText.intercalate (product.map fun l => s.literal l.name l.value)

/-- How a sum of products is written; the empty sum is the constant 0. -/
def write (s : Spelling) (sum : List (List NamedLiteral)) : String :=
  if sum.isEmpty then s.falseText else s.orText.intercalate (sum.map s.writeProduct)

theorem product_eq_writeProduct (s : Spelling) (names : Names) (c : Cube) :
    s.product names c = s.writeProduct (c.namedFactors names) := by
  have hempty : (c.namedFactors names).isEmpty = c.isFree := by
    rw [Bool.eq_iff_iff, List.isEmpty_iff, Cube.namedFactors, List.map_eq_nil_iff,
      Cube.factors_eq_nil_iff]
  rw [product, writeProduct, hempty, literals_eq, Cube.namedFactors, List.map_map]
  rfl

theorem sum_eq_write (s : Spelling) (names : Names) (terms : List Term) :
    s.sum names terms = s.write (terms.map (·.cube.namedFactors names)) := by
  rw [sum, write, List.isEmpty_map, List.map_map]
  congr 3
  funext t
  exact product_eq_writeProduct s names t.cube

/-- The text is that of some sum of products, and all its variables are among the names. -/
def WrittenWith (s : Spelling) (names : Names) (text : String) : Prop :=
  ∃ sum : List (List NamedLiteral), text = s.write sum ∧
    ∀ product ∈ sum, ∀ l ∈ product, l.name ∈ names.toList

theorem writtenWith_sum (s : Spelling) {names : Names} {terms : List Term}
    (h : ∀ t ∈ terms, t.width = names.size) : s.WrittenWith names (s.sum names terms) := by
  refine ⟨_, sum_eq_write s names terms, fun product hproduct l hl => ?_⟩
  obtain ⟨t, ht, rfl⟩ := List.mem_map.1 hproduct
  obtain ⟨bit, hbit, hname⟩ := Cube.exists_of_mem_namedFactors hl
  rw [hname]
  exact Names.label_mem (h t ht ▸ hbit)

/-- A character that is in no operator and no constant comes from a name. -/
theorem WrittenWith.exists_name {s : Spelling} {names : Names} {text : String}
    (h : s.WrittenWith names text) {c : Char} (hc : c ∈ text.toList)
    (hmarks : c ∉ s.falseText.toList ++ s.trueText.toList ++ s.orText.toList ++
      s.andText.toList ++ s.notText.toList) : ∃ name ∈ names.toList, c ∈ name.toList := by
  obtain ⟨sum, rfl, hnames⟩ := h
  simp only [List.mem_append, not_or] at hmarks
  obtain ⟨⟨⟨⟨hfalse, htrue⟩, hor⟩, hand⟩, hnot⟩ := hmarks
  unfold write at hc
  split at hc
  · exact absurd hc hfalse
  · rw [String.toList_intercalate, List.map_map] at hc
    obtain ⟨_, htext, hc⟩ := (Text.mem_intercalate hc).resolve_left hor
    obtain ⟨product, hproduct, rfl⟩ := List.mem_map.1 htext
    rw [Function.comp_apply, writeProduct] at hc
    split at hc
    · exact absurd hc htrue
    · rw [String.toList_intercalate, List.map_map] at hc
      obtain ⟨_, htext, hc⟩ := (Text.mem_intercalate hc).resolve_left hand
      obtain ⟨l, hl, rfl⟩ := List.mem_map.1 htext
      exact ⟨l.name, hnames product hproduct l hl, (mem_literal hc).resolve_right hnot⟩

end Spelling

/-! ## When a cover has an expression -/

namespace Cover

variable {cover : Cover} {names : Names} {s : Spelling}

theorem expression_eq_ok_iff {text : String} :
    cover.expression names s = .ok text ↔
      (∃ t, cover.terms.head? = some t ∧ t.width = names.size) ∧
        text = s.sum names cover.terms := by
  unfold expression
  cases cover.terms with
  | nil => simp
  | cons t ts =>
    by_cases hwidth : names.size = t.width
    · simp only [Names.checkWidth_of_eq hwidth, List.head?_cons, Option.some.injEq,
        exists_eq_left', hwidth, true_and]
      exact ⟨fun h => (Except.ok.inj h).symm, fun h => congrArg Except.ok h.symm⟩
    · simp only [Names.checkWidth_of_ne hwidth, List.head?_cons, Option.some.injEq,
        exists_eq_left', Ne.symm hwidth, false_and, iff_false]
      nofun

theorem exists_expression_iff :
    (∃ text, cover.expression names s = .ok text) ↔
      ∃ t, cover.terms.head? = some t ∧ t.width = names.size := by
  simp only [expression_eq_ok_iff, exists_and_left, exists_eq, and_true]

/--
**The check of the names covers all terms exactly if they have one width.** Then there is an
expression exactly if there are terms, all of them with as many variables as there are names, and no
variable of an expression is without a name.
-/
theorem expression_checks_names_iff (cover : Cover) (s : Spelling) :
    (∀ names : Names,
      ((∃ text, cover.expression names s = .ok text) ↔
        cover.terms ≠ [] ∧ ∀ t ∈ cover.terms, t.width = names.size) ∧
      ∀ text, cover.expression names s = .ok text → s.WrittenWith names text) ↔
        ∀ t ∈ cover.terms, ∀ u ∈ cover.terms, t.width = u.width := by
  constructor
  · intro h t ht u hu
    obtain ⟨first, hfirst⟩ : ∃ first, cover.terms.head? = some first :=
      Option.isSome_iff_exists.1 (List.isSome_head?.2 (List.ne_nil_of_mem ht))
    -- as many names as the first term needs are accepted
    have hok : ∃ text, cover.expression (.generic first.width) s = .ok text :=
      exists_expression_iff.2 ⟨first, hfirst, (Names.size_generic first.width).symm⟩
    have hwidth := ((h (Names.generic first.width)).1.1 hok).2
    rw [hwidth t ht, hwidth u hu]
  · intro hsame names
    have hall : (∃ t, cover.terms.head? = some t ∧ t.width = names.size) →
        ∀ t ∈ cover.terms, t.width = names.size := by
      rintro ⟨first, hfirst, hwidth⟩ t ht
      rw [hsame t ht first (List.mem_of_head? hfirst), hwidth]
    refine ⟨?_, fun text htext => ?_⟩
    · rw [exists_expression_iff]
      constructor
      · intro hfirst
        refine ⟨fun hnil => ?_, hall hfirst⟩
        obtain ⟨first, hhead, -⟩ := hfirst
        simp [hnil] at hhead
      · rintro ⟨hne, hwidth⟩
        exact ⟨_, List.head?_eq_some_head hne, hwidth _ (List.head_mem hne)⟩
    · obtain ⟨hfirst, rfl⟩ := expression_eq_ok_iff.1 htext
      exact Spelling.writtenWith_sum s (hall hfirst)

/-- With the one name `a`, a term of two variables comes after one of one variable. -/
theorem expression_of_wider_term :
    let cover : Cover := ⟨[.ofCube [.one], .ofCube [.one, .zero]]⟩
    cover.expression (.letters 1) .textbook = .ok "a + _1_'.a" ∧
      ¬ ((∃ text, cover.expression (.letters 1) .textbook = .ok text) ↔
        cover.terms ≠ [] ∧ ∀ t ∈ cover.terms, t.width = (Names.letters 1).size) ∧
      ¬ Spelling.textbook.WrittenWith (.letters 1) "a + _1_'.a" := by
  intro cover
  have htext : cover.expression (.letters 1) .textbook = .ok "a + _1_'.a" :=
    expression_eq_ok_iff.2 ⟨⟨_, rfl, by decide⟩, by decide +kernel⟩
  have hwidth : ¬ ∀ t ∈ cover.terms, t.width = (Names.letters 1).size := by decide
  refine ⟨htext, fun h => hwidth (h.1 ⟨_, htext⟩).2, fun h => ?_⟩
  -- the underscore is in no operator and not in `a`
  have hname := h.exists_name (show '_' ∈ "a + _1_'.a".toList by decide) (by decide)
  revert hname
  decide

end Cover

end TwoLevel
