import TwoLevel.Proofs.Names.Reading
import TwoLevel.Proofs.Spelling.Reading
import TwoLevel.Proofs.Spelling.Variables

/-!
# Expressions in words

The spelling in words has operators and a constant that may be names as well. Each literal of such
a text stands after `or`, if it is the first one of its product, or after `and`; an `or` before the
whole text makes this so for the first literal too. Such a phrase ends in a name, and before the
name stands `not` or the joint of the phrase. So the phrases are found from the last word on, even
if variables are named `and`, `or` or `not` (**`eq_of_flatMap_words_eq`**).

The one thing that a text does not tell is whether `true` is the constant 1 or a variable of that
name: what it tells of a product is `shown` (**`map_shown_eq_of_write_eq`**). Hence covers with the
same text have the same value on every minterm, for all covers of the right width, exactly if no
variable is named `true` (**`verbal_unambiguous_iff`**).
-/

namespace TwoLevel.Spelling

/-! ## Phrases -/

/-- What stands before a literal: it opens a product, or it continues the product before it. -/
inductive Joint where
  | opens
  | continues
  deriving DecidableEq

def Joint.word : Joint → String
  | opens => "or"
  | continues => "and"

/-- The operator of which the joint is the word. -/
def Joint.operator : Joint → String
  | opens => verbal.orText
  | continues => verbal.andText

theorem Joint.word_ne_not (joint : Joint) : joint.word ≠ "not" := by cases joint <;> decide

theorem Joint.word_inj {a b : Joint} (h : a.word = b.word) : a = b := by
  cases a <;> cases b <;> revert h <;> decide

/-- A literal with what stands before it. -/
structure Phrase where
  joint : Joint
  literal : NamedLiteral
  deriving DecidableEq

def Phrase.words (p : Phrase) : List String :=
  if p.literal.value then [p.joint.word, p.literal.name]
  else [p.joint.word, "not", p.literal.name]

/-- Induction on the phrases, the last one first. -/
theorem eq_of_flatMap_reverse_words_eq {ps qs : List Phrase}
    (h : ps.flatMap (List.reverse ∘ Phrase.words) = qs.flatMap (List.reverse ∘ Phrase.words)) :
    ps = qs := by
  have hwords : ∀ (p : Phrase) (rest : List String), p.words.reverse ++ rest =
      if p.literal.value then p.literal.name :: p.joint.word :: rest
      else p.literal.name :: "not" :: p.joint.word :: rest := by
    intro p rest
    unfold Phrase.words
    split <;> rfl
  induction ps generalizing qs with
  | nil =>
    cases qs with
    | nil => rfl
    | cons q qs =>
      rw [List.flatMap_nil, List.flatMap_cons, Function.comp_apply, hwords] at h
      split at h <;> cases h
  | cons p ps ih =>
    cases qs with
    | nil =>
      rw [List.flatMap_nil, List.flatMap_cons, Function.comp_apply, hwords] at h
      split at h <;> cases h
    | cons q qs =>
      obtain ⟨pjoint, pname, pvalue⟩ := p
      obtain ⟨qjoint, qname, qvalue⟩ := q
      simp only [List.flatMap_cons, Function.comp_apply, hwords] at h
      -- the word before the name tells whether the literal is complemented
      cases pvalue <;> cases qvalue <;> simp only [Bool.false_eq_true, if_true, if_false,
        List.cons.injEq] at h
      · obtain ⟨rfl, -, hjoint, hrest⟩ := h
        rw [Joint.word_inj hjoint, ih hrest]
      · exact absurd h.2.1.symm qjoint.word_ne_not
      · exact absurd h.2.1 pjoint.word_ne_not
      · obtain ⟨rfl, hjoint, hrest⟩ := h
        rw [Joint.word_inj hjoint, ih hrest]

/-- **The words tell the phrases.** They are read from the last word on. -/
theorem eq_of_flatMap_words_eq {ps qs : List Phrase}
    (h : ps.flatMap Phrase.words = qs.flatMap Phrase.words) : ps = qs := by
  have hreverse := congrArg List.reverse h
  rw [List.reverse_flatMap, List.reverse_flatMap] at hreverse
  exact List.reverse_injective (eq_of_flatMap_reverse_words_eq hreverse)

/-! ## Products -/

/-- The literals that a product shows: the constant 1 looks like a variable of the name `true`. -/
def shown (product : List NamedLiteral) : List NamedLiteral :=
  if product.isEmpty then [⟨"true", true⟩] else product

theorem shown_ne_nil (product : List NamedLiteral) : shown product ≠ [] := by
  cases product <;> simp [shown]

def phrases : List NamedLiteral → List Phrase
  | [] => []
  | l :: ls => ⟨.opens, l⟩ :: ls.map (⟨.continues, ·⟩)

/-- The literals before the first one that opens a product, and the products from there on. -/
def regroup : List Phrase → List NamedLiteral × List (List NamedLiteral)
  | [] => ([], [])
  | ⟨.continues, l⟩ :: ps => (l :: (regroup ps).1, (regroup ps).2)
  | ⟨.opens, l⟩ :: ps => ([], (l :: (regroup ps).1) :: (regroup ps).2)

theorem regroup_map_continues_append (ls : List NamedLiteral) (ps : List Phrase) :
    regroup (ls.map (⟨.continues, ·⟩) ++ ps) = (ls ++ (regroup ps).1, (regroup ps).2) := by
  induction ls with
  | nil => rfl
  | cons l ls ih => rw [List.map_cons, List.cons_append, regroup, ih]; rfl

theorem regroup_flatMap_phrases {sum : List (List NamedLiteral)} (h : ∀ p ∈ sum, p ≠ []) :
    regroup (sum.flatMap phrases) = ([], sum) := by
  induction sum with
  | nil => rfl
  | cons product sum ih =>
    obtain ⟨hne, hsum⟩ := List.forall_mem_cons.1 h
    cases product with
    | nil => exact absurd rfl hne
    | cons l ls =>
      rw [List.flatMap_cons, phrases, List.cons_append, regroup, regroup_map_continues_append,
        ih hsum, List.append_nil]

/-- The phrases of the text of a sum. -/
def phrasesOf (sum : List (List NamedLiteral)) : List Phrase := (sum.map shown).flatMap phrases

theorem map_shown_eq_of_phrasesOf_eq {sum others : List (List NamedLiteral)}
    (h : phrasesOf sum = phrasesOf others) : sum.map shown = others.map shown := by
  have hne : ∀ sum : List (List NamedLiteral), ∀ p ∈ sum.map shown, p ≠ [] := by
    intro sum p hp
    obtain ⟨product, -, rfl⟩ := List.mem_map.1 hp
    exact shown_ne_nil product
  have hgroups := congrArg regroup h
  rw [phrasesOf, phrasesOf, regroup_flatMap_phrases (hne sum),
    regroup_flatMap_phrases (hne others)] at hgroups
  exact congrArg Prod.snd hgroups

/-! ## Texts -/

/-- The text of some words, each after a space. -/
def spaced (words : List String) : List Char := words.flatMap fun word => ' ' :: word.toList

theorem parts_spaced {words : List String} (h : ∀ word ∈ words, ' ' ∉ word.toList) :
    Text.parts [' '] (spaced words) = [] :: words.map String.toList := by
  have hspaced : spaced words = [' '].intercalate ([] :: words.map String.toList) := by
    rw [Text.intercalate_cons_eq, List.nil_append, List.flatMap_map]
    rfl
  rw [hspaced]
  refine Text.parts_intercalate (List.mem_singleton_self ' ') ?_ (List.cons_ne_nil _ _)
  simpa using h

theorem eq_of_spaced_eq {ws vs : List String} (hws : ∀ word ∈ ws, ' ' ∉ word.toList)
    (hvs : ∀ word ∈ vs, ' ' ∉ word.toList) (h : spaced ws = spaced vs) : ws = vs := by
  have hparts := parts_spaced hws
  rw [h, parts_spaced hvs] at hparts
  exact (List.map_injective_iff.2 fun _ _ => String.toList_injective)
    (List.tail_eq_of_cons_eq hparts).symm

theorem spaced_flatMap {α : Type} (xs : List α) (f : α → List String) :
    spaced (xs.flatMap f) = xs.flatMap fun x => spaced (f x) :=
  List.flatMap_assoc

theorem spaced_words (p : Phrase) : spaced p.words =
    p.joint.operator.toList ++ (verbal.literal p.literal.name p.literal.value).toList := by
  obtain ⟨joint, name, value⟩ := p
  cases joint <;> cases value <;> simp [spaced, Phrase.words, literal, verbal, Joint.operator,
    Joint.word]

theorem orText_append_writeProduct (product : List NamedLiteral) :
    verbal.orText.toList ++ (verbal.writeProduct product).toList =
      spaced ((phrases (shown product)).flatMap Phrase.words) := by
  rw [spaced_flatMap]
  cases product with
  | nil => decide +kernel
  | cons l ls =>
    have hproduct : (verbal.writeProduct (l :: ls)).toList =
        (verbal.literal l.name l.value).toList ++
          ls.flatMap fun l => verbal.andText.toList ++ (verbal.literal l.name l.value).toList := by
      rw [writeProduct, if_neg (by simp), String.toList_intercalate, List.map_map, List.map_cons,
        Text.intercalate_cons_eq, List.flatMap_map]
      rfl
    simp only [shown, List.isEmpty_cons, Bool.false_eq_true, if_false, phrases, List.flatMap_cons,
      List.flatMap_map, spaced_words, hproduct, List.append_assoc]
    rfl

theorem orText_append_write {sum : List (List NamedLiteral)} (h : sum ≠ []) :
    verbal.orText.toList ++ (verbal.write sum).toList =
      spaced ((phrasesOf sum).flatMap Phrase.words) := by
  cases sum with
  | nil => exact absurd rfl h
  | cons product products =>
    rw [write, if_neg (by simp), String.toList_intercalate, List.map_map, List.map_cons,
      Text.intercalate_cons_eq, List.flatMap_map, phrasesOf, List.flatMap_assoc, List.flatMap_map,
      spaced_flatMap, List.flatMap_cons, ← orText_append_writeProduct, List.append_assoc]
    simp only [← orText_append_writeProduct]
    rfl

/-! ## What a text tells -/

theorem mem_words {p : Phrase} {word : String} (h : word ∈ p.words) :
    word = p.joint.word ∨ word = "not" ∨ word = p.literal.name := by
  unfold Phrase.words at h
  split at h <;> simp only [List.mem_cons, List.not_mem_nil, or_false] at h
  · exact h.imp_right .inr
  · exact h

theorem literal_mem_of_mem_phrases {product : List NamedLiteral} {p : Phrase}
    (h : p ∈ phrases product) : p.literal ∈ product := by
  cases product with
  | nil => cases h
  | cons l ls =>
    rcases List.mem_cons.1 h with rfl | h
    · exact List.mem_cons_self
    · obtain ⟨l', hl', rfl⟩ := List.mem_map.1 h
      exact List.mem_cons_of_mem l hl'

theorem mem_of_mem_shown {product : List NamedLiteral} {l : NamedLiteral} (h : l ∈ shown product) :
    l.name = "true" ∨ l ∈ product := by
  unfold shown at h
  split at h
  · exact .inl (congrArg NamedLiteral.name (List.mem_singleton.1 h))
  · exact .inr h

theorem space_not_mem_word {sum : List (List NamedLiteral)}
    (h : ∀ product ∈ sum, ∀ l ∈ product, ' ' ∉ l.name.toList) :
    ∀ word ∈ (phrasesOf sum).flatMap Phrase.words, ' ' ∉ word.toList := by
  intro word hword
  obtain ⟨p, hp, hword⟩ := List.mem_flatMap.1 hword
  obtain ⟨_, hshown, hp⟩ := List.mem_flatMap.1 hp
  obtain ⟨product, hproduct, rfl⟩ := List.mem_map.1 hshown
  rcases mem_words hword with rfl | rfl | rfl
  · cases p.joint <;> decide
  · decide
  · rcases mem_of_mem_shown (literal_mem_of_mem_phrases hp) with htrue | hmem
    · rw [htrue]
      decide
    · exact h product hproduct p.literal hmem

/-- **The text of a sum tells what its products show.** -/
theorem map_shown_eq_of_write_eq {sum others : List (List NamedLiteral)} (hsum : sum ≠ [])
    (hothers : others ≠ []) (hspace : ∀ product ∈ sum ++ others, ∀ l ∈ product, ' ' ∉ l.name.toList)
    (h : verbal.write sum = verbal.write others) : sum.map shown = others.map shown := by
  have hwords : spaced ((phrasesOf sum).flatMap Phrase.words) =
      spaced ((phrasesOf others).flatMap Phrase.words) := by
    rw [← orText_append_write hsum, ← orText_append_write hothers, h]
  refine map_shown_eq_of_phrasesOf_eq (eq_of_flatMap_words_eq (eq_of_spaced_eq ?_ ?_ hwords))
  · exact space_not_mem_word fun product hproduct =>
      hspace product (List.mem_append_left others hproduct)
  · exact space_not_mem_word fun product hproduct =>
      hspace product (List.mem_append_right sum hproduct)

/-- Three variables with the names of operators. -/
example : verbal.write [[⟨"and", false⟩, ⟨"or", true⟩], [⟨"not", true⟩]] =
    "not and and or or not" := by decide +kernel

/-! ## The constant and the name -/

section

variable {names : Names}

/-- The cube that shows some literals. If `true` is no name, the constant has no literal. -/
def cubeOfShown (names : Names) (product : List NamedLiteral) : Cube :=
  .ofFactors names.size <|
    product.filterMap fun l => (names.bitOf? l.name).map (⟨·, l.value⟩)

theorem cubeOfShown_shown (htrue : "true" ∉ names.toList) {c : Cube}
    (hwidth : c.width = names.size) : cubeOfShown names (shown (c.namedFactors names)) = c := by
  have hfactors : (shown (c.namedFactors names)).filterMap
      (fun l => (names.bitOf? l.name).map (⟨·, l.value⟩)) = c.factors := by
    cases hnil : c.factors with
    | nil =>
      have hbit : names.bitOf? "true" = none := by
        rw [Names.bitOf?, List.idxOf?_eq_none_iff.2 htrue, Option.map_none]
      simp [Cube.namedFactors, hnil, shown, hbit]
    | cons f fs =>
      have hshown : shown (c.namedFactors names) = c.namedFactors names := by
        simp [shown, Cube.namedFactors, hnil]
      rw [hshown, ← hnil, Cube.namedFactors, List.filterMap_map]
      refine (List.filterMap_congr fun l hl => ?_).trans List.filterMap_some
      have hlt := Cube.lt_width_of_digit_ne (Cube.digit_ne_free_of_eq_ofBit (Cube.mem_factors.1 hl))
      simp [Names.bitOf?_label (hwidth ▸ hlt)]
  rw [cubeOfShown, hfactors, ← hwidth, Cube.ofFactors_factors]

theorem space_not_mem_namedFactors {c : Cube} :
    ∀ l ∈ c.namedFactors names, ' ' ∉ l.name.toList := by
  intro l hl
  obtain ⟨bit, -, hname⟩ := Cube.exists_of_mem_namedFactors hl
  rw [hname]
  exact Names.not_mem_of_isWordChar (by decide) Names.isWordChar_of_mem_label

/-- Terms with the same text have the same cubes. -/
theorem map_cube_eq_of_sum_eq (htrue : "true" ∉ names.toList) {terms others : List Term}
    (hterms : terms ≠ []) (hothers : others ≠ [])
    (hwidth : ∀ t ∈ terms ++ others, t.width = names.size)
    (h : verbal.sum names terms = verbal.sum names others) :
    terms.map (·.cube) = others.map (·.cube) := by
  have hspace : ∀ product ∈ terms.map (·.cube.namedFactors names) ++
      others.map (·.cube.namedFactors names), ∀ l ∈ product, ' ' ∉ l.name.toList := by
    intro product hproduct
    rw [← List.map_append] at hproduct
    obtain ⟨t, -, rfl⟩ := List.mem_map.1 hproduct
    exact space_not_mem_namedFactors
  have hcubes : ∀ ts : List Term, (∀ t ∈ ts, t.width = names.size) →
      ((ts.map (·.cube.namedFactors names)).map shown).map (cubeOfShown names) =
        ts.map (·.cube) := by
    intro ts hts
    rw [List.map_map, List.map_map]
    exact List.map_congr_left fun t ht => cubeOfShown_shown htrue (hts t ht)
  rw [sum_eq_write, sum_eq_write] at h
  have hshown := map_shown_eq_of_write_eq (by simpa using hterms) (by simpa using hothers) hspace h
  rw [← hcubes terms fun t ht => hwidth t (List.mem_append_left others ht), hshown,
    hcubes others fun t ht => hwidth t (List.mem_append_right terms ht)]

end

theorem expression_singleton {names : Names} {c : Cube} (hwidth : c.width = names.size)
    (s : Spelling) : Cover.expression ⟨[.ofCube c]⟩ names s =
      .ok (s.writeProduct (c.namedFactors names)) := by
  refine Cover.expression_eq_ok_iff.2 ⟨⟨_, rfl, hwidth⟩, ?_⟩
  simp [sum_eq_write, write]

theorem accepts_singleton (c : Cube) (m : Nat) :
    Cover.accepts ⟨[.ofCube c]⟩ m = c.factors.all (·.holds m) := by
  rw [Cover.accepts_eq_eval]
  simp [Expression.eval]

/-- The constant 1 and the variable `true` have the same text. -/
theorem exists_expression_eq_true {names : Names} (h : "true" ∈ names.toList) :
    ∃ a b : Cover, (∀ t ∈ a.terms ++ b.terms, t.width = names.size) ∧
      a.expression names verbal = .ok "true" ∧ b.expression names verbal = .ok "true" ∧
        a.accepts 0 = true ∧ b.accepts 0 = false := by
  obtain ⟨bit, hlt, hlabel⟩ := Names.exists_label_eq h
  have hconstant : (Cube.ofFactors names.size []).factors = [] :=
    Cube.factors_eq_nil_iff.2 (by simp [Cube.isFree, Cube.ofFactors])
  have hvariable : (Cube.ofFactors names.size [⟨bit, true⟩]).factors = [⟨bit, true⟩] :=
    Cube.factors_ofFactors_singleton hlt
  refine ⟨⟨[.ofCube (.ofFactors names.size [])]⟩, ⟨[.ofCube (.ofFactors names.size [⟨bit, true⟩])]⟩,
    ?_, ?_, ?_, ?_, ?_⟩
  · simp [Term.width]
  · rw [expression_singleton (Cube.width_ofFactors _ _), Cube.namedFactors, hconstant]
    rfl
  · rw [expression_singleton (Cube.width_ofFactors _ _), Cube.namedFactors, hvariable]
    simp [writeProduct, literal, hlabel]
  · rw [accepts_singleton, hconstant]
    rfl
  · rw [accepts_singleton, hvariable]
    simp [Literal.holds]

/--
**Words tell covers apart exactly if no variable is named `true`.** Then covers with the same text
have the same value on every minterm.
-/
theorem verbal_unambiguous_iff (names : Names) :
    (∀ a b : Cover, (∀ t ∈ a.terms ++ b.terms, t.width = names.size) →
      ∀ text, a.expression names verbal = .ok text → b.expression names verbal = .ok text →
        ∀ m, a.accepts m = b.accepts m) ↔ "true" ∉ names.toList := by
  constructor
  · intro h htrue
    obtain ⟨a, b, hwidth, ha, hb, haccepts, hrejects⟩ := exists_expression_eq_true htrue
    have hsame := h a b hwidth "true" ha hb 0
    rw [haccepts, hrejects] at hsame
    cases hsame
  · intro htrue a b hwidth text ha hb m
    obtain ⟨⟨t, ht, -⟩, hatext⟩ := Cover.expression_eq_ok_iff.1 ha
    obtain ⟨⟨u, hu, -⟩, hbtext⟩ := Cover.expression_eq_ok_iff.1 hb
    have hcubes := map_cube_eq_of_sum_eq htrue (List.ne_nil_of_mem (List.mem_of_head? ht))
      (List.ne_nil_of_mem (List.mem_of_head? hu)) hwidth (hatext.symm.trans hbtext)
    have hvalue : ∀ cover : Cover,
        cover.accepts m = (cover.terms.map (·.cube)).any (·.accepts m) := by
      intro cover
      rw [Cover.accepts, List.any_map]
      rfl
    rw [hvalue, hvalue, hcubes]

/-- The name `true` is accepted, and the variable with it is written as the constant 1 is. -/
theorem verbal_ambiguous_true :
    ∃ names : Names, Names.ofText "true" = .ok names ∧ names.size = 1 ∧
      Cover.expression ⟨[.ofCube [.free]]⟩ names verbal = .ok "true" ∧
      Cover.expression ⟨[.ofCube [.one]]⟩ names verbal = .ok "true" ∧
      Cover.accepts ⟨[.ofCube [.free]]⟩ 0 = true ∧ Cover.accepts ⟨[.ofCube [.one]]⟩ 0 = false := by
  let names : Names := ⟨["true"], by decide, by decide⟩
  have hread : Names.ofText "true" = .ok names :=
    Names.ofText_eq_ok_iff.2 (show Names.pieces "true" = ["true"] by decide +kernel)
  refine ⟨names, hread, rfl, ?_, ?_, by decide, by decide⟩
  · exact Cover.expression_eq_ok_iff.2 ⟨⟨_, rfl, rfl⟩, by decide +kernel⟩
  · exact Cover.expression_eq_ok_iff.2 ⟨⟨_, rfl, rfl⟩, by decide +kernel⟩

end TwoLevel.Spelling
