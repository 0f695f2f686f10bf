import Mathlib.Data.List.Basic
import Std.Data.String.ToNat
import TwoLevel.Proofs.Text.Splitting
import TwoLevel.TruthTable

/-!
# Tables and their lists of minterms

A table is determined by its width, the minterms with output 1 and the unspecified ones
(`eq_of_required_eq`). Built from two lists of minterms, it has the ones of the first, and of the
second those that are not in the first; what is refused is a minterm beyond the width, the first one
of the don't-cares and then of the ones. Building a table from its own two sets gives the table
back.

The sum of products shows the two sets. A list of numbers is read back from its text, since no
numeral holds a comma (`joined_injective`), and the text of a sum has its parentheses in known
places (`eq_of_sumOfProducts_eq`). So this text tells the table, up to its width.

The whole is **`ofIndices_exact`**.
-/

namespace TwoLevel

/-! ## Texts of lists of numbers -/

namespace Text

theorem toList_joined (separator : String) (numbers : List Nat) :
    (joined separator numbers).toList =
      separator.toList.intercalate (numbers.map fun n => n.repr.toList) := by
  rw [joined, String.toList_intercalate, List.map_map]
  rfl

theorem isDigit_of_mem_joined {numbers : List Nat} {c : Char}
    (h : c ∈ (joined "," numbers).toList) : c = ',' ∨ c.isDigit = true := by
  rw [toList_joined] at h
  rcases mem_intercalate h with hcomma | ⟨text, htext, hmem⟩
  · exact .inl (List.mem_singleton.1 hcomma)
  · obtain ⟨n, -, rfl⟩ := List.mem_map.1 htext
    exact .inr (isDigit_of_mem_repr hmem)

/-- The numbers are the parts between the commas; no number is written as the empty text. -/
theorem parts_joined {numbers : List Nat} :
    parts [','] (joined "," numbers).toList =
      if numbers = [] then [[]] else numbers.map fun n => n.repr.toList := by
  rw [toList_joined]
  split
  · rename_i hnil
    rw [hnil]
    rfl
  · rename_i hne
    -- the comma is the mark of the separator, as no numeral holds one
    refine parts_intercalate List.mem_cons_self (fun text htext hcomma => ?_) (by simpa using hne)
    obtain ⟨n, -, rfl⟩ := List.mem_map.1 htext
    have hdigit := isDigit_of_mem_repr hcomma
    revert hdigit
    decide

theorem joined_injective {numbers others : List Nat}
    (h : joined "," numbers = joined "," others) : numbers = others := by
  have hparts := congrArg (fun text : String => parts [','] text.toList) h
  simp only [parts_joined] at hparts
  -- no numbers have one empty part, which no numeral is
  have hempty : ∀ ns : List Nat, [[]] ≠ ns.map fun n => n.repr.toList := by
    intro ns hns
    have hmem : [] ∈ ns.map fun n => n.repr.toList := hns ▸ List.mem_singleton_self []
    obtain ⟨n, -, hn⟩ := List.mem_map.1 hmem
    exact Nat.repr_ne_empty (String.toList_eq_nil_iff.1 hn)
  by_cases hnumbers : numbers = []
  · by_cases hothers : others = []
    · rw [hnumbers, hothers]
    · rw [if_pos hnumbers, if_neg hothers] at hparts
      exact absurd hparts (hempty others)
  · by_cases hothers : others = []
    · rw [if_neg hnumbers, if_pos hothers] at hparts
      exact absurd hparts.symm (hempty numbers)
    · rw [if_neg hnumbers, if_neg hothers] at hparts
      refine List.map_injective_iff.2 (fun m n hmn => ?_) hparts
      exact Nat.repr_injective (String.toList_inj.1 hmn)

end Text

namespace TruthTable

variable {table other : TruthTable} {width m : Nat} {ones dontCares : List Nat}

/-! ## What determines a table -/

theorem eq_of_output_eq (hwidth : table.width = other.width)
    (h : ∀ m, table.output m = other.output m) : table = other := by
  have hsize : table.outputs.size = other.outputs.size := by
    rw [table.size_outputs, other.size_outputs, hwidth]
  have houtputs : table.outputs = other.outputs := by
    refine Array.ext hsize fun m hm hm' => ?_
    have hget := h m
    simpa [output, hm, hm'] using hget
  cases table; cases other
  simp_all

theorem eq_of_required_eq (hwidth : table.width = other.width)
    (hrequired : table.required = other.required) (hdontCares : table.dontCares = other.dontCares) :
    table = other := by
  refine eq_of_output_eq hwidth fun m => ?_
  have hone : table.output m = .one ↔ other.output m = .one := by
    rw [← mem_required, ← mem_required, hrequired]
  have hdontCare : table.output m = .dontCare ↔ other.output m = .dontCare := by
    rw [← mem_dontCares, ← mem_dontCares, hdontCares]
  cases htable : table.output m <;> cases hother : other.output m <;> simp_all

/-! ## Building a table -/

theorem ofIndices_of_lt (h : maxVariables < width) (ones dontCares : List Nat) :
    ofIndices width ones dontCares = .error (.tooManyVariables width) :=
  dif_neg (Nat.not_le.2 h)

theorem ofIndices_of_append_cons (hwidth : width ≤ maxVariables) {before after : List Nat}
    (hsplit : dontCares ++ ones = before ++ m :: after)
    (hbefore : ∀ n ∈ before, n < mintermCount width) (hm : mintermCount width ≤ m) :
    ofIndices width ones dontCares = .error (.mintermOutOfRange m width) := by
  have hfind : (dontCares ++ ones).find? (mintermCount width ≤ ·) = some m := by
    rw [List.find?_eq_some_iff_append]
    refine ⟨by simpa using hm, before, after, hsplit, fun n hn => ?_⟩
    simpa using hbefore n hn
  unfold ofIndices
  rw [dif_pos hwidth, hfind]

theorem exists_ofIndices (hwidth : width ≤ maxVariables)
    (hrange : ∀ n ∈ dontCares ++ ones, n < mintermCount width) :
    ∃ table : TruthTable, ofIndices width ones dontCares = .ok table ∧ table.width = width ∧
      ∀ m, table.output m =
        if m ∈ ones then .one else if m ∈ dontCares then .dontCare else .zero := by
  have hfind : (dontCares ++ ones).find? (mintermCount width ≤ ·) = none := by
    rw [List.find?_eq_none]
    intro n hn
    simpa using hrange n hn
  unfold ofIndices
  rw [dif_pos hwidth, hfind]
  refine ⟨_, rfl, rfl, fun m => ?_⟩
  unfold output
  rcases Nat.lt_or_ge m (mintermCount width) with hlt | hle
  · -- the ones are written over the don't-cares
    rw [getElem?_putAt (by simpa using hlt), getElem?_putAt (by simpa using hlt)]
    split
    · rfl
    · split
      · rfl
      · simp [hlt]
  · -- neither list reaches beyond the rows, where every output is 0
    have hnot : m ∉ dontCares ++ ones := fun hm => absurd (hrange m hm) (Nat.not_lt.2 hle)
    rw [List.mem_append, not_or] at hnot
    rw [if_neg hnot.2, if_neg hnot.1, Array.getElem?_eq_none (by simpa using hle)]
    rfl

/-- A table built from two lists has the first and what the second adds to it. -/
theorem exists_ofIndices_required (hwidth : width ≤ maxVariables)
    (hrange : ∀ n ∈ dontCares ++ ones, n < mintermCount width) :
    ∃ table : TruthTable, ofIndices width ones dontCares = .ok table ∧ table.width = width ∧
      table.required = .ofList ones ∧ table.dontCares = .ofList dontCares \ .ofList ones := by
  obtain ⟨table, htable, hw, houtput⟩ := exists_ofIndices hwidth hrange
  refine ⟨table, htable, hw, ?_, ?_⟩
  · ext m
    rw [mem_required, houtput, IndexSet.mem_ofList]
    by_cases hone : m ∈ ones <;> by_cases hdontCare : m ∈ dontCares <;> simp [hone, hdontCare]
  · ext m
    rw [mem_dontCares, houtput, IndexSet.mem_diff, IndexSet.mem_ofList, IndexSet.mem_ofList]
    by_cases hone : m ∈ ones <;> by_cases hdontCare : m ∈ dontCares <;> simp [hone, hdontCare]

theorem ofIndices_required_dontCares (table : TruthTable) :
    ofIndices table.width table.required.toList table.dontCares.toList = .ok table := by
  have hrange : ∀ n ∈ table.dontCares.toList ++ table.required.toList,
      n < mintermCount table.width := by
    intro n hn
    refine lt_size_of_output_ne fun hzero => ?_
    rcases List.mem_append.1 hn with hn | hn
    · rw [mem_dontCares.1 hn] at hzero
      cases hzero
    · rw [mem_required.1 hn] at hzero
      cases hzero
  obtain ⟨built, hbuilt, hwidth, houtput⟩ := exists_ofIndices table.width_le hrange
  rw [hbuilt, eq_of_output_eq hwidth fun m => ?_]
  have hone : m ∈ table.required.toList ↔ table.output m = .one := mem_required
  have hdontCare : m ∈ table.dontCares.toList ↔ table.output m = .dontCare := mem_dontCares
  simp only [houtput, hone, hdontCare]
  cases table.output m <;> rfl

/-! ## The sum of products -/

theorem parenthesis_not_mem_joined (numbers : List Nat) :
    ')' ∉ (Text.joined "," numbers).toList := by
  intro hmem
  rcases Text.isDigit_of_mem_joined hmem with hcomma | hdigit
  · revert hcomma
    decide
  · revert hdigit
    decide

/-- What stands before each closing parenthesis of a sum of products, and after the last one. -/
theorem parts_sumOfProducts (table : TruthTable) :
    Text.parts [')'] table.sumOfProducts.toList =
      ("SoP(".toList ++ (Text.joined "," table.required.toList).toList) ::
        if table.dontCares.isEmpty then [[]]
        else [" + d(".toList ++ (Text.joined "," table.dontCares.toList).toList, []] := by
  have hmark : ')' ∈ [')'] := List.mem_singleton_self ')'
  have hpart : ∀ (label : String) (numbers : List Nat), ')' ∉ label.toList →
      ')' ∉ label.toList ++ (Text.joined "," numbers).toList := by
    intro label numbers hlabel hmem
    exact (List.mem_append.1 hmem).elim hlabel (parenthesis_not_mem_joined numbers)
  unfold sumOfProducts
  simp only [String.toList_append]
  rw [show ")".toList = [')'] from rfl,
    Text.parts_append hmark (hpart "SoP(" table.required.toList (by decide))]
  congr 1
  split
  · rfl
  · rw [String.toList_append, String.toList_append, ← List.append_nil (_ ++ ")".toList),
      show ")".toList = [')'] from rfl,
      Text.parts_append hmark (hpart " + d(" table.dontCares.toList (by decide)), Text.parts_nil]

/-- **Tables of one width with the same sum of products are the same.** -/
theorem eq_of_sumOfProducts_eq (hwidth : table.width = other.width)
    (h : table.sumOfProducts = other.sumOfProducts) : table = other := by
  have hinj : ∀ {label : List Char} {s t : IndexSet},
      label ++ (Text.joined "," s.toList).toList = label ++ (Text.joined "," t.toList).toList →
        s = t := by
    intro label s t hst
    have hlists := Text.joined_injective (String.toList_inj.1 (List.append_cancel_left hst))
    ext n
    rw [IndexSet.mem_def, IndexSet.mem_def, hlists]
  have hparts := congrArg (fun text : String => Text.parts [')'] text.toList) h
  simp only [parts_sumOfProducts, List.cons.injEq] at hparts
  obtain ⟨hrequired, hrest⟩ := hparts
  refine eq_of_required_eq hwidth (hinj hrequired) ?_
  -- a sum without don't-cares has one part less, so that either both or none have some
  by_cases hempty : table.dontCares.isEmpty = true
  · by_cases hempty' : other.dontCares.isEmpty = true
    · rw [IndexSet.isEmpty_iff.1 hempty, IndexSet.isEmpty_iff.1 hempty']
    · rw [if_pos hempty, if_neg hempty'] at hrest
      cases hrest
  · by_cases hempty' : other.dontCares.isEmpty = true
    · rw [if_neg hempty, if_pos hempty'] at hrest
      cases hrest
    · rw [if_neg hempty, if_neg hempty'] at hrest
      exact hinj (List.cons.inj hrest).1

/--
**What building a table from two lists gives.** The width is looked at first, then the don't-cares
and then the ones, each from the left. Without a fault the table has these ones, and the
don't-cares that are not among them. Every table is built from its own two sets, and so its width
and its sum of products determine it.
-/
theorem ofIndices_exact (width : Nat) (ones dontCares : List Nat) :
    (maxVariables < width → ofIndices width ones dontCares = .error (.tooManyVariables width)) ∧
      (width ≤ maxVariables →
        (∀ before m after, dontCares ++ ones = before ++ m :: after →
          (∀ n ∈ before, n < mintermCount width) → mintermCount width ≤ m →
            ofIndices width ones dontCares = .error (.mintermOutOfRange m width)) ∧
        ((∀ n ∈ dontCares ++ ones, n < mintermCount width) →
          ∃ table : TruthTable, ofIndices width ones dontCares = .ok table ∧ table.width = width ∧
            table.required = .ofList ones ∧ table.dontCares = .ofList dontCares \ .ofList ones)) ∧
      (∀ table : TruthTable,
        ofIndices table.width table.required.toList table.dontCares.toList = .ok table) ∧
      ∀ table other : TruthTable, table.width = other.width →
        table.sumOfProducts = other.sumOfProducts → table = other := by
  refine ⟨fun hwidth => ofIndices_of_lt hwidth ones dontCares, fun hwidth => ⟨?_, ?_⟩,
    ofIndices_required_dontCares, fun _ _ => eq_of_sumOfProducts_eq⟩
  · intro before m after hsplit hbefore hm
    exact ofIndices_of_append_cons hwidth hsplit hbefore hm
  · exact exists_ofIndices_required hwidth

/-- Minterm 3 is in both lists. -/
example : (ofIndices 2 [3, 1, 3] [3, 0]).toOption.map sumOfProducts = some "SoP(1,3) + d(0)" := by
  decide +kernel

end TruthTable

end TwoLevel
