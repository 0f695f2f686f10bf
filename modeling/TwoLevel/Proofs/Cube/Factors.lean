import Mathlib.Data.List.Nodup
import TwoLevel.Cover
import TwoLevel.Proofs.Cube.Splitting

/-!
# The literals of a cube

The fixed digits of a cube are its factors, one `Literal` for each. A cube accepts the minterms on
which all its factors hold (**`all_holds_factors`**), so that a list of cubes is an `Expression`,
and the expression has the value that the cubes have together (`Cover.accepts_eq_eval`). With its
width the factors of a cube determine it (`ofFactors_factors`).
-/

namespace TwoLevel

/-- A variable, given by its bit, with the value asked of it. -/
structure Literal where
  bit : Nat
  value : Bool
  deriving DecidableEq, Repr

/-- Does a minterm give the variable its value? -/
def Literal.holds (l : Literal) (m : Nat) : Bool := m.testBit l.bit == l.value

/-- A sum of products of literals. -/
abbrev Expression := List (List Literal)

/-- The value of an expression on a minterm. -/
def Expression.eval (e : Expression) (m : Nat) : Bool :=
  e.any fun product => product.all (·.holds m)

namespace Cube

/-- The literals of the fixed digits, most significant first. -/
def factors (c : Cube) : List Literal :=
  c.zipIdx.reverse.filterMap fun (digit, bit) =>
    match digit with
    | .free => none
    | .one => some ⟨bit, true⟩
    | .zero => some ⟨bit, false⟩

variable {c : Cube}

theorem digit_ne_free_of_eq_ofBit {bit : Nat} {value : Bool} (h : c.digit bit = .ofBit value) :
    c.digit bit ≠ .free :=
  h ▸ Digit.ofBit_ne_free value

theorem mem_factors {l : Literal} : l ∈ c.factors ↔ c.digit l.bit = .ofBit l.value := by
  obtain ⟨bit, value⟩ := l
  simp only [factors, List.mem_filterMap, List.mem_reverse, Prod.exists,
    List.mem_zipIdx_iff_getElem?]
  constructor
  · rintro ⟨d, i, hd, h⟩
    cases d <;> cases h <;> simp [digit, hd, Digit.ofBit]
  · intro h
    have hbit : bit < c.length := lt_width_of_digit_ne (digit_ne_free_of_eq_ofBit h)
    refine ⟨.ofBit value, bit, ?_, by cases value <;> rfl⟩
    rw [List.getElem?_eq_getElem hbit, getElem_eq_digit c hbit, h]

theorem factors_eq_nil_iff : c.factors = [] ↔ c.isFree = true := by
  rw [isFree, List.all_eq_true, List.eq_nil_iff_forall_not_mem]
  constructor
  · intro h d hd
    obtain ⟨bit, hbit, rfl⟩ := List.mem_iff_getElem.1 hd
    rw [decide_eq_true_iff]
    refine Decidable.byContradiction fun hne => ?_
    obtain ⟨value, hvalue⟩ := exists_eq_ofBit hne
    exact h ⟨bit, value⟩ (mem_factors.2 ((getElem_eq_digit c hbit).symm.trans hvalue))
  · rintro h l hl
    have hne := digit_ne_free_of_eq_ofBit (mem_factors.1 hl)
    have hbit : l.bit < c.length := lt_width_of_digit_ne hne
    rw [← getElem_eq_digit c hbit] at hne
    exact hne (of_decide_eq_true (h _ (List.getElem_mem hbit)))

theorem nodup_factors (c : Cube) : c.factors.Nodup := by
  have hbits : c.zipIdx.Nodup :=
    (pairwise_zipIdx c).imp fun hlt heq => Nat.ne_of_lt hlt (congrArg Prod.snd heq)
  refine (List.nodup_reverse.2 hbits).filterMap ?_
  rintro ⟨d, bit⟩ ⟨e, bit'⟩ l hd he
  cases d <;> cases hd <;> cases e <;> cases he <;> rfl

/-- **A cube accepts the minterms on which all its factors hold.** -/
theorem all_holds_factors (c : Cube) (m : Nat) : c.factors.all (·.holds m) = c.accepts m := by
  rw [Bool.eq_iff_iff, List.all_eq_true, accepts_iff]
  constructor
  · intro h bit
    by_cases hfree : c.digit bit = .free
    · rw [hfree]
      rfl
    · obtain ⟨value, hvalue⟩ := exists_eq_ofBit hfree
      have hholds := h ⟨bit, value⟩ (mem_factors.2 hvalue)
      rw [hvalue, Digit.admits_ofBit, Bool.beq_comm]
      exact hholds
  · intro h l hl
    have hadmits := h l.bit
    rw [mem_factors.1 hl, Digit.admits_ofBit, Bool.beq_comm] at hadmits
    exact hadmits

/-- The cube of some width that is fixed as the literals say, and free at all other bits. -/
def ofFactors (width : Nat) (product : List Literal) : Cube :=
  (List.range width).map fun bit =>
    if ⟨bit, true⟩ ∈ product then .one else if ⟨bit, false⟩ ∈ product then .zero else .free

@[simp] theorem width_ofFactors (width : Nat) (product : List Literal) :
    (ofFactors width product).width = width := by
  simp [ofFactors, Cube.width]

theorem digit_ofFactors {width bit : Nat} (h : bit < width) (product : List Literal) :
    (ofFactors width product).digit bit =
      if ⟨bit, true⟩ ∈ product then .one else if ⟨bit, false⟩ ∈ product then .zero else .free := by
  have hbit : bit < (ofFactors width product).length := by simpa [ofFactors] using h
  rw [← getElem_eq_digit _ hbit]
  simp only [ofFactors, List.getElem_map, List.getElem_range]

theorem ofFactors_factors (c : Cube) : ofFactors c.width c.factors = c := by
  unfold ofFactors
  refine List.ext_getElem (by simp [width]) fun bit _ hbit => ?_
  rw [List.getElem_map, List.getElem_range, getElem_eq_digit c hbit]
  simp only [mem_factors]
  cases c.digit bit <;> decide

theorem factors_ofFactors_singleton {width : Nat} {l : Literal} (h : l.bit < width) :
    (ofFactors width [l]).factors = [l] := by
  refine List.perm_singleton.1 ((List.perm_ext_iff_of_nodup (nodup_factors _)
    (List.nodup_singleton l)).2 fun x => ?_)
  rw [mem_factors, List.mem_singleton]
  constructor
  · intro hdigit
    have hx := lt_width_of_digit_ne (digit_ne_free_of_eq_ofBit hdigit)
    rw [width_ofFactors] at hx
    rw [digit_ofFactors hx] at hdigit
    obtain ⟨bit, value⟩ := x
    cases value <;> grind [Digit.ofBit]
  · rintro rfl
    rw [digit_ofFactors h]
    obtain ⟨bit, value⟩ := x
    cases value <;> simp [Digit.ofBit]

end Cube

theorem Cover.accepts_eq_eval (cover : Cover) (m : Nat) :
    cover.accepts m = Expression.eval (cover.terms.map (·.cube.factors)) m := by
  rw [Expression.eval, List.any_map, accepts]
  congr 1
  funext t
  exact (t.cube.all_holds_factors m).symm

end TwoLevel
