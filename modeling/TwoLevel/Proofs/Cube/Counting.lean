import Mathlib.Data.List.Count
import TwoLevel.Proofs.Cube.Splitting

/-!
# Counting bits and minterms of a cube

The bits that a cube fixes at one value are `Cube.fixedAt`, those that it fixes at any value are its
support. Every bit of the width is in the support or free (`size_support_add_eliminated`), and it is
fixed at 1, fixed at 0 or free, and no bit is two of these (`size_fixedAt_add`), so that the number
of free bits is the width less the numbers of the others.

A cube accepts two to the number of its free bits (**`size_minterms`**), for each digit that is
added in front doubles the minterms if it is free and keeps their number otherwise.
-/

namespace TwoLevel.Cube

/-! ## Fixed bits -/

/-- The bits that are fixed at a value. -/
def fixedAt (c : Cube) (value : Bool) : IndexSet :=
  (IndexSet.range c.width).filter (c.digit · = .ofBit value)

theorem mem_fixedAt {c : Cube} {value : Bool} {bit : Nat} :
    bit ∈ c.fixedAt value ↔ c.digit bit = .ofBit value := by
  simp only [fixedAt, IndexSet.mem_filter, IndexSet.mem_range, decide_eq_true_eq,
    and_iff_right_iff_imp]
  intro h
  apply lt_width_of_digit_ne
  rw [h]
  exact Digit.ofBit_ne_free value

theorem lt_width_of_mem_fixedAt {c : Cube} {value : Bool} {bit : Nat}
    (h : bit ∈ c.fixedAt value) : bit < c.width :=
  IndexSet.mem_range.1 (IndexSet.mem_filter.1 h).1

theorem not_mem_fixedAt_not {c : Cube} {value : Bool} {bit : Nat} (h : bit ∈ c.fixedAt value) :
    bit ∉ c.fixedAt !value := by
  rw [mem_fixedAt] at h ⊢
  rw [h]
  cases value <;> decide

/-- The bits of a cube that have a digit are as many as its list of digits holds. -/
theorem size_filter_digit (c : Cube) (p : Digit → Bool) :
    ((IndexSet.range c.width).filter fun bit => p (c.digit bit)).size = c.countP p := by
  show ((List.range c.length).filter fun bit => p (c.digit bit)).length = _
  rw [← List.countP_eq_length_filter]
  induction c with
  | nil => rfl
  | cons d c ih =>
    rw [List.length_cons, List.range_succ_eq_map, List.countP_cons, List.countP_map,
      List.countP_cons, ← ih]
    rfl

theorem size_fixedAt (c : Cube) (value : Bool) :
    (c.fixedAt value).size = c.count (.ofBit value) :=
  size_filter_digit c (· = .ofBit value)

theorem size_support (c : Cube) : c.support.size = c.literals := size_filter_digit c (·.isFixed)

theorem size_support_add_eliminated (c : Cube) : c.support.size + c.eliminated = c.width := by
  rw [size_support, literals_add_eliminated]

theorem size_fixedAt_add (c : Cube) :
    (c.fixedAt true).size + (c.fixedAt false).size + c.eliminated = c.width := by
  rw [size_fixedAt, size_fixedAt]
  induction c with
  | nil => rfl
  | cons d c ih =>
    simp only [eliminated, width] at ih ⊢
    cases d <;> simp [Digit.ofBit] at ih ⊢ <;> omega

/-! ## Minterms -/

theorem countP_range_two_mul (p : Nat → Bool) (n : Nat) :
    (List.range (2 * n)).countP p =
      (List.range n).countP (fun i => p (2 * i)) +
        (List.range n).countP (fun i => p (2 * i + 1)) := by
  induction n with
  | zero => rfl
  | succ n ih =>
    rw [show 2 * (n + 1) = 2 * n + 1 + 1 from by omega]
    simp only [List.range_succ, List.countP_append, List.countP_singleton, ih]
    omega

theorem accepts_cons_two_mul (d : Digit) (c : Cube) (m : Nat) :
    accepts (d :: c) (2 * m) = (d.admits false && accepts c m) := by
  have hhalf : 2 * m / 2 = m := by omega
  simp [accepts, hhalf]

theorem accepts_cons_two_mul_add_one (d : Digit) (c : Cube) (m : Nat) :
    accepts (d :: c) (2 * m + 1) = (d.admits true && accepts c m) := by
  have hhalf : (2 * m + 1) / 2 = m := by omega
  simp [accepts, hhalf]

/-- **A cube accepts two to the number of its free digits.** Induction on the digits. -/
theorem size_minterms (c : Cube) : c.minterms.size = mintermCount c.eliminated := by
  show ((List.range (mintermCount c.length)).filter c.accepts).length = _
  rw [← List.countP_eq_length_filter]
  induction c with
  | nil => rfl
  | cons d c ih =>
    rw [List.length_cons, mintermCount_succ, countP_range_two_mul]
    simp only [accepts_cons_two_mul, accepts_cons_two_mul_add_one]
    cases d with
    | zero => simpa [Digit.admits, eliminated] using ih
    | one => simpa [Digit.admits, eliminated] using ih
    | free =>
      -- both values of the bit are accepted, with the same minterms of the rest
      have hfree : eliminated (.free :: c) = eliminated c + 1 := by simp [eliminated]
      simp only [Digit.admits, Bool.true_and]
      rw [hfree, mintermCount_succ, ih]
      omega

end TwoLevel.Cube
