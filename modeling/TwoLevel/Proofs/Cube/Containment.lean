import Mathlib.Tactic.ByContra
import TwoLevel.Proofs.Cube.Counting

/-!
# Cubes that lie in another cube

A cube lies in another one if the other accepts all its minterms. For cubes of one width this can be
read off the digits: wherever the larger cube is fixed the smaller one is fixed too, at the same
value (**`minterms_subset_iff`**). So a cube that lies in a different one can be freed somewhere
without leaving it (**`exists_setDigit_free_subset`**).
-/

namespace TwoLevel.Cube

variable {a b c : Cube}

/-! ## Digits from minterms -/

theorem exists_mem_minterms (c : Cube) : ∃ m, m ∈ c.minterms := by
  apply IndexSet.exists_mem_of_not_isEmpty
  rw [IndexSet.isEmpty_iff]
  intro hempty
  have hsize := size_minterms c
  rw [hempty] at hsize
  exact absurd hsize (Nat.ne_of_lt (mintermCount_pos _))

theorem digit_eq_ofBit_of_accepts {m bit : Nat} (h : c.accepts m = true)
    (hfixed : c.digit bit ≠ .free) : c.digit bit = .ofBit (m.testBit bit) := by
  obtain ⟨value, hvalue⟩ := exists_eq_ofBit hfixed
  have hadmits := accepts_iff.1 h bit
  rw [hvalue, Digit.admits_ofBit, beq_iff_eq] at hadmits
  rw [hvalue, hadmits]

theorem eq_of_forall_digit_eq (hwidth : a.width = b.width) (h : ∀ bit, a.digit bit = b.digit bit) :
    a = b := by
  apply List.ext_getElem hwidth
  intro bit ha hb
  rw [getElem_eq_digit a ha, getElem_eq_digit b hb]
  exact h bit

/-- Cubes that fix the same bits and have a minterm in common are equal. -/
theorem eq_of_support_eq {m : Nat} (hwidth : a.width = b.width) (hsupport : a.support = b.support)
    (ha : a.accepts m = true) (hb : b.accepts m = true) : a = b := by
  apply eq_of_forall_digit_eq hwidth
  intro bit
  by_cases hbit : bit ∈ a.support
  · have hbit' : bit ∈ b.support := hsupport ▸ hbit
    rw [digit_eq_ofBit_of_accepts ha (mem_support.1 hbit),
      digit_eq_ofBit_of_accepts hb (mem_support.1 hbit')]
  · have hbit' : bit ∉ b.support := hsupport ▸ hbit
    rw [not_ne_iff.1 (mt mem_support.2 hbit), not_ne_iff.1 (mt mem_support.2 hbit')]

/-! ## Containment -/

theorem accepts_of_digit_eq (h : ∀ bit, b.digit bit ≠ .free → a.digit bit = b.digit bit) {m : Nat}
    (ha : a.accepts m = true) : b.accepts m = true := by
  rw [accepts_iff] at ha ⊢
  intro bit
  by_cases hfree : b.digit bit = .free
  · rw [hfree]
    rfl
  · rw [← h bit hfree]
    exact ha bit

/-- A cube that is free at a bit has minterms with either value there. -/
theorem exists_mem_minterms_testBit_eq {bit : Nat} (hbit : bit < c.width)
    (hfree : c.digit bit = .free) (value : Bool) : ∃ m ∈ c.minterms, m.testBit bit = value := by
  obtain ⟨m, hm⟩ := exists_mem_minterms (c.setDigit bit (.ofBit value))
  exact ⟨m, (mem_minterms_setDigit_ofBit hbit hfree).1 hm⟩

/-- **A cube lies in another one exactly if it has the same digit wherever that one is fixed.** -/
theorem minterms_subset_iff (hwidth : a.width = b.width) :
    (∀ m ∈ a.minterms, m ∈ b.minterms) ↔
      ∀ bit, b.digit bit ≠ .free → a.digit bit = b.digit bit := by
  constructor
  · intro hsubset bit hfixed
    have hvalue : ∀ m ∈ a.minterms, b.digit bit = .ofBit (m.testBit bit) := fun m hm =>
      digit_eq_ofBit_of_accepts (mem_minterms.1 (hsubset m hm)).2 hfixed
    by_cases hfree : a.digit bit = .free
    · -- minterms of both values would lie in the larger cube
      have hbit : bit < a.width := hwidth ▸ lt_width_of_digit_ne hfixed
      obtain ⟨m, hm, hone⟩ := exists_mem_minterms_testBit_eq hbit hfree true
      obtain ⟨n, hn, hzero⟩ := exists_mem_minterms_testBit_eq hbit hfree false
      have heq : Digit.ofBit true = .ofBit false := by
        rw [← hone, ← hzero, ← hvalue m hm, ← hvalue n hn]
      exact absurd heq (by decide)
    · obtain ⟨m, hm⟩ := exists_mem_minterms a
      rw [digit_eq_ofBit_of_accepts (mem_minterms.1 hm).2 hfree, hvalue m hm]
  · intro h m hm
    rw [mem_minterms] at hm ⊢
    rw [← hwidth]
    exact ⟨hm.1, accepts_of_digit_eq h hm.2⟩

/-- **A cube that lies in a different one can be freed at some bit without leaving it.** -/
theorem exists_setDigit_free_subset (hwidth : a.width = b.width)
    (hsubset : ∀ m ∈ a.minterms, m ∈ b.minterms) (hne : a ≠ b) :
    ∃ bit, a.digit bit ≠ .free ∧ ∀ m ∈ (a.setDigit bit .free).minterms, m ∈ b.minterms := by
  have hdigit := (minterms_subset_iff hwidth).1 hsubset
  obtain ⟨bit, hbit⟩ : ∃ bit, a.digit bit ≠ b.digit bit := by
    by_contra hsame
    exact hne (eq_of_forall_digit_eq hwidth fun bit => not_ne_iff.1 (not_exists.1 hsame bit))
  have hfree : b.digit bit = .free := by
    by_contra hfixed
    exact hbit (hdigit bit hfixed)
  have hfixed : a.digit bit ≠ .free := hfree ▸ hbit
  refine ⟨bit, hfixed, (minterms_subset_iff (by rwa [width_setDigit])).2 fun i hi => ?_⟩
  rw [digit_setDigit (lt_width_of_digit_ne hfixed)]
  split
  · rename_i heq
    exact absurd (heq ▸ hfree) hi
  · exact hdigit i hi

end TwoLevel.Cube
