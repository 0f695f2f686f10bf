import Mathlib.Data.Nat.BinaryRec
import Mathlib.Tactic.ByContra
import Mathlib.Tactic.Push
import TwoLevel.Proofs.Cube.Families
import TwoLevel.Proofs.Term.Coverage
import TwoLevel.TruthTable

/-!
# Implicants of a table

An implicant of a table is a cube of its width that accepts no minterm with output 0; whether an
output is 1 or unspecified makes no difference. It is prime when freeing any fixed digit makes it
accept one.

A cube is an implicant exactly if both its halves are (**`isImplicant_iff_halves`**). This is the
fact on which merging rests: going up it turns two implicants into a larger one, going down it
finds the two that an implicant is merged from (`mergeFamily_isImplicant`).

An implicant is prime exactly if it merges with no implicant (**`unmergedIn_isImplicant_iff`**), and
every implicant lies in a prime one (**`IsImplicant.exists_prime`**).
-/

namespace TwoLevel

theorem Cube.exists_eq_ofIndex {c : Cube} (h : c.eliminated = 0) :
    ∃ m < mintermCount c.width, c = ofIndex c.width m := by
  induction c with
  | nil => exact ⟨0, by decide, rfl⟩
  | cons d c ih =>
    simp only [eliminated, List.count_cons] at h ih
    have hfixed : d ≠ .free := by
      rintro rfl
      simp at h
    obtain ⟨value, rfl⟩ := exists_eq_ofBit hfixed
    obtain ⟨m, hm, hc⟩ := ih (by omega)
    have hbit : (Nat.bit value m).testBit 0 = value := by simp
    have hhalf : Nat.bit value m / 2 = m := Nat.bit_div_two value m
    refine ⟨Nat.bit value m, ?_, ?_⟩
    · show _ < mintermCount (width c + 1)
      rw [mintermCount_succ]
      cases value <;> simp [Nat.bit] <;> omega
    · show _ = ofIndex (width c + 1) _
      rw [ofIndex, hbit, hhalf, ← hc]

namespace TruthTable

variable {table : TruthTable} {c : Cube}

/-- A cube of the table's width that accepts no minterm with output 0. -/
structure IsImplicant (table : TruthTable) (c : Cube) : Prop where
  width_eq : c.width = table.width
  output_ne_zero : ∀ m < table.size, c.accepts m = true → table.output m ≠ .zero

/-- An implicant that is none any more when one of its fixed digits is freed. -/
structure IsPrimeImplicant (table : TruthTable) (c : Cube) : Prop extends table.IsImplicant c where
  exists_zero : ∀ bit, c.digit bit ≠ .free →
    ∃ m < table.size, (c.setDigit bit .free).accepts m = true ∧ table.output m = .zero

theorem isImplicant_ofIndex {m : Nat} (hm : m < table.size) :
    table.IsImplicant (.ofIndex table.width m) ↔ table.output m ≠ .zero := by
  constructor
  · intro h
    exact h.output_ne_zero m hm ((Cube.accepts_ofIndex hm hm).2 rfl)
  · intro h
    refine ⟨Cube.width_ofIndex _ _, fun n hn haccepts => ?_⟩
    rwa [(Cube.accepts_ofIndex hm hn).1 haccepts]

/-! ## Halves -/

/-- **A cube is an implicant exactly if both its halves are.** -/
theorem isImplicant_iff_halves {bit : Nat} (hbit : bit < c.width) (hfree : c.digit bit = .free) :
    table.IsImplicant c ↔ ∀ value, table.IsImplicant (c.setDigit bit (.ofBit value)) := by
  constructor
  · intro h value
    refine ⟨by rw [Cube.width_setDigit, h.width_eq], fun m hm haccepts => ?_⟩
    exact h.output_ne_zero m hm ((Cube.accepts_setDigit_ofBit hbit hfree).1 haccepts).1
  · intro h
    refine ⟨by rw [← (h false).width_eq, Cube.width_setDigit], fun m hm haccepts => ?_⟩
    -- the minterm lies in the half of its own bit
    exact (h (m.testBit bit)).output_ne_zero m hm
      ((Cube.accepts_setDigit_ofBit hbit hfree).2 ⟨haccepts, rfl⟩)

/-- Two implicants that merge make an implicant, and only implicants merge into one. -/
theorem isImplicant_of_merge? {a b : Cube} (h : a.merge? b = some c) :
    table.IsImplicant c ↔ table.IsImplicant a ∧ table.IsImplicant b := by
  obtain ⟨bit, value, hbit, hfree, rfl, rfl⟩ := Cube.exists_halves_of_merge? h
  rw [isImplicant_iff_halves hbit hfree]
  exact Bool.forall_bool' value

/--
A cube that merges with an implicant is one exactly if the merged cube is, and an implicant with a
free digit is merged from its two halves.
-/
theorem mergeFamily_isImplicant : Cube.MergeFamily table.IsImplicant 0 where
  merge_iff ha hmerge := by
    rw [isImplicant_of_merge? hmerge]
    exact (and_iff_right ha).symm
  exists_merge {c} hc hpos := by
    -- any free digit will do
    obtain ⟨bit, hbit, hfree⟩ := Cube.exists_digit_eq_free hpos
    have hhalves := (isImplicant_iff_halves hbit hfree).1 hc
    exact ⟨_, _, hhalves true, hhalves false, Cube.merge?_halves hbit hfree true⟩

/-! ## Prime implicants -/

theorem IsImplicant.isPrimeImplicant_iff (h : table.IsImplicant c) :
    table.IsPrimeImplicant c ↔
      ∀ bit, c.digit bit ≠ .free → ¬ table.IsImplicant (c.setDigit bit .free) := by
  constructor
  · intro hprime bit hbit hfreed
    obtain ⟨m, hm, haccepts, hzero⟩ := hprime.exists_zero bit hbit
    exact hfreed.output_ne_zero m hm haccepts hzero
  · intro hmaximal
    refine ⟨h, fun bit hbit => ?_⟩
    by_contra hnone
    apply hmaximal bit hbit
    refine ⟨by rw [Cube.width_setDigit, h.width_eq], fun m hm haccepts hzero => ?_⟩
    exact hnone ⟨m, hm, haccepts, hzero⟩

/-- **An implicant is prime exactly if it merges with no implicant.** -/
theorem unmergedIn_isImplicant_iff :
    Cube.UnmergedIn table.IsImplicant c ↔ table.IsPrimeImplicant c := by
  rw [mergeFamily_isImplicant.unmergedIn_iff]
  constructor
  · intro ⟨hc, hmaximal⟩
    exact hc.isPrimeImplicant_iff.2 hmaximal
  · intro hprime
    exact ⟨hprime.toIsImplicant, hprime.toIsImplicant.isPrimeImplicant_iff.1 hprime⟩

/--
**Every implicant lies in a prime implicant.** Induction on the number of its literals: unless it is
prime, one of its digits can be freed.
-/
theorem IsImplicant.exists_prime (h : table.IsImplicant c) :
    ∃ b, table.IsPrimeImplicant b ∧ ∀ m, c.accepts m = true → b.accepts m = true := by
  induction hn : c.literals generalizing c with
  | zero =>
    -- there is no digit to free
    refine ⟨c, h.isPrimeImplicant_iff.2 fun bit hbit => ?_, fun _ haccepts => haccepts⟩
    have hfreed := Cube.literals_setDigit_free hbit
    omega
  | succ n ih =>
    by_cases hprime : table.IsPrimeImplicant c
    · exact ⟨c, hprime, fun _ haccepts => haccepts⟩
    · rw [h.isPrimeImplicant_iff] at hprime
      push Not at hprime
      obtain ⟨bit, hbit, himplicant⟩ := hprime
      have hfreed := Cube.literals_setDigit_free hbit
      obtain ⟨b, hb, hle⟩ := ih himplicant (by omega)
      exact ⟨b, hb, fun m haccepts => hle m (Cube.accepts_setDigit_free haccepts)⟩

end TruthTable

end TwoLevel
