import Mathlib.Data.List.Nodup
import TwoLevel.Proofs.Cube.Splitting
import TwoLevel.Term.Collection

/-!
# What terms cover

A term carries the set of minterms that it was built to cover beside its cube. Charts read that
set and evaluation reads the cube, so the two must not drift apart: a term is `Exact` when it
covers the minterms that its cube accepts and no others. The terms of minterms of their width are
exact, and merging and collecting keep terms exact.

Collected terms cover what all terms of their cube cover together
(**`mem_covered_of_mem_collect`**), whether or not these are exact.
-/

namespace TwoLevel

/-! ## Collected terms -/

/-- Does some term with the cube cover the minterm? -/
def CoveredAt (ts : List Term) (c : Cube) (m : Nat) : Prop :=
  ∃ t ∈ ts, t.cube = c ∧ m ∈ t.covered

theorem coveredAt_collect {ts : List Term} {c : Cube} {m : Nat} :
    CoveredAt (collect ts) c m ↔ CoveredAt ts c m := by
  refine exists_mem_collect (p := fun t => t.cube = c ∧ m ∈ t.covered) fun hab => ?_
  rw [Term.cube_absorb, Term.mem_covered_absorb, and_or_left, hab]

/--
**A collected term covers what the terms of its cube cover together.** It is the only collected term
with its cube.
-/
theorem mem_covered_of_mem_collect {ts : List Term} {s : Term} (hs : s ∈ collect ts) {m : Nat} :
    m ∈ s.covered ↔ CoveredAt ts s.cube m := by
  rw [← coveredAt_collect]
  constructor
  · intro hm
    exact ⟨s, hs, rfl, hm⟩
  · rintro ⟨t, ht, hcube, hm⟩
    have heq : t = s := List.inj_on_of_nodup_map (nodup_map_cube_collect ts) ht hs hcube
    exact heq ▸ hm

/-! ## Exact terms -/

namespace Cube

theorem accepts_ofIndex {w m n : Nat} (hm : m < mintermCount w) (hn : n < mintermCount w) :
    (ofIndex w m).accepts n = true ↔ n = m := by
  constructor
  · intro h
    rw [accepts_iff] at h
    apply Nat.eq_of_testBit_eq
    intro bit
    by_cases hbit : bit < w
    · have hadmits := h bit
      rw [digit_ofIndex hbit, Digit.admits_ofBit, beq_iff_eq] at hadmits
      exact hadmits.symm
    · have hpow : 2 ^ w ≤ 2 ^ bit := Nat.pow_le_pow_right (by decide) (Nat.not_lt.1 hbit)
      rw [Nat.testBit_lt_two_pow (Nat.lt_of_lt_of_le hn hpow),
        Nat.testBit_lt_two_pow (Nat.lt_of_lt_of_le hm hpow)]
  · rintro rfl
    rw [accepts_iff]
    intro bit
    by_cases hbit : bit < w
    · rw [digit_ofIndex hbit]
      simp
    · rw [digit_of_width_le (by rw [width_ofIndex]; exact Nat.not_lt.1 hbit)]
      rfl

@[simp] theorem eliminated_ofIndex (w m : Nat) : (ofIndex w m).eliminated = 0 := by
  induction w generalizing m with
  | zero => rfl
  | succ w ih =>
    have hbit : (Digit.ofBit (m.testBit 0) == .free) = false := by cases m.testBit 0 <;> rfl
    have hrest := ih (m / 2)
    simp only [eliminated, ofIndex, List.count_cons, hbit] at hrest ⊢
    simpa using hrest

end Cube

namespace Term

/-- A term that covers the minterms its cube accepts and no others. -/
def Exact (t : Term) : Prop := t.covered = t.cube.minterms

theorem exact_ofMinterm {m w : Nat} (h : m < mintermCount w) : (ofMinterm m w).Exact := by
  ext n
  rw [covered_ofMinterm, cube_ofMinterm, IndexSet.mem_singleton, Cube.mem_minterms,
    Cube.width_ofIndex]
  constructor
  · rintro rfl
    exact ⟨h, (Cube.accepts_ofIndex h h).2 rfl⟩
  · rintro ⟨hn, haccepts⟩
    exact (Cube.accepts_ofIndex h hn).1 haccepts

theorem exact_ofCube (c : Cube) : (ofCube c).Exact := rfl

theorem Exact.mem_covered_iff {t : Term} (h : t.Exact) {m : Nat} (hm : m < mintermCount t.width) :
    m ∈ t.covered ↔ t.accepts m = true := by
  rw [h, Cube.mem_minterms]
  exact and_iff_right hm

theorem Exact.merge? {a b t : Term} (ha : a.Exact) (hb : b.Exact) (h : a.merge? b = some t) :
    t.Exact := by
  obtain ⟨hcube, hcovered⟩ := merge?_eq_some_iff.1 h
  obtain ⟨hwa, hwb⟩ := Cube.width_of_merge? hcube
  ext m
  rw [hcovered, IndexSet.mem_union, ha, hb]
  simp only [Cube.mem_minterms, hwa, hwb, Cube.accepts_of_merge? hcube, Bool.or_eq_true]
  exact and_or_left.symm

theorem exact_of_mem_collect {ts : List Term} (h : ∀ t ∈ ts, t.Exact) {s : Term}
    (hs : s ∈ collect ts) : s.Exact := by
  ext m
  rw [mem_covered_of_mem_collect hs]
  constructor
  · rintro ⟨r, hr, hcube, hm⟩
    rw [h r hr, hcube] at hm
    exact hm
  · intro hm
    obtain ⟨r, hr, hcube⟩ := List.mem_map.1 (mem_map_cube_collect.1 (List.mem_map_of_mem hs))
    rw [← hcube, ← h r hr] at hm
    exact ⟨r, hr, hcube, hm⟩

end Term

end TwoLevel
