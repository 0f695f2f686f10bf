import Mathlib.Data.Bool.Basic
import Mathlib.Data.List.Perm.Subperm
import TwoLevel.Proofs.Cube.Containment
import TwoLevel.Proofs.Generation.Families

/-!
# Primes of given terms

The merge process may start from any terms, not only from those of single minterms. It compares
terms with the same free digits in the same round, and nothing else. So what it finds need not be
prime: a term whose free digits are not those of the others may lie in a larger one and still merge
with none, and equal cubes that come up in different rounds are not seen to be equal
(`primes_not_antichain`).

Nothing of this happens when the given terms have the same digits free. The cubes that fix no bits
but theirs and accept only what they accept then form a family that merging builds up
(**`mergeFamily_isImplicantOf`**), and the primes are its members that merge with none, which is to
say the maximal ones (**`mem_map_cube_primes_iff`**). So no prime lies in another one
(**`primes_antichain`**).
-/

namespace TwoLevel

theorem IndexSet.subperm_of_subset {s t : IndexSet} (h : ∀ n ∈ s, n ∈ t) :
    s.toList.Subperm t.toList :=
  List.Nodup.subperm s.nodup_toList h

/--
A cube of the width that fixes no bits but the given ones, and that accepts no minterm which none of
the terms accepts.
-/
structure IsImplicantOf (ts : List Term) (width : Nat) (support : IndexSet) (c : Cube) : Prop where
  width_eq : c.width = width
  mem_of_mem_support : ∀ bit ∈ c.support, bit ∈ support
  exists_accepts : ∀ m ∈ c.minterms, ∃ t ∈ ts, t.accepts m = true

variable {ts : List Term} {width : Nat} {support : IndexSet} {c : Cube}

/-! ## The family -/

/-- A bit at which both halves of a cube are allowed to be fixed is one of the given bits. -/
theorem isImplicantOf_iff_halves {bit : Nat} (hbit : bit < c.width) (hfree : c.digit bit = .free) :
    (∀ value, IsImplicantOf ts width support (c.setDigit bit (.ofBit value))) ↔
      bit ∈ support ∧ IsImplicantOf ts width support c := by
  constructor
  · intro h
    have hsupport : ∀ i, i = bit ∨ i ∈ c.support → i ∈ support := fun i hi =>
      (h true).mem_of_mem_support i ((Cube.mem_support_setDigit_ofBit hbit true).2 hi)
    refine ⟨hsupport bit (Or.inl rfl), ?_, fun i hi => hsupport i (Or.inr hi), fun m hm => ?_⟩
    · rw [← (h true).width_eq, Cube.width_setDigit]
    · -- the minterm lies in the half of its own bit
      exact (h (m.testBit bit)).exists_accepts m
        ((Cube.mem_minterms_setDigit_ofBit hbit hfree).2 ⟨hm, rfl⟩)
  · rintro ⟨hmem, h⟩ value
    refine ⟨by rw [Cube.width_setDigit, h.width_eq], fun i hi => ?_, fun m hm => ?_⟩
    · rcases (Cube.mem_support_setDigit_ofBit hbit value).1 hi with rfl | hi
      · exact hmem
      · exact h.mem_of_mem_support i hi
    · exact h.exists_accepts m ((Cube.mem_minterms_setDigit_ofBit hbit hfree).1 hm).1

theorem IsImplicantOf.le_eliminated (hc : IsImplicantOf ts width support c) :
    width - support.size ≤ c.eliminated := by
  have hsize : c.support.size ≤ support.size :=
    (IndexSet.subperm_of_subset hc.mem_of_mem_support).length_le
  have hsum := Cube.size_support_add_eliminated c
  rw [hc.width_eq] at hsum
  omega

/-- An implicant with more free digits than the terms have is free at a bit that these fix. -/
theorem IsImplicantOf.exists_digit_eq_free (hc : IsImplicantOf ts width support c)
    (hlt : width - support.size < c.eliminated) : ∃ bit ∈ support, c.digit bit = .free := by
  by_contra hnone
  have hsupport : c.support = support := by
    ext bit
    refine ⟨hc.mem_of_mem_support bit, fun hbit => Cube.mem_support.2 fun hfree => ?_⟩
    exact hnone ⟨bit, hbit, hfree⟩
  have hsum := Cube.size_support_add_eliminated c
  rw [hsupport, hc.width_eq] at hsum
  omega

section

variable (h : ∀ t ∈ ts, t.width = width ∧ t.cube.support = support)
include h

/--
A cube that merges with an implicant is one exactly if the merged cube is, and an implicant with
more free digits than the given terms is merged from its halves at a bit that these fix.
-/
theorem mergeFamily_isImplicantOf :
    Cube.MergeFamily (IsImplicantOf ts width support) (width - support.size) where
  merge_iff {a b c} ha hmerge := by
    obtain ⟨bit, value, hbit, hfree, rfl, rfl⟩ := Cube.exists_halves_of_merge? hmerge
    have hmem : bit ∈ support :=
      ha.mem_of_mem_support bit ((Cube.mem_support_setDigit_ofBit hbit value).2 (Or.inl rfl))
    constructor
    · intro hb
      exact ((isImplicantOf_iff_halves hbit hfree).1 ((Bool.forall_bool' value).2 ⟨ha, hb⟩)).2
    · intro hc
      exact (isImplicantOf_iff_halves hbit hfree).2 ⟨hmem, hc⟩ !value
  exists_merge {c} hc hlt := by
    obtain ⟨bit, hmem, hfree⟩ := hc.exists_digit_eq_free hlt
    have hbit : bit < c.width := by
      obtain ⟨m, hm⟩ := Cube.exists_mem_minterms c
      obtain ⟨t, ht, -⟩ := hc.exists_accepts m hm
      rw [hc.width_eq, ← (h t ht).1]
      rw [← (h t ht).2] at hmem
      exact Cube.lt_width_of_digit_ne (Cube.mem_support.1 hmem)
    have hhalves := (isImplicantOf_iff_halves hbit hfree).2 ⟨hmem, hc⟩
    exact ⟨_, _, hhalves true, hhalves false, Cube.merge?_halves hbit hfree true⟩

/-- The implicants with as few free digits as the given terms are the cubes of these. -/
theorem Generation.lists_initial :
    (Generation.initial ts).Lists (IsImplicantOf ts width support) (width - support.size) where
  nodup := nodup_map_cube_collect _
  mem_iff c := by
    have hsum : ∀ t ∈ ts, support.size + t.cube.eliminated = width := fun t ht => by
      rw [← (h t ht).2, Cube.size_support_add_eliminated]
      exact (h t ht).1
    rw [initial, mem_map_cube_collect, List.mem_map]
    constructor
    · rintro ⟨t, ht, rfl⟩
      have := hsum t ht
      refine ⟨⟨(h t ht).1, fun bit hbit => (h t ht).2 ▸ hbit, fun m hm => ?_⟩, by omega⟩
      exact ⟨t, ht, (Cube.mem_minterms.1 hm).2⟩
    · rintro ⟨hc, hk⟩
      obtain ⟨m, hm⟩ := Cube.exists_mem_minterms c
      obtain ⟨t, ht, haccepts⟩ := hc.exists_accepts m hm
      -- the cube fixes all the bits that the term fixes, for they are as many
      have hle : support.size ≤ c.support.size := by
        have hterm := hsum t ht
        have hcube := Cube.size_support_add_eliminated c
        rw [hc.width_eq] at hcube
        omega
      have hsupport : c.support = support := by
        ext bit
        exact ((IndexSet.subperm_of_subset hc.mem_of_mem_support).perm_of_length_le hle).mem_iff
      have hwidth : t.cube.width = c.width := (h t ht).1.trans hc.width_eq.symm
      refine ⟨t, ht, ?_⟩
      exact Cube.eq_of_support_eq hwidth ((h t ht).2.trans hsupport.symm) haccepts
        (Cube.mem_minterms.1 hm).2

/-! ## The primes -/

/-- **The primes are the implicants that merge with no implicant.** -/
theorem mem_map_cube_primes_iff :
    c ∈ (primes ts).map (·.cube) ↔ Cube.UnmergedIn (IsImplicantOf ts width support) c := by
  rw [primes, mergeRounds,
    (Generation.lists_initial h).mem_primesOf (mergeFamily_isImplicantOf h) (Nat.le_refl _)]
  exact and_iff_left_of_imp fun hc => hc.mem.le_eliminated

/--
**An implicant that merges with none lies in no other implicant.** Otherwise it could be freed at
some digit inside the other one.
-/
theorem eq_of_unmergedIn_of_subset {b : Cube}
    (hc : Cube.UnmergedIn (IsImplicantOf ts width support) c)
    (hb : IsImplicantOf ts width support b) (hsubset : ∀ m ∈ c.minterms, m ∈ b.minterms) :
    c = b := by
  by_contra hne
  obtain ⟨bit, hfixed, hfreed⟩ :=
    Cube.exists_setDigit_free_subset (hc.mem.width_eq.trans hb.width_eq.symm) hsubset hne
  apply ((mergeFamily_isImplicantOf h).unmergedIn_iff.1 hc).2 bit hfixed
  refine ⟨by rw [Cube.width_setDigit, hc.mem.width_eq], fun i hi => ?_, fun m hm => ?_⟩
  · rw [Cube.mem_support, Cube.digit_setDigit (Cube.lt_width_of_digit_ne hfixed)] at hi
    have hdigit : c.digit i ≠ .free := fun hfree => hi (by rw [hfree, ite_self])
    exact hc.mem.mem_of_mem_support i (Cube.mem_support.2 hdigit)
  · exact hb.exists_accepts m (hfreed m hm)

end

/--
**The primes of terms with the same free digits are prime.** Their cubes are distinct, and none of
them lies in another.
-/
theorem primes_antichain {ts : List Term} {width : Nat} {support : IndexSet}
    (h : ∀ t ∈ ts, t.width = width ∧ t.cube.support = support) :
    ((primes ts).map (·.cube)).Nodup ∧
      ∀ p ∈ primes ts, ∀ q ∈ primes ts,
        (∀ m ∈ p.cube.minterms, m ∈ q.cube.minterms) → p.cube = q.cube := by
  have hpairwise :=
    (Generation.lists_initial h).pairwise_primesOf (mergeFamily_isImplicantOf h) (Nat.le_refl _)
  constructor
  · exact List.pairwise_map.2 (hpairwise.imp And.left)
  · intro p hp q hq hsubset
    have hpmax := (mem_map_cube_primes_iff h).1 (List.mem_map_of_mem hp)
    have hqmax := (mem_map_cube_primes_iff h).1 (List.mem_map_of_mem hq)
    exact eq_of_unmergedIn_of_subset h hpmax hqmax.mem hsubset

/-- Three cubes that are free at the middle digit have the two primes `0--` and `--1`. -/
theorem primes_antichain_middle_free :
    let ts : List Term := [.ofCube [.zero, .free, .zero], .ofCube [.one, .free, .zero],
      .ofCube [.one, .free, .one]]
    (∀ t ∈ ts, t.width = 3 ∧ t.cube.support = .ofList [0, 2]) ∧
      (primes ts).map (·.cube) = [[.free, .free, .zero], [.one, .free, .free]] ∧
      ((primes ts).map (·.cube)).Nodup ∧
      ∀ p ∈ primes ts, ∀ q ∈ primes ts,
        (∀ m ∈ p.cube.minterms, m ∈ q.cube.minterms) → p.cube = q.cube := by
  intro ts
  have hts : ∀ t ∈ ts, t.width = 3 ∧ t.cube.support = .ofList [0, 2] := by decide
  have hprimes : (primes ts).map (·.cube) = [[.free, .free, .zero], [.one, .free, .free]] := by
    decide +kernel
  exact ⟨hts, hprimes, primes_antichain hts⟩

/--
Terms of one width whose free digits differ: of `--` and `00` both are primes, though one lies in
the other, and from `0-`, `00` and `01` the cube `0-` comes up in two rounds.
-/
theorem primes_not_antichain :
    let ts : List Term := [.ofCube [.free, .free], .ofCube [.zero, .zero]]
    let us : List Term := [.ofCube [.free, .zero], .ofCube [.zero, .zero], .ofCube [.one, .zero]]
    (∀ t ∈ ts ++ us, t.width = 2) ∧
      (∃ p ∈ primes ts, ∃ q ∈ primes ts,
        p.cube ≠ q.cube ∧ ∀ m ∈ p.cube.minterms, m ∈ q.cube.minterms) ∧
      ¬ ((primes us).map (·.cube)).Nodup := by
  intro ts us
  have hwidth : ∀ t ∈ ts ++ us, t.width = 2 := by decide
  have hsmall : Term.ofCube [.zero, .zero] ∈ primes ts := by decide +kernel
  have hlarge : Term.ofCube [.free, .free] ∈ primes ts := by decide +kernel
  have hsubset : ∀ m ∈ Cube.minterms [.zero, .zero], m ∈ Cube.minterms [.free, .free] := by
    intro m hm
    rw [Cube.mem_minterms] at hm ⊢
    exact ⟨hm.1, rfl⟩
  have htwice : ¬ ((primes us).map (·.cube)).Nodup := by decide +kernel
  exact ⟨hwidth, ⟨_, hsmall, _, hlarge, by decide, hsubset⟩, htwice⟩

end TwoLevel
