import TwoLevel.Proofs.Cube.Distance
import TwoLevel.Term

/-!
# What it means to merge two terms

Two terms merge exactly if they have the same width, the same free digits and distance 1. What they
merge into stands for both of them (`Term.Unites`): it has one free digit more, it accepts what
either accepts and it covers what either covers. It does not matter which of the two comes first
(`Term.merge?_comm`). **`Term.merge?_exact`** says all of this.

What the terms cover plays no part in whether they merge, and it need not be what their cubes
accept.
-/

namespace TwoLevel.Term

variable {a b t : Term}

/-- A term that stands for two terms of its width which differ at one bit. -/
structure Unites (t a b : Term) : Prop where
  width_eq : t.width = a.width ∧ t.width = b.width
  freed : ∃ bit, a.cube.differing b.cube = {bit} ∧ t.cube = a.cube.setDigit bit .free
  eliminated_eq :
    t.cube.eliminated = a.cube.eliminated + 1 ∧ t.cube.eliminated = b.cube.eliminated + 1
  accepts_iff : ∀ m, t.accepts m = true ↔ a.accepts m = true ∨ b.accepts m = true
  mem_covered_iff : ∀ m, m ∈ t.covered ↔ m ∈ a.covered ∨ m ∈ b.covered

theorem merge?_comm (a b : Term) : a.merge? b = b.merge? a := by
  rw [merge?, merge?, Cube.merge?_comm, IndexSet.union_comm]

theorem exists_merge? {c : Cube} (h : a.cube.merge? b.cube = some c) :
    ∃ t, a.merge? b = some t ∧ t.cube = c :=
  ⟨⟨c, a.covered ∪ b.covered⟩, merge?_eq_some_iff.2 ⟨h, rfl⟩, rfl⟩

theorem ones_of_merge? (h : a.merge? b = some t) :
    a.cube.ones = b.cube.ones + 1 ∨ b.cube.ones = a.cube.ones + 1 :=
  Cube.ones_of_merge? (merge?_eq_some_iff.1 h).1

theorem unites_of_merge? (h : a.merge? b = some t) : t.Unites a b := by
  obtain ⟨hcube, hcovered⟩ := merge?_eq_some_iff.1 h
  have hwidth := Cube.width_of_merge? hcube
  have hdiffering := (Cube.merge?_eq_some_iff_differing.1 hcube).2.2
  refine ⟨⟨hwidth.1.symm, hwidth.2.symm⟩, hdiffering, Cube.eliminated_of_merge? hcube,
    fun m => ?_, fun m => ?_⟩
  · show t.cube.accepts m = true ↔ a.cube.accepts m = true ∨ b.cube.accepts m = true
    rw [Cube.accepts_of_merge? hcube, Bool.or_eq_true]
  · rw [hcovered, IndexSet.mem_union]

/--
**Merging is exact.** Two terms merge exactly if they have the same width, the same free digits and
distance 1. The merged term stands for both, and it is the same in either order.
-/
theorem merge?_exact (a b : Term) :
    ((a.merge? b).isSome = true ↔
      a.width = b.width ∧ a.cube.sameSupport b.cube = true ∧ a.cube.distance b.cube = 1) ∧
    (∀ t, a.merge? b = some t → t.Unites a b) ∧
    b.merge? a = a.merge? b := by
  refine ⟨?_, fun t => unites_of_merge?, merge?_comm b a⟩
  rw [merge?, Option.isSome_map]
  exact Cube.isSome_merge?_iff

end TwoLevel.Term
