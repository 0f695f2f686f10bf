import TwoLevel.Cube

/-!
# Product terms

A `Term` is a cube together with the set of minterms it was built to cover. Terms made from texts
cover all that their cube accepts; the term of a minterm covers that minterm alone, even one too
large for the width. Merging joins the covered sets.

Two terms stand for the same product when their cubes are equal, whatever they cover.
-/

namespace TwoLevel

/-- A product with the minterms it was built to cover. -/
structure Term where
  cube : Cube
  covered : IndexSet
  deriving DecidableEq, Inhabited

namespace Term

/-- The term of a single minterm; bits beyond the width are not seen in its cube. -/
def ofMinterm (index width : Nat) : Term := ⟨.ofIndex width index, {index}⟩

/-- The term that covers all minterms its cube accepts. -/
def ofCube (c : Cube) : Term := ⟨c, c.minterms⟩

/-- Reads a pattern; the term covers all minterms the pattern accepts. -/
def ofText (text : String) : Except Error Term := (Cube.ofText text).map ofCube

/-- The number of variables. -/
def width (t : Term) : Nat := t.cube.width

/-- The pattern of the term, most significant digit first. -/
def text (t : Term) : String := t.cube.text

/-- Is the minterm one that the term was built to cover? -/
def covers (t : Term) (m : Nat) : Bool := m ∈ t.covered

/-- Does the pattern of the term accept the minterm? -/
def accepts (t : Term) (m : Nat) : Bool := t.cube.accepts m

/-- Merges two terms whose cubes merge; the result covers what either covers. -/
def merge? (a b : Term) : Option Term :=
  (a.cube.merge? b.cube).map fun c => ⟨c, a.covered ∪ b.covered⟩

/-- The first term, covering also what the second covers. -/
def absorb (a b : Term) : Term := ⟨a.cube, a.covered ∪ b.covered⟩

@[simp] theorem cube_ofMinterm (m w : Nat) : (ofMinterm m w).cube = .ofIndex w m := rfl

@[simp] theorem covered_ofMinterm (m w : Nat) : (ofMinterm m w).covered = {m} := rfl

@[simp] theorem cube_ofCube (c : Cube) : (ofCube c).cube = c := rfl

@[simp] theorem covered_ofCube (c : Cube) : (ofCube c).covered = c.minterms := rfl

@[simp] theorem cube_absorb (a b : Term) : (a.absorb b).cube = a.cube := rfl

@[simp] theorem mem_covered_absorb {a b : Term} {m : Nat} :
    m ∈ (a.absorb b).covered ↔ m ∈ a.covered ∨ m ∈ b.covered := IndexSet.mem_union

theorem merge?_eq_some_iff {a b t : Term} :
    a.merge? b = some t ↔
      a.cube.merge? b.cube = some t.cube ∧ t.covered = a.covered ∪ b.covered := by
  obtain ⟨c, s⟩ := t
  simp only [merge?, Option.map_eq_some_iff, Term.mk.injEq]
  constructor
  · rintro ⟨d, hd, rfl, rfl⟩
    exact ⟨hd, rfl⟩
  · rintro ⟨hd, hs⟩
    exact ⟨c, hd, rfl, hs.symm⟩

end Term

end TwoLevel
