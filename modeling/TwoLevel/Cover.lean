import TwoLevel.Term

/-!
# Covers

A `Cover` is a list of terms read as their sum: it accepts a minterm when one of its terms does.
The prime implicants of a function and the terms chosen to cover it are both covers.
-/

namespace TwoLevel

/-- A sum of terms, in the order in which they are written. -/
structure Cover where
  terms : List Term
  deriving DecidableEq

namespace Cover

/-- Does some term accept the minterm? -/
def accepts (cover : Cover) (m : Nat) : Bool := cover.terms.any (·.accepts m)

/-- The bits that are fixed in some term. -/
def support (cover : Cover) : IndexSet := .unionAll (cover.terms.map (·.cube.support))

theorem accepts_iff {cover : Cover} {m : Nat} :
    cover.accepts m = true ↔ ∃ t ∈ cover.terms, t.accepts m = true := by
  simp [accepts]

theorem mem_support {cover : Cover} {bit : Nat} :
    bit ∈ cover.support ↔ ∃ t ∈ cover.terms, t.cube.digit bit ≠ .free := by
  simp only [support, IndexSet.mem_unionAll, List.mem_map]
  constructor
  · rintro ⟨_, ⟨t, ht, rfl⟩, hbit⟩
    exact ⟨t, ht, Cube.mem_support.1 hbit⟩
  · rintro ⟨t, ht, hbit⟩
    exact ⟨_, ⟨t, ht, rfl⟩, Cube.mem_support.2 hbit⟩

/-- The terms with a plus sign between them. -/
def text (cover : Cover) : String := " + ".intercalate (cover.terms.map (·.text))

/-! ## Statistics -/

/-- Some terms of one size. -/
structure Group where
  /-- The number of free digits of each term. -/
  eliminated : Nat
  /-- The number of terms. -/
  count : Nat
  deriving DecidableEq

/-- The numbers of terms of each size, the largest terms first. -/
def groups (cover : Cover) : List Group :=
  let sizes := cover.terms.map (·.cube.eliminated)
  (IndexSet.ofList sizes).toList.reverse.map fun n => ⟨n, sizes.count n⟩

/-- A line that tells how many terms there are of a size. -/
def Group.text (group : Group) : String :=
  let plural := fun (many : Bool) => if many then "s" else ""
  s!"{group.count} group" ++ plural (1 < group.count) ++
    s!" of 2^{group.eliminated} element" ++ plural (0 < group.eliminated) ++ "\n"

/-- One line for each size of term. -/
def statistics (cover : Cover) : String := .join (cover.groups.map (·.text))

end Cover

end TwoLevel
