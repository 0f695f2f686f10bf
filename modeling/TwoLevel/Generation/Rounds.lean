import TwoLevel.Generation

/-!
# The merge process

The merge process advances from an initial generation until one is empty. Each `Round` keeps its
generation and the terms found unmerged in it, which are the prime implicants of that round.

The process ends because every round lowers the greatest number of literals (`height_next_lt`).
-/

namespace TwoLevel

/-- A generation that is not empty, with its terms that merge with no other. -/
structure Round where
  generation : Generation
  primes : List Term
  deriving DecidableEq

namespace Generation

/-- One more than the greatest number of literals of a term; 0 for the empty generation. -/
def height (g : Generation) : Nat := (g.terms.map fun t => t.cube.literals + 1).max?.getD 0

theorem literals_lt_height {g : Generation} {t : Term} (h : t ∈ g.terms) :
    t.cube.literals < g.height := by
  have hmem : t.cube.literals + 1 ∈ g.terms.map fun t => t.cube.literals + 1 :=
    List.mem_map.2 ⟨t, h, rfl⟩
  exact List.le_max?_getD_of_mem hmem

theorem height_le_of_forall {g : Generation} {n : Nat}
    (h : ∀ t ∈ g.terms, t.cube.literals < n) : g.height ≤ n := by
  unfold height
  cases hmax : (g.terms.map fun t => t.cube.literals + 1).max? with
  | none => simp
  | some k =>
    obtain ⟨t, ht, rfl⟩ := List.mem_map.1 (List.max?_eq_some_iff.1 hmax).1
    exact h t ht

/-- A round lowers the height of a generation that is not empty. -/
theorem height_next_lt {g : Generation} (h : g.terms ≠ []) : g.next.height < g.height := by
  obtain ⟨s, hs⟩ := List.exists_mem_of_ne_nil _ h
  have hpos := literals_lt_height hs
  have hle : g.next.height ≤ g.height - 1 := height_le_of_forall fun t ht => by
    obtain ⟨a, ha, hat⟩ := literals_of_mem_next ht
    have := literals_lt_height ha
    omega
  omega

/-- The rounds from a generation on, until one is empty. -/
def rounds (g : Generation) : List Round :=
  if h : g.terms = [] then []
  else
    have := height_next_lt h
    match hadv : g.advance with
    | (next, primes) =>
      have : next.height < g.height := by
        have hnext : g.next = next := by rw [Generation.next, hadv]
        exact hnext ▸ this
      ⟨g, primes⟩ :: rounds next
  termination_by g.height

theorem rounds_of_eq_nil {g : Generation} (h : g.terms = []) : g.rounds = [] := by
  rw [rounds, dif_pos h]

theorem rounds_of_ne_nil {g : Generation} (h : g.terms ≠ []) :
    g.rounds = ⟨g, g.unmerged⟩ :: g.next.rounds := by
  rw [rounds, dif_neg h]
  rfl

/--
Induction along the merge process: a property holds of every generation if it holds of the empty
ones and of each other one after which it holds.
-/
@[elab_as_elim]
theorem rounds_induct {motive : Generation → Prop}
    (empty : ∀ g : Generation, g.terms = [] → motive g)
    (step : ∀ g : Generation, g.terms ≠ [] → motive g.next → motive g) (g : Generation) :
    motive g := by
  by_cases h : g.terms = []
  · exact empty g h
  · exact step g h (rounds_induct empty step g.next)
  termination_by g.height
  decreasing_by exact height_next_lt h

end Generation

/-- The rounds of the merge process on some terms. -/
def mergeRounds (ts : List Term) : List Round := (Generation.initial ts).rounds

/-- The terms that are unmerged in some round, in the order in which they are found. -/
def primesOf (rounds : List Round) : List Term := rounds.flatMap (·.primes)

/-- The prime implicants that the merge process finds for some terms. -/
def primes (ts : List Term) : List Term := primesOf (mergeRounds ts)

namespace Generation

theorem primesOf_rounds_of_eq_nil {g : Generation} (h : g.terms = []) : primesOf g.rounds = [] := by
  rw [rounds_of_eq_nil h]
  rfl

theorem primesOf_rounds_of_ne_nil {g : Generation} (h : g.terms ≠ []) :
    primesOf g.rounds = g.unmerged ++ primesOf g.next.rounds := by
  rw [rounds_of_ne_nil h]
  rfl

end Generation

end TwoLevel
