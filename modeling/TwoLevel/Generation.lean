import TwoLevel.Sequences
import TwoLevel.Term.Collection

/-!
# Generations of terms

A `Generation` is a list of terms with distinct cubes. To advance, every pair of its terms that
merge is merged: the merged terms, collected in the order of a scan over all pairs, form the next
generation, and the terms that merge with no other are the *unmerged* ones.

Only terms whose numbers of ones differ by one can merge, so the scan looks for the partners of a
term in the two adjacent groups alone (`Generation.mergesOf`).

* A term of the next generation has one literal less than the two it comes from
  (`Generation.literals_of_mem_next`).
-/

namespace TwoLevel

/-- The terms before a round of merges, with the number of rounds before it. -/
structure Generation where
  round : Nat
  terms : List Term
  deriving DecidableEq

namespace Generation

/-- The generation that the merge process starts from. -/
def initial (ts : List Term) : Generation := ⟨0, collect ts⟩

/-- A term with its position in the generation. -/
abbrev Placed := Term × Nat

/-- The terms with their positions. -/
def placed (g : Generation) : List Placed := g.terms.zipIdx

/-- The terms of the generation by their number of ones, each group in order. -/
def groups (g : Generation) : Array (List Placed) :=
  let ones := g.placed.map fun p => p.1.cube.ones
  ((List.range (ones.max?.getD 0 + 1)).map fun k =>
    (g.placed.zip ones).filterMap fun (p, n) => if n = k then some p else none).toArray

/-- The terms of the group with `k` ones. -/
def group (groups : Array (List Placed)) (k : Nat) : List Placed := groups[k]?.getD []

/-- A merge of the terms at two positions. -/
structure Merge where
  first : Nat
  second : Nat
  term : Term
  deriving DecidableEq

/-- The merges of a term with later terms of a group. -/
def mergesWith (p : Placed) (group : List Placed) : List Merge :=
  group.filterMap fun q =>
    if p.2 < q.2 then (p.1.merge? q.1).map fun t => ⟨p.2, q.2, t⟩ else none

/-- The merges of a term with later terms, which have one 1 more or less, in order. -/
def mergesOf (groups : Array (List Placed)) (p : Placed) : List Merge :=
  let fewer := match p.1.cube.ones with
    | 0 => []
    | k + 1 => group groups k
  let more := group groups (p.1.cube.ones + 1)
  Ordered.merge (fun m n => m.second ≤ n.second) (mergesWith p fewer) (mergesWith p more)

/-- All merges of two terms of the generation, in the order of a scan over all pairs. -/
def merges (g : Generation) : List Merge :=
  let groups := g.groups
  g.placed.flatMap (mergesOf groups)

/-- The generation of the merged terms. -/
def nextOf (g : Generation) (merges : List Merge) : Generation :=
  ⟨g.round + 1, collect (merges.map (·.term))⟩

/-- The terms whose position occurs in no merge. -/
def unmergedOf (g : Generation) (merges : List Merge) : List Term :=
  let used := putAt (.replicate g.terms.length false) true
    (merges.flatMap fun m => [m.first, m.second])
  (g.placed.filter fun p => !used[p.2]?.getD false).map (·.1)

/-- The next generation, and the terms of this one that merge with no other. -/
def advance (g : Generation) : Generation × List Term :=
  let merges := g.merges
  (g.nextOf merges, g.unmergedOf merges)

/-- The generation of all merged terms. -/
def next (g : Generation) : Generation := g.advance.1

/-- The terms that merge with no other. -/
def unmerged (g : Generation) : List Term := g.advance.2

theorem next_eq (g : Generation) : g.next = g.nextOf g.merges := rfl

theorem unmerged_eq (g : Generation) : g.unmerged = g.unmergedOf g.merges := rfl

theorem mem_terms_of_mem_groups {g : Generation} {k : Nat} {p : Placed}
    (h : p ∈ group g.groups k) : p.1 ∈ g.terms := by
  simp only [group, groups] at h
  rw [List.getElem?_toArray, List.getElem?_map] at h
  cases hk : (List.range _)[k]? with
  | none => rw [hk] at h; simp at h
  | some j =>
    rw [hk] at h
    simp only [Option.map_some, Option.getD_some, List.mem_filterMap] at h
    obtain ⟨⟨q, n⟩, hq, hqp⟩ := h
    split at hqp
    · obtain rfl := Option.some.inj hqp
      exact (List.mem_zipIdx_iff_getElem?.1 (List.of_mem_zip hq).1 |> List.mem_of_getElem?)
    · simp at hqp

theorem exists_of_mem_mergesWith {p : Placed} {group : List Placed} {m : Merge}
    (h : m ∈ mergesWith p group) : ∃ q ∈ group, p.1.merge? q.1 = some m.term := by
  simp only [mergesWith, List.mem_filterMap] at h
  obtain ⟨q, hq, hm⟩ := h
  split at hm
  · obtain ⟨t, ht, rfl⟩ := Option.map_eq_some_iff.1 hm
    exact ⟨q, hq, ht⟩
  · simp at hm

/-- A merge comes from two terms of the generation. -/
theorem exists_of_mem_merges {g : Generation} {m : Merge} (h : m ∈ g.merges) :
    ∃ a ∈ g.terms, ∃ b ∈ g.terms, a.merge? b = some m.term := by
  obtain ⟨p, hp, hm⟩ := List.mem_flatMap.1 h
  have hp' : p.1 ∈ g.terms := List.mem_of_getElem? (List.mem_zipIdx_iff_getElem?.1 hp)
  rw [mergesOf, Ordered.mem_merge] at hm
  rcases hm with hm | hm
  · -- the partner has one 1 less
    obtain ⟨q, hq, ht⟩ := exists_of_mem_mergesWith hm
    split at hq
    · simp at hq
    · exact ⟨p.1, hp', q.1, mem_terms_of_mem_groups hq, ht⟩
  · -- the partner has one 1 more
    obtain ⟨q, hq, ht⟩ := exists_of_mem_mergesWith hm
    exact ⟨p.1, hp', q.1, mem_terms_of_mem_groups hq, ht⟩

/-- A term of the next generation has one literal less than some term of this one. -/
theorem literals_of_mem_next {g : Generation} {t : Term} (h : t ∈ g.next.terms) :
    ∃ a ∈ g.terms, a.cube.literals = t.cube.literals + 1 := by
  have hcube : t.cube ∈ (collect (g.merges.map (·.term))).map (·.cube) :=
    List.mem_map_of_mem h
  rw [mem_map_cube_collect] at hcube
  obtain ⟨s, hs, hst⟩ := List.mem_map.1 hcube
  obtain ⟨m, hm, rfl⟩ := List.mem_map.1 hs
  obtain ⟨a, ha, b, -, hab⟩ := exists_of_mem_merges hm
  refine ⟨a, ha, ?_⟩
  have hmerge := (Term.merge?_eq_some_iff.1 hab).1
  have hwidth := (Cube.width_of_merge? hmerge).1
  have hfree := (Cube.eliminated_of_merge? hmerge).1
  have ha' := Cube.literals_add_eliminated a.cube
  have ht' := Cube.literals_add_eliminated m.term.cube
  rw [← hst]
  omega

end Generation

end TwoLevel
