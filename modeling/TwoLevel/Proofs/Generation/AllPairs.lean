import TwoLevel.Proofs.Generation.Scan
import TwoLevel.Proofs.Term.Joining

/-!
# A round over all pairs

`Generation.advanceByPairs` is a round of merges as one would first write it: it tries each term
with every later one, joins the merged terms of one cube where the cube first occurs, and keeps as
unmerged the terms that were in no merge. It looks at no number of ones and builds no groups.

A round over the groups gives the very same lists (**`advance_eq_advanceByPairs`**). The merges come
in the same order because each list of partners is in the order of positions (`merges_eq_scan`), so
that the terms before a term can be left out (`flatMap_mergesWith`).
-/

namespace TwoLevel

/-- Each element of a list with every later one, in the order of the first, then of the second. -/
def pairs {α : Type} : List α → List (α × α)
  | [] => []
  | x :: xs => xs.map (x, ·) ++ pairs xs

namespace Generation

/-- The merge of two terms, if they merge. -/
def mergeOf? (p q : Placed) : Option Merge := (p.1.merge? q.1).map fun t => ⟨p.2, q.2, t⟩

/-- The merges that are found by trying every pair of terms. -/
def pairMerges (g : Generation) : List Merge :=
  (pairs g.placed).filterMap fun (p, q) => mergeOf? p q

/-- Is the position that of neither term of a merge? -/
def Merge.spares (m : Merge) (position : Nat) : Bool := position ≠ m.first && position ≠ m.second

/-- The next generation, and the terms that merge with no other, by trying every pair of terms. -/
def advanceByPairs (g : Generation) : Generation × List Term :=
  let merges := g.pairMerges
  (⟨g.round + 1, joinEqual (merges.map (·.term))⟩,
    (g.placed.filter fun p => merges.all (·.spares p.2)).map (·.1))

/-! ## The same merges -/

theorem mergesWith_eq_filterMap {p : Placed} {qs : List Placed} (h : ∀ q ∈ qs, p.2 < q.2) :
    mergesWith p qs = qs.filterMap (mergeOf? p) :=
  List.filterMap_congr fun q hq => if_pos (h q hq)

theorem mergesWith_cons_of_le {p q : Placed} {qs : List Placed} (h : q.2 ≤ p.2) :
    mergesWith p (q :: qs) = mergesWith p qs :=
  List.filterMap_cons_none (if_neg (Nat.not_lt.2 h))

/-- Trying each term with all others comes to trying it with the later ones. -/
theorem flatMap_mergesWith {ps : List Placed} (h : ps.Pairwise fun p q => p.2 < q.2) :
    ps.flatMap (mergesWith · ps) = (pairs ps).filterMap fun (p, q) => mergeOf? p q := by
  induction ps with
  | nil => rfl
  | cons p ps ih =>
    rw [List.pairwise_cons] at h
    have hfirst : mergesWith p (p :: ps) = ps.filterMap (mergeOf? p) := by
      rw [mergesWith_cons_of_le (Nat.le_refl p.2), mergesWith_eq_filterMap h.1]
    have hrest : ps.flatMap (mergesWith · (p :: ps)) = ps.flatMap (mergesWith · ps) :=
      List.flatMap_congr fun q hq => mergesWith_cons_of_le (Nat.le_of_lt (h.1 q hq))
    rw [List.flatMap_cons, hfirst, hrest, ih h.2, pairs, List.filterMap_append,
      List.filterMap_map]
    rfl

theorem merges_eq_pairMerges (g : Generation) : g.merges = g.pairMerges := by
  rw [merges_eq_scan, flatMap_mergesWith g.pairwise_placed, pairMerges]

/-! ## The same round -/

theorem spares_iff {m : Merge} {i : Nat} : m.spares i = true ↔ i ∉ [m.first, m.second] := by
  simp [Merge.spares]

/--
**The grouped round is the round over all pairs.** Both give the same terms in the same order, with
the same minterms, and leave the same terms unmerged.
-/
theorem advance_eq_advanceByPairs (g : Generation) : g.advance = g.advanceByPairs := by
  have hnext : g.nextOf g.merges = ⟨g.round + 1, joinEqual (g.pairMerges.map (·.term))⟩ := by
    rw [nextOf, collect_eq_joinEqual, merges_eq_pairMerges]
  have hunmerged : g.unmergedOf g.merges =
      (g.placed.filter fun p => g.pairMerges.all (·.spares p.2)).map (·.1) := by
    rw [unmergedOf_eq, merges_eq_pairMerges]
    congr 1
    apply List.filter_congr
    intro p _
    rw [Bool.eq_iff_iff, decide_eq_true_iff, List.all_eq_true, List.mem_flatMap]
    simp only [spares_iff, not_exists, not_and]
  exact Prod.ext hnext hunmerged

/-- Of the six pairs two merge, both into the free cube, which covers what all four terms cover. -/
example : (Generation.advanceByPairs
    ⟨1, [⟨[.free, .zero], .ofList [0, 1]⟩, ⟨[.free, .one], .ofList [2, 3]⟩,
      ⟨[.zero, .free], .ofList [0, 2]⟩, ⟨[.one, .free], .ofList [1, 3]⟩]⟩).1.terms =
    [⟨[.free, .free], .ofList [0, 1, 2, 3]⟩] := by decide +kernel

end Generation

end TwoLevel
