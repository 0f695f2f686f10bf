import TwoLevel.Proofs.Search.Smallest

/-!
# The search without bounds

`CoverProblem.exhaust` is the depth-first search as one would first write it: it has no greedy limit
and no lower bound, and a node is abandoned only when it has as many rows as the best cover. It
branches on the lowest column still open, tries the rows of that column in ascending order, and
keeps a complete choice of rows if it is smaller than all before it.

The bounded search gives the very rows that this one gives
(**`minimalCover?_eq_exhaustiveCover?`**). The two do not agree along the way, since the greedy
limit hides covers that the search without bounds keeps for a while. They are compared through the
unpruned tree instead: each comes to the first of the smallest completions (**`best?_exhaust`**,
**`search_eq_minOn?_completions`**).
-/

namespace TwoLevel

/-! ## The search -/

/-- What the search without bounds has come to. -/
structure Survey where
  /-- The first of the smallest covers found, in the order of choice. -/
  best? : Option (List Nat)
  /-- The choices of rows that were visited, last one first; each has its last row first. -/
  visited : List (List Nat)

namespace Survey

/-- Nothing has been visited. -/
def empty : Survey := ⟨none, []⟩

def visit (s : Survey) (chosen : List Nat) : Survey := { s with visited := chosen :: s.visited }

def record (s : Survey) (chosen : List Nat) : Survey := { s with best? := some chosen.reverse }

/-- Do the chosen rows number as many as those of the best cover, or more? -/
def isReached (s : Survey) (chosen : List Nat) : Bool := s.best?.any (·.length ≤ chosen.length)

end Survey

namespace CoverProblem

/--
Visits the node of the chosen rows, last one first. The columns are those that no chosen row marks,
in ascending order.
-/
def exhaust (p : CoverProblem) (chosen : List Nat) (s : Survey) : List Nat → Survey
  | [] => if s.isReached chosen then s.visit chosen else (s.visit chosen).record chosen
  | col :: columns =>
    if s.isReached chosen then s.visit chosen
    else (p.choices col).foldl
      (fun s row => p.exhaust (row :: chosen) s (p.chart.leftOpen row columns)) (s.visit chosen)
  termination_by columns => columns.length
  decreasing_by
    have := p.chart.length_leftOpen_le row columns
    rw [List.length_cons]
    omega

end CoverProblem

/-- The rows that the search without bounds finds for the columns not yet covered. -/
def Chart.exhaustiveCover? (chart : Chart) (excluded covered : IndexSet) : Option (List Nat) :=
  let p := CoverProblem.ofChart chart excluded covered
  (p.exhaust [] .empty p.columns.toList).best?

/-! ## The first of the smallest -/

theorem shorter_minOn?_of_forall_le {best : List Nat} {candidates : List (List Nat)}
    (h : ∀ rows ∈ candidates, best.length ≤ rows.length) :
    shorter (some best) (candidates.minOn? List.length) = some best := by
  cases hmin : candidates.minOn? List.length with
  | none => rfl
  | some rows =>
    have hle := h rows (List.minOn?_mem hmin)
    show some (minOn List.length best rows) = some best
    rw [minOn_eq_left hle]

namespace CoverProblem

variable {p : CoverProblem} {chosen : List Nat} {s : Survey}

/-- A node is left alone once it has as many rows as the best cover: all below it have them too. -/
theorem shorter_of_isReached (h : s.isReached chosen = true) (completions : List (List Nat)) :
    shorter s.best? ((completions.map (chosen.reverse ++ ·)).minOn? List.length) = s.best? := by
  unfold Survey.isReached at h
  cases hbest : s.best? with
  | none => simp [hbest] at h
  | some best =>
    rw [hbest, Option.any_some, decide_eq_true_eq] at h
    apply shorter_minOn?_of_forall_le
    intro rows hrows
    obtain ⟨rest, -, rfl⟩ := List.mem_map.1 hrows
    rw [List.length_append, List.length_reverse]
    omega

theorem shorter_of_not_isReached (h : ¬ s.isReached chosen = true) :
    shorter s.best? (some chosen.reverse) = some chosen.reverse := by
  unfold Survey.isReached at h
  cases hbest : s.best? with
  | none => rfl
  | some best =>
    rw [hbest, Option.any_some, decide_eq_true_eq] at h
    show some (minOn List.length best chosen.reverse) = some chosen.reverse
    rw [minOn_eq_right (by rwa [List.length_reverse])]

/-- Trying some rows one after the other. Induction on the rows. -/
theorem best?_foldl_of_branch {candidates : Nat → List (List Nat)} {branch : Survey → Nat → Survey}
    (hbranch : ∀ s row, (branch s row).best? =
      shorter s.best? ((candidates row).minOn? List.length)) (rows : List Nat) (s : Survey) :
    (rows.foldl branch s).best? =
      shorter s.best? ((rows.flatMap candidates).minOn? List.length) := by
  induction rows generalizing s with
  | nil => simp
  | cons row rows ih =>
    rw [List.foldl_cons, ih, hbranch, List.flatMap_cons, List.minOn?_append, shorter_assoc]

/--
**A node of the search without bounds keeps the first of its smallest completions.** Induction on
the recursion of the search.
-/
theorem best?_exhaust (p : CoverProblem) (chosen : List Nat) (s : Survey) (columns : List Nat) :
    (p.exhaust chosen s columns).best? =
      shorter s.best? (((p.completions columns).map (chosen.reverse ++ ·)).minOn? List.length) := by
  fun_induction exhaust p chosen s columns with
  | case1 chosen s hreached => exact (shorter_of_isReached hreached _).symm
  | case2 chosen s hnew =>
    rw [completions_nil, List.map_singleton, List.append_nil, List.minOn?_singleton,
      shorter_of_not_isReached hnew]
    rfl
  | case3 chosen s col columns hreached => exact (shorter_of_isReached hreached _).symm
  | case4 chosen s col columns hnew ih =>
    have hcandidates : (p.completions (col :: columns)).map (chosen.reverse ++ ·) =
        (p.choices col).flatMap fun row =>
          (p.completions (p.chart.leftOpen row columns)).map ((row :: chosen).reverse ++ ·) := by
      rw [completions_cons, List.map_flatMap]
      congr 1
      funext row
      rw [List.map_map]
      congr 1
      funext rest
      simp
    rw [hcandidates]
    exact best?_foldl_of_branch ih _ _

theorem best?_exhaust_empty (p : CoverProblem) :
    (p.exhaust [] .empty p.columns.toList).best? =
      (p.completions p.columns.toList).minOn? List.length := by
  rw [best?_exhaust]
  simp [Survey.empty]

end CoverProblem

/-! ## The two searches -/

/--
**The bounds change nothing.** For every chart of terms the bounded search gives the rows that the
search without bounds gives, in the same order, and both give none if there is no cover.
-/
theorem Chart.minimalCover?_eq_exhaustiveCover? (terms : List Term) (required : List Nat)
    (excluded covered : IndexSet) :
    (ofTerms terms required).minimalCover? excluded covered =
      (ofTerms terms required).exhaustiveCover? excluded covered := by
  have hchart := consistent_ofTerms terms required
  rw [minimalCover?, exhaustiveCover?, CoverProblem.best?_exhaust_empty]
  exact CoverProblem.search_eq_minOn?_completions hchart lt_of_mem_columns_ofChart

end TwoLevel
