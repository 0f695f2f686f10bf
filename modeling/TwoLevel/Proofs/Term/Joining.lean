import Mathlib.Data.List.Induction
import TwoLevel.Proofs.Term.Coverage

/-!
# Joining the terms of each cube

Collecting goes through the terms one by one and changes terms that are already there. Seen as a
whole it is simpler: each cube stands where it first occurs, with all that the terms of this cube
cover (**`collect_eq_joinEqual`**).

So which terms are collected does not depend on their order, nor on how often each of them is given
(**`perm_collect`**).
-/

namespace TwoLevel

/-- The term with a cube that covers what all terms of a list with this cube cover. -/
def joinAt (ts : List Term) (c : Cube) : Term :=
  ⟨c, .unionAll ((ts.filter (·.cube = c)).map (·.covered))⟩

/-- The terms of a list with those of one cube joined, in the order in which the cubes occur. -/
def joinEqual (ts : List Term) : List Term := (ts.map (·.cube)).eraseDups.map (joinAt ts)

variable {ts us : List Term} {s : Term}

theorem mem_covered_joinAt {c : Cube} {m : Nat} :
    m ∈ (joinAt ts c).covered ↔ CoveredAt ts c m := by
  show m ∈ IndexSet.unionAll _ ↔ _
  simp [CoveredAt, and_assoc]

/-! ## Cubes -/

theorem map_cube_insertTerm (t : Term) (ts : List Term) :
    (insertTerm t ts).map (·.cube) =
      if t.cube ∈ ts.map (·.cube) then ts.map (·.cube) else ts.map (·.cube) ++ [t.cube] := by
  induction ts with
  | nil => rfl
  | cons s ts ih =>
    rw [insertTerm]
    by_cases hst : s.cube = t.cube
    · simp [hst]
    · rw [if_neg hst, List.map_cons, ih, List.map_cons]
      by_cases hmem : t.cube ∈ ts.map (·.cube)
      · simp only [hmem, List.mem_cons, or_true, if_true]
      · simp only [hmem, List.mem_cons, or_false, Ne.symm hst, if_false, List.cons_append]

theorem eraseDups_concat {α : Type} [BEq α] [LawfulBEq α] (xs : List α) (x : α)
    [Decidable (x ∈ xs)] :
    (xs ++ [x]).eraseDups = if x ∈ xs then xs.eraseDups else xs.eraseDups ++ [x] := by
  rw [List.eraseDups_append]
  by_cases hmem : x ∈ xs
  · simp [List.removeAll, hmem]
  · simp [List.removeAll, hmem, List.eraseDups_cons]

/-- Collecting keeps the first occurrence of each cube. Induction from the end of the list. -/
theorem map_cube_collect (ts : List Term) :
    (collect ts).map (·.cube) = (ts.map (·.cube)).eraseDups := by
  induction ts using List.reverseRecOn with
  | nil => rfl
  | append_singleton ts t ih =>
    have hcollect : collect (ts ++ [t]) = insertTerm t (collect ts) := by
      rw [collect_eq, collect_eq, List.foldl_append, List.foldl_cons, List.foldl_nil]
    rw [hcollect, map_cube_insertTerm, List.map_append, List.map_singleton, eraseDups_concat, ← ih]
    simp only [mem_map_cube_collect]

/-! ## Collected terms -/

theorem eq_joinAt_of_mem_collect (hs : s ∈ collect ts) : s = joinAt ts s.cube := by
  have hcovered : s.covered = (joinAt ts s.cube).covered := by
    ext m
    rw [mem_covered_of_mem_collect hs, mem_covered_joinAt]
  exact congrArg (Term.mk s.cube) hcovered

/-- **Collecting joins the terms of each cube, where the cube first occurs.** -/
theorem collect_eq_joinEqual (ts : List Term) : collect ts = joinEqual ts := by
  have hself : (collect ts).map (fun s => joinAt ts s.cube) = collect ts := by
    conv_rhs => rw [← List.map_id (collect ts)]
    exact List.map_congr_left fun s hs => (eq_joinAt_of_mem_collect hs).symm
  rw [joinEqual, ← map_cube_collect, List.map_map]
  exact hself.symm

theorem mem_collect_iff : s ∈ collect ts ↔ s.cube ∈ ts.map (·.cube) ∧ s = joinAt ts s.cube := by
  rw [← mem_map_cube_collect]
  constructor
  · intro hs
    exact ⟨List.mem_map_of_mem hs, eq_joinAt_of_mem_collect hs⟩
  · intro ⟨hcube, hjoin⟩
    obtain ⟨r, hr, hrs⟩ := List.mem_map.1 hcube
    have heq : r = s := by rw [eq_joinAt_of_mem_collect hr, hrs, ← hjoin]
    exact heq ▸ hr

theorem joinAt_congr (h : ∀ t, t ∈ ts ↔ t ∈ us) (c : Cube) : joinAt ts c = joinAt us c := by
  have hcovered : (joinAt ts c).covered = (joinAt us c).covered := by
    ext m
    rw [mem_covered_joinAt, mem_covered_joinAt, CoveredAt, CoveredAt]
    simp only [h]
  exact congrArg (Term.mk c) hcovered

/-- **Neither the order of the terms nor their number matters to which terms are collected.** -/
theorem perm_collect (h : ∀ t, t ∈ ts ↔ t ∈ us) : (collect ts).Perm (collect us) := by
  have hnodup : ∀ ts : List Term, (collect ts).Nodup := fun ts =>
    List.Nodup.of_map _ (nodup_map_cube_collect ts)
  rw [List.perm_ext_iff_of_nodup (hnodup ts) (hnodup us)]
  intro s
  rw [mem_collect_iff, mem_collect_iff, joinAt_congr h, List.mem_map, List.mem_map]
  simp only [h]

end TwoLevel
