import TwoLevel.Cube.Map
import TwoLevel.Term

/-!
# Collecting terms

Terms are collected one after the other: a term whose cube is already there is absorbed by the
one that has it, any other goes to the end. So the collected terms have distinct cubes, in the
order of their first occurrence, and each covers what all terms of its cube cover.

`insertTerm` says this of a plain list. `Collection` keeps the position of each cube at hand, and
`collect_eq` states that it comes to the same.

* Collecting keeps the cubes distinct (`nodup_map_cube_collect`) and loses none
  (`mem_map_cube_collect`), nor anything else that terms hand on when they are absorbed
  (`exists_mem_collect`).
-/

namespace TwoLevel

/-- Adds a term to a list of terms with distinct cubes. -/
def insertTerm (t : Term) : List Term → List Term
  | [] => [t]
  | s :: ts => if s.cube = t.cube then s.absorb t :: ts else s :: insertTerm t ts

/-- Terms with distinct cubes, and the position of each cube. -/
structure Collection where
  terms : Array Term
  positions : CubeMap

namespace Collection

/-- No term. -/
def empty : Collection := ⟨#[], .empty⟩

/-- Adds a term, or has the term of its cube absorb it. -/
def push (ts : Collection) (t : Term) : Collection :=
  match ts.positions.find? t.cube with
  | some i => { ts with terms := ts.terms.modify i (·.absorb t) }
  | none => ⟨ts.terms.push t, ts.positions.insert ts.terms.size t.cube⟩

/-- Each cube is found at the first position where it occurs. -/
def Consistent (ts : Collection) : Prop :=
  ∀ c, ts.positions.find? c = ts.terms.toList.findIdx? (·.cube = c)

end Collection

/-- The terms of a list, with those of one cube made into one. -/
def collect (ts : List Term) : List Term := (ts.foldl Collection.push .empty).terms.toList

theorem insertTerm_of_findIdx?_eq_some {t : Term} {ts : List Term} {i : Nat}
    (h : ts.findIdx? (·.cube = t.cube) = some i) :
    insertTerm t ts = ts.modify i (·.absorb t) := by
  induction ts generalizing i with
  | nil => simp at h
  | cons s ts ih =>
    rw [List.findIdx?_cons] at h
    by_cases hs : s.cube = t.cube
    · simp only [hs, decide_true, if_true, Option.some.injEq] at h
      subst h
      simp [insertTerm, hs]
    · simp only [hs, decide_false, Bool.false_eq_true, if_false, Option.map_eq_some_iff] at h
      obtain ⟨j, hj, rfl⟩ := h
      simp [insertTerm, hs, ih hj]

theorem insertTerm_of_findIdx?_eq_none {t : Term} {ts : List Term}
    (h : ts.findIdx? (·.cube = t.cube) = none) : insertTerm t ts = ts ++ [t] := by
  induction ts with
  | nil => rfl
  | cons s ts ih =>
    rw [List.findIdx?_cons] at h
    by_cases hs : s.cube = t.cube
    · simp [hs] at h
    · simp only [hs, decide_false, Bool.false_eq_true, if_false, Option.map_eq_none_iff] at h
      simp [insertTerm, hs, ih h]

theorem findIdx?_modify_absorb {t : Term} {ts : List Term} {i : Nat} {c : Cube} :
    (ts.modify i (·.absorb t)).findIdx? (·.cube = c) = ts.findIdx? (·.cube = c) := by
  induction ts generalizing i with
  | nil => simp
  | cons s ts ih =>
    cases i with
    | zero => rw [List.modify_zero_cons, List.findIdx?_cons, List.findIdx?_cons]; rfl
    | succ i => rw [List.modify_succ_cons, List.findIdx?_cons, List.findIdx?_cons, ih]

/-- Adding a term to a consistent collection is adding it to its list of terms. -/
theorem Collection.push_of_consistent {ts : Collection} {t : Term} (h : ts.Consistent) :
    (ts.push t).terms.toList = insertTerm t ts.terms.toList ∧ (ts.push t).Consistent := by
  unfold push
  split
  · rename_i i hi
    rw [h] at hi
    refine ⟨by rw [insertTerm_of_findIdx?_eq_some hi]; simp, fun c => ?_⟩
    simp [findIdx?_modify_absorb, h c]
  · rename_i hnone
    rw [h] at hnone
    refine ⟨by rw [insertTerm_of_findIdx?_eq_none hnone]; simp, fun c => ?_⟩
    simp only [CubeMap.find?_insert, h c, Array.toList_push, List.findIdx?_append]
    by_cases hc : t.cube = c
    · subst hc; simp [hnone]
    · simp [hc]

/-- Collecting adds the terms one after the other. -/
theorem collect_eq (ts : List Term) :
    collect ts = ts.foldl (fun acc t => insertTerm t acc) [] := by
  suffices h : ∀ acc : Collection, acc.Consistent →
      (ts.foldl Collection.push acc).terms.toList =
        ts.foldl (fun acc t => insertTerm t acc) acc.terms.toList from
    h .empty fun c => by simp [Collection.empty]
  induction ts with
  | nil => exact fun _ _ => rfl
  | cons t ts ih =>
    intro acc hacc
    obtain ⟨hlist, hpush⟩ := Collection.push_of_consistent (t := t) hacc
    rw [List.foldl_cons, List.foldl_cons, ih _ hpush, hlist]

/--
Adding a term loses no property that a term which absorbs another has from either of the two.
Induction along `insertTerm`.
-/
theorem exists_mem_insertTerm {p : Term → Prop}
    (h : ∀ {a b : Term}, a.cube = b.cube → (p (a.absorb b) ↔ p a ∨ p b)) {t : Term}
    {ts : List Term} : (∃ s ∈ insertTerm t ts, p s) ↔ p t ∨ ∃ s ∈ ts, p s := by
  induction ts with
  | nil => simp [insertTerm]
  | cons s ts ih =>
    rw [insertTerm]
    split
    · rename_i hst
      simp only [List.mem_cons, exists_eq_or_imp, h hst]
      rw [or_comm (a := p s), or_assoc]
    · simp only [List.mem_cons, exists_eq_or_imp, ih]
      exact or_left_comm

theorem exists_mem_collect {p : Term → Prop}
    (h : ∀ {a b : Term}, a.cube = b.cube → (p (a.absorb b) ↔ p a ∨ p b)) {ts : List Term} :
    (∃ s ∈ collect ts, p s) ↔ ∃ s ∈ ts, p s := by
  suffices hfold : ∀ acc : List Term, (∃ s ∈ ts.foldl (fun acc t => insertTerm t acc) acc, p s) ↔
      (∃ s ∈ acc, p s) ∨ ∃ s ∈ ts, p s by
    rw [collect_eq, hfold]
    simp
  induction ts with
  | nil => simp
  | cons t ts ih =>
    intro acc
    rw [List.foldl_cons, ih, exists_mem_insertTerm h]
    simp only [List.mem_cons, exists_eq_or_imp]
    rw [or_comm (a := p t), or_assoc]

theorem mem_map_cube_insertTerm {t : Term} {ts : List Term} {c : Cube} :
    c ∈ (insertTerm t ts).map (·.cube) ↔ c = t.cube ∨ c ∈ ts.map (·.cube) := by
  rw [List.mem_map, List.mem_map, eq_comm]
  exact exists_mem_insertTerm fun hab => by rw [Term.cube_absorb, ← hab, or_self]

theorem nodup_map_cube_insertTerm {t : Term} {ts : List Term} (h : (ts.map (·.cube)).Nodup) :
    ((insertTerm t ts).map (·.cube)).Nodup := by
  induction ts with
  | nil => simp [insertTerm]
  | cons s ts ih =>
    by_cases hst : s.cube = t.cube
    · simpa [insertTerm, hst] using h
    · simp only [insertTerm, hst, if_false, List.map_cons, List.nodup_cons] at h ⊢
      refine ⟨fun hmem => ?_, ih h.2⟩
      rcases mem_map_cube_insertTerm.1 hmem with heq | hmem
      · exact hst heq
      · exact h.1 hmem

/-- The cubes of the collected terms are those of the terms. -/
theorem mem_map_cube_collect {ts : List Term} {c : Cube} :
    c ∈ (collect ts).map (·.cube) ↔ c ∈ ts.map (·.cube) := by
  rw [List.mem_map, List.mem_map]
  exact exists_mem_collect fun hab => by rw [Term.cube_absorb, ← hab, or_self]

/-- No two collected terms have the same cube. -/
theorem nodup_map_cube_collect (ts : List Term) : ((collect ts).map (·.cube)).Nodup := by
  suffices h : ∀ acc : List Term, (acc.map (·.cube)).Nodup →
      ((ts.foldl (fun acc t => insertTerm t acc) acc).map (·.cube)).Nodup from
    collect_eq ts ▸ h [] .nil
  induction ts with
  | nil => exact fun _ h => h
  | cons t ts ih => exact fun acc h => ih _ (nodup_map_cube_insertTerm h)

end TwoLevel
