import Mathlib.Data.List.Nodup
import TwoLevel.Generation
import TwoLevel.Proofs.Term.Merging

/-!
# The grouped scan is the scan over all pairs

`Generation.merges` looks for the partners of a term in two groups only, and merges what it finds
there back into the order of positions. This comes to the scan over all pairs
(**`merges_eq_scan`**): a term with other ones than these has no merge, and the order of positions
is the only one in which the merges of a term can stand.

So a term of the next generation is a merge of any two terms (`mem_map_cube_next`), and the
unmerged terms are those that merge with no term at all (**`unmerged_eq_filter`**).
-/

namespace TwoLevel

/--
Mapping two parts of a list comes to mapping the list, up to order, if each element that is not
dropped is in exactly one part.
-/
theorem perm_filterMap_parts {α β : Type} {f : α → Option β} {q r : α → Bool} {xs : List α}
    (h : ∀ x ∈ xs, f x ≠ none → q x = !r x) :
    ((xs.filter q).filterMap f ++ (xs.filter r).filterMap f).Perm (xs.filterMap f) := by
  induction xs with
  | nil => exact List.Perm.refl _
  | cons x xs ih =>
    rw [List.forall_mem_cons] at h
    have hperm := ih h.2
    cases hfx : f x with
    | none =>
      cases hq : q x <;> cases hr : r x <;> simpa [hq, hr, hfx] using hperm
    | some y =>
      have hx := h.1 (by simp [hfx])
      cases hr : r x with
      | false => simpa [hr, hx, hfx] using hperm
      | true =>
        simp only [hr, hx, List.filter_cons, Bool.not_true, Bool.false_eq_true, if_false, if_true,
          List.filterMap_cons, hfx]
        exact List.perm_middle.trans (hperm.cons y)

namespace Generation

variable {g : Generation}

/-! ## Groups -/

theorem filterMap_zip_map {α β : Type} [DecidableEq β] (f : α → β) (b : β) (xs : List α) :
    ((xs.zip (xs.map f)).filterMap fun (x, y) => if y = b then some x else none) =
      xs.filter (f · = b) := by
  induction xs with
  | nil => rfl
  | cons x xs ih =>
    rw [List.map_cons, List.zip_cons_cons, List.filterMap_cons, List.filter_cons, ih]
    by_cases h : f x = b <;> simp [h]

/-- A group holds the terms with its number of ones, whether or not there are any. -/
theorem group_groups (g : Generation) (k : Nat) :
    group g.groups k = g.placed.filter (·.1.cube.ones = k) := by
  unfold group groups
  simp only [filterMap_zip_map (fun p : Placed => p.1.cube.ones), List.getElem?_toArray,
    List.getElem?_map]
  by_cases hk : k < (g.placed.map fun p => p.1.cube.ones).max?.getD 0 + 1
  · simp [List.getElem?_range hk]
  · rw [List.getElem?_eq_none (by simpa using hk), Option.map_none, Option.getD_none]
    -- there are no groups beyond the greatest number of ones, and no terms either
    symm
    rw [List.filter_eq_nil_iff]
    intro p hp
    have hmem : p.1.cube.ones ∈ g.placed.map fun p => p.1.cube.ones := List.mem_map.2 ⟨p, hp, rfl⟩
    have hle : p.1.cube.ones ≤ (g.placed.map fun p => p.1.cube.ones).max?.getD 0 :=
      List.le_max?_getD_of_mem hmem
    rw [decide_eq_true_eq]
    omega

theorem mergesOf_eq_merge (g : Generation) (p : Placed) :
    mergesOf g.groups p = Ordered.merge (fun m n => m.second ≤ n.second)
      (mergesWith p (g.placed.filter (·.1.cube.ones + 1 = p.1.cube.ones)))
      (mergesWith p (g.placed.filter (·.1.cube.ones = p.1.cube.ones + 1))) := by
  unfold mergesOf
  cases hones : p.1.cube.ones with
  | zero => simp [group_groups]
  | succ k => simp [group_groups]

/-! ## Merges in order -/

theorem mem_placed {p : Placed} : p ∈ g.placed ↔ g.terms[p.2]? = some p.1 :=
  List.mem_zipIdx_iff_getElem?

theorem pairwise_placed (g : Generation) : g.placed.Pairwise fun p q => p.2 < q.2 :=
  pairwise_zipIdx g.terms

theorem second_of_mergesWith {p q : Placed} {m : Merge}
    (h : (if p.2 < q.2 then (p.1.merge? q.1).map fun t => Merge.mk p.2 q.2 t else none) = some m) :
    m.first = p.2 ∧ m.second = q.2 ∧ p.2 < q.2 ∧ p.1.merge? q.1 = some m.term := by
  split at h
  · rename_i hlt
    obtain ⟨t, ht, rfl⟩ := Option.map_eq_some_iff.1 h
    exact ⟨rfl, rfl, hlt, ht⟩
  · simp at h

theorem pairwise_mergesWith {p : Placed} {qs : List Placed} (h : qs.Pairwise fun q r => q.2 < r.2) :
    (mergesWith p qs).Pairwise fun m n => m.second < n.second := by
  refine h.filterMap _ fun q r hqr m hm n hn => ?_
  rw [(second_of_mergesWith hm).2.1, (second_of_mergesWith hn).2.1]
  exact hqr

/-- Looking at two groups finds all merges of a term, and in the same order. -/
theorem mergesOf_groups (g : Generation) (p : Placed) :
    mergesOf g.groups p = mergesWith p g.placed := by
  have hperm : (mergesOf g.groups p).Perm (mergesWith p g.placed) := by
    rw [mergesOf_eq_merge, Ordered.merge_eq]
    refine (List.merge_perm_append _).trans (perm_filterMap_parts fun q _ hq => ?_)
    obtain ⟨m, hm⟩ := Option.ne_none_iff_exists'.1 hq
    -- a partner has one 1 less or one 1 more, and not both
    have hones := Term.ones_of_merge? (second_of_mergesWith hm).2.2.2
    rw [Bool.eq_iff_iff, Bool.not_eq_true', decide_eq_true_eq, decide_eq_false_iff_not]
    omega
  have hsorted := pairwise_mergesWith (p := p) g.pairwise_placed
  have hnodup : ((mergesWith p g.placed).map (·.second)).Nodup :=
    List.pairwise_map.2 (hsorted.imp Nat.ne_of_lt)
  have hle : (mergesWith p g.placed).Pairwise fun m n => m.second ≤ n.second :=
    hsorted.imp Nat.le_of_lt
  refine List.Perm.eq_of_pairwise ?_ ?_ hle hperm
  · intro m n hm hn hmn hnm
    exact List.inj_on_of_nodup_map hnodup (hperm.mem_iff.1 hm) hn (Nat.le_antisymm hmn hnm)
  · -- each group is in order, and so is what they are merged into
    have hgroup : ∀ q : Placed → Bool,
        (mergesWith p (g.placed.filter q)).Pairwise fun m n => m.second ≤ n.second := fun q =>
      (pairwise_mergesWith (g.pairwise_placed.filter q)).imp Nat.le_of_lt
    rw [mergesOf_eq_merge, Ordered.merge_eq]
    have hmerge := @List.pairwise_merge Merge (fun m n => decide (m.second ≤ n.second))
      (by simpa using fun _ _ _ => Nat.le_trans) (by simpa using fun _ _ => Nat.le_total _ _)
      _ _ ((hgroup (·.1.cube.ones + 1 = p.1.cube.ones)).imp decide_eq_true)
      ((hgroup (·.1.cube.ones = p.1.cube.ones + 1)).imp decide_eq_true)
    exact hmerge.imp of_decide_eq_true

/-- **The scan over groups is the scan over all pairs.** -/
theorem merges_eq_scan (g : Generation) : g.merges = g.placed.flatMap (mergesWith · g.placed) := by
  show g.placed.flatMap (mergesOf g.groups) = _
  congr 1
  funext p
  exact mergesOf_groups g p

theorem mem_merges {m : Merge} :
    m ∈ g.merges ↔ m.first < m.second ∧ ∃ a b, g.terms[m.first]? = some a ∧
      g.terms[m.second]? = some b ∧ a.merge? b = some m.term := by
  rw [merges_eq_scan]
  simp only [List.mem_flatMap, mergesWith, List.mem_filterMap]
  constructor
  · rintro ⟨p, hp, q, hq, hm⟩
    obtain ⟨hfirst, hsecond, hlt, hmerge⟩ := second_of_mergesWith hm
    rw [hfirst, hsecond]
    exact ⟨hlt, p.1, q.1, mem_placed.1 hp, mem_placed.1 hq, hmerge⟩
  · rintro ⟨hlt, a, b, ha, hb, hmerge⟩
    refine ⟨(a, m.first), mem_placed.2 ha, (b, m.second), mem_placed.2 hb, ?_⟩
    rw [if_pos hlt, hmerge]
    rfl

/-- Any two terms that merge do so, in the order of their positions. -/
theorem exists_mem_merges {i j : Nat} {a b t : Term} (ha : g.terms[i]? = some a)
    (hb : g.terms[j]? = some b) (ht : a.merge? b = some t) :
    ∃ m ∈ g.merges, m.term = t ∧ (m.first = i ∧ m.second = j ∨ m.first = j ∧ m.second = i) := by
  have hne : i ≠ j := by
    rintro rfl
    rw [ha] at hb
    obtain rfl := Option.some.inj hb
    simp [Term.merge?] at ht
  rcases Nat.lt_or_gt_of_ne hne with hij | hji
  · exact ⟨⟨i, j, t⟩, mem_merges.2 ⟨hij, a, b, ha, hb, ht⟩, rfl, Or.inl ⟨rfl, rfl⟩⟩
  · rw [Term.merge?_comm] at ht
    exact ⟨⟨j, i, t⟩, mem_merges.2 ⟨hji, b, a, hb, ha, ht⟩, rfl, Or.inr ⟨rfl, rfl⟩⟩

theorem mem_map_term_merges {t : Term} :
    t ∈ g.merges.map (·.term) ↔ ∃ a ∈ g.terms, ∃ b ∈ g.terms, a.merge? b = some t := by
  rw [List.mem_map]
  constructor
  · rintro ⟨m, hm, rfl⟩
    exact exists_of_mem_merges hm
  · rintro ⟨a, ha, b, hb, hmerge⟩
    obtain ⟨i, hi⟩ := List.mem_iff_getElem?.1 ha
    obtain ⟨j, hj⟩ := List.mem_iff_getElem?.1 hb
    obtain ⟨m, hm, hterm, -⟩ := exists_mem_merges hi hj hmerge
    exact ⟨m, hm, hterm⟩

/-! ## The next generation and the unmerged terms -/

theorem mem_map_cube_next {c : Cube} :
    c ∈ g.next.terms.map (·.cube) ↔
      ∃ a ∈ g.terms.map (·.cube), ∃ b ∈ g.terms.map (·.cube), a.merge? b = some c := by
  rw [next_eq, nextOf, mem_map_cube_collect, List.mem_map]
  simp only [mem_map_term_merges]
  constructor
  · rintro ⟨t, ⟨a, ha, b, hb, hmerge⟩, rfl⟩
    exact ⟨a.cube, List.mem_map_of_mem ha, b.cube, List.mem_map_of_mem hb,
      (Term.merge?_eq_some_iff.1 hmerge).1⟩
  · rintro ⟨_, hacube, _, hbcube, hmerge⟩
    obtain ⟨a, ha, rfl⟩ := List.mem_map.1 hacube
    obtain ⟨b, hb, rfl⟩ := List.mem_map.1 hbcube
    obtain ⟨t, ht, hcube⟩ := Term.exists_merge? hmerge
    exact ⟨t, ⟨a, ha, b, hb, ht⟩, hcube⟩

/-- Does the cube of a term merge with none of the generation? -/
def isUnmerged (g : Generation) (t : Term) : Bool :=
  g.terms.all fun s => (t.cube.merge? s.cube).isNone

theorem isUnmerged_iff {t : Term} :
    g.isUnmerged t = true ↔ ∀ c ∈ g.terms.map (·.cube), t.cube.merge? c = none := by
  simp [isUnmerged]

theorem isUnmerged_eq_false_iff {t : Term} :
    g.isUnmerged t = false ↔ ∃ s ∈ g.terms, ∃ u, t.merge? s = some u := by
  rw [isUnmerged, List.all_eq_false]
  constructor
  · rintro ⟨s, hs, hmerge⟩
    obtain ⟨c, hc⟩ := Option.ne_none_iff_exists'.1 (mt Option.isNone_iff_eq_none.2 hmerge)
    obtain ⟨u, hu, -⟩ := Term.exists_merge? hc
    exact ⟨s, hs, u, hu⟩
  · rintro ⟨s, hs, u, hu⟩
    refine ⟨s, hs, ?_⟩
    rw [(Term.merge?_eq_some_iff.1 hu).1]
    exact Bool.false_ne_true

theorem mem_positions_merges {p : Placed} (hp : p ∈ g.placed) :
    p.2 ∈ (g.merges.flatMap fun m => [m.first, m.second]) ↔ g.isUnmerged p.1 = false := by
  have hplace := mem_placed.1 hp
  rw [isUnmerged_eq_false_iff, List.mem_flatMap]
  constructor
  · rintro ⟨m, hm, hmem⟩
    obtain ⟨-, a, b, ha, hb, hmerge⟩ := mem_merges.1 hm
    simp only [List.mem_cons, List.not_mem_nil, or_false] at hmem
    rcases hmem with hfirst | hsecond
    · rw [← hfirst, hplace] at ha
      obtain rfl := Option.some.inj ha
      exact ⟨b, List.mem_of_getElem? hb, m.term, hmerge⟩
    · rw [← hsecond, hplace] at hb
      obtain rfl := Option.some.inj hb
      exact ⟨a, List.mem_of_getElem? ha, m.term, (Term.merge?_comm p.1 a).trans hmerge⟩
  · rintro ⟨s, hs, t, ht⟩
    obtain ⟨j, hj⟩ := List.mem_iff_getElem?.1 hs
    obtain ⟨m, hm, -, hpos⟩ := exists_mem_merges hplace hj ht
    refine ⟨m, hm, ?_⟩
    rcases hpos with ⟨hfirst, -⟩ | ⟨-, hsecond⟩
    · simp [hfirst]
    · simp [hsecond]

/-- Marking the positions of some merges leaves the terms at all other positions. -/
theorem unmergedOf_eq (g : Generation) (merges : List Merge) :
    g.unmergedOf merges =
      (g.placed.filter fun p => p.2 ∉ merges.flatMap fun m => [m.first, m.second]).map (·.1) := by
  rw [unmergedOf]
  congr 1
  apply List.filter_congr
  intro p hp
  have hlt : p.2 < g.terms.length := (List.getElem?_eq_some_iff.1 (mem_placed.1 hp)).1
  rw [getElem?_putAt (by simpa using hlt), Array.getElem?_replicate, if_pos hlt]
  by_cases hpos : p.2 ∈ merges.flatMap fun m => [m.first, m.second]
  · simp [hpos]
  · simp [hpos]

/-- **The unmerged terms are those that merge with no term of the generation.** -/
theorem unmerged_eq_filter (g : Generation) : g.unmerged = g.terms.filter g.isUnmerged := by
  rw [unmerged_eq, unmergedOf_eq]
  have hterms : g.terms = g.placed.map (·.1) := (List.zipIdx_map_fst 0 g.terms).symm
  conv_rhs => rw [hterms]
  rw [List.filter_map]
  congr 1
  apply List.filter_congr
  intro p hp
  rw [Function.comp_apply, Bool.eq_iff_iff, decide_eq_true_iff, mem_positions_merges hp,
    Bool.not_eq_false]

theorem mem_map_cube_unmerged {c : Cube} :
    c ∈ g.unmerged.map (·.cube) ↔
      c ∈ g.terms.map (·.cube) ∧ ∀ b ∈ g.terms.map (·.cube), c.merge? b = none := by
  rw [unmerged_eq_filter]
  constructor
  · intro hc
    obtain ⟨t, ht, rfl⟩ := List.mem_map.1 hc
    obtain ⟨hmem, hunmerged⟩ := List.mem_filter.1 ht
    exact ⟨List.mem_map_of_mem hmem, isUnmerged_iff.1 hunmerged⟩
  · rintro ⟨hc, hnone⟩
    obtain ⟨t, ht, rfl⟩ := List.mem_map.1 hc
    exact List.mem_map_of_mem (List.mem_filter.2 ⟨ht, isUnmerged_iff.2 hnone⟩)

end Generation

end TwoLevel
