import TwoLevel.Proofs.Chart.EssentialRows
import TwoLevel.Proofs.Search.Unbounded

/-!
# Bounds never add a visit

The bounded search and the one without bounds go through the same tree in the same order, but not
with the same best cover: the greedy limit hides covers that the search without bounds keeps for a
while. What holds between the two, whenever they come to the same node, is `SearchState.Follows`:
the size that the bounded search has to beat is never greater than that of the best cover of the
other. It is kept because each has the smallest of the covers seen so far, apart from the limit.

So a node that the search without bounds leaves alone is hopeless for the bounded one, and what the
bounded one visits is visited by the other, too (**`visited_search_sublist`**).
-/

namespace TwoLevel

namespace CoverProblem

variable {p : CoverProblem}

/-! ## The search without bounds, below a node -/

/-- Goes on below a node that has fewer rows than the best cover. -/
def exhaustBelow (p : CoverProblem) (chosen : List Nat) (s : Survey) : List Nat → Survey
  | [] => s.record chosen
  | col :: columns => (p.choices col).foldl
      (fun s row => p.exhaust (row :: chosen) s (p.chart.leftOpen row columns)) s

theorem exhaust_eq (p : CoverProblem) (chosen : List Nat) (s : Survey) (columns : List Nat) :
    p.exhaust chosen s columns =
      if s.isReached chosen then s.visit chosen
      else p.exhaustBelow chosen (s.visit chosen) columns := by
  cases columns with
  | nil => rw [exhaust, exhaustBelow]
  | cons col columns => rw [exhaust, exhaustBelow]

/-- A node is visited before all nodes below it. Induction on the recursion of the search. -/
theorem visit_suffix_exhaust (p : CoverProblem) (chosen : List Nat) (s : Survey)
    (columns : List Nat) : (chosen :: s.visited) <:+ (p.exhaust chosen s columns).visited := by
  fun_induction exhaust p chosen s columns with
  | case1 => exact List.suffix_refl _
  | case2 => exact List.suffix_refl _
  | case3 => exact List.suffix_refl _
  | case4 chosen s col columns _ ih =>
    refine List.foldlRecOn (motive := fun t : Survey => (chosen :: s.visited) <:+ t.visited) _ _
      (List.suffix_refl _) fun t ht row _ => ?_
    exact ht.trans ((List.suffix_cons _ _).trans (ih t row))

end CoverProblem

namespace SearchState

variable {p : CoverProblem} {limit : Nat} {columns : List Nat} {st : SearchState} {s : Survey}

/-! ## The two searches at the same node -/

/--
The bounded search has visited some of the nodes that the other one has, in the same order, and has
to beat a size that is no greater.
-/
structure Follows (limit : Nat) (st : SearchState) (s : Survey) : Prop where
  visited : st.visited.Sublist s.visited
  bestSize_le : ∀ best ∈ s.best?, st.bestSize limit ≤ best.length

theorem mem_of_mem_shorter {a b : Option (List Nat)} {rows : List Nat} (h : rows ∈ shorter a b) :
    rows ∈ a ∨ rows ∈ b := by
  cases a with
  | none => exact Or.inr (by simpa using h)
  | some a =>
    cases b with
    | none => exact Or.inl (by simpa using h)
    | some b =>
      obtain rfl : minOn List.length a b = rows := Option.some.inj h
      rcases (minOn_eq_or : minOn List.length a b = a ∨ minOn List.length a b = b) with heq | heq
      · exact Or.inl (by simp [heq])
      · exact Or.inr (by simp [heq])

/-- After the same candidates, the size to beat is still no greater than that of the best cover. -/
theorem sizeToBeat_improve_le_of_mem_shorter {best? : Option (List Nat)}
    {found candidates : List (List Nat)}
    (h : ∀ best ∈ best?, sizeToBeat limit found ≤ best.length) :
    ∀ best ∈ shorter best? (candidates.minOn? List.length),
      sizeToBeat limit (improve limit found candidates) ≤ best.length := by
  intro best hbest
  rcases mem_of_mem_shorter hbest with hbest | hbest
  · exact Nat.le_trans (sizeToBeat_improve_le_self limit found candidates) (h best hbest)
  · exact sizeToBeat_improve_le limit found (List.minOn?_mem hbest)

theorem bestSize_explore_le (hchart : p.chart.Consistent)
    (hcolumns : ∀ col ∈ columns, col < st.hits.size) (h : st.Follows limit s) :
    ∀ best ∈ (p.exhaust st.chosen s (st.openColumns columns)).best?,
      (st.explore p limit columns).bestSize limit ≤ best.length := by
  -- below the node, both searches look at the same candidates
  rw [p.best?_exhaust]
  unfold bestSize best?
  rw [(records_explore limit hchart hcolumns).found_eq]
  exact sizeToBeat_improve_le_of_mem_shorter h.bestSize_le

/-- A node that the search without bounds leaves alone is hopeless for the bounded one. -/
theorem Follows.not_isReached (h : st.Follows limit s)
    (hpromising : st.visit.isHopeless p limit columns = false) :
    ¬ s.isReached st.chosen = true := by
  intro hreached
  unfold Survey.isReached at hreached
  have hlt : st.chosen.length < st.bestSize limit := length_chosen_lt_bestSize hpromising
  cases hbest : s.best? with
  | none => simp [hbest] at hreached
  | some best =>
    have hbeat := h.bestSize_le best hbest
    rw [hbest, Option.any_some, decide_eq_true_eq] at hreached
    omega

theorem Follows.release (h : st.Follows limit s) : (st.release p).Follows limit s := by
  constructor
  · rw [visited_release]
    exact h.visited
  · unfold bestSize best?
    rw [found_release]
    exact h.bestSize_le

/-- Do the nodes that the bounded search visits below the present one follow the other search? -/
def FollowsBelow (p : CoverProblem) (limit : Nat) (columns : List Nat) (st : SearchState)
    (s : Survey) : Prop :=
  (descend p limit columns st).visited.Sublist
    (p.exhaustBelow st.chosen s (st.openColumns columns)).visited

/-- Exploring a node, the bounded search follows the other if it does so below the node. -/
theorem Follows.explore (hchart : p.chart.Consistent)
    (hcolumns : ∀ col ∈ columns, col < st.hits.size) (h : st.Follows limit s)
    (hbelow : ∀ t, st.visit.Follows limit t → FollowsBelow p limit columns st.visit t) :
    (st.explore p limit columns).Follows limit
      (p.exhaust st.chosen s (st.openColumns columns)) := by
  refine ⟨?_, bestSize_explore_le hchart hcolumns h⟩
  have hvisit : st.visit.Follows limit (s.visit st.chosen) :=
    ⟨h.visited.cons_cons st.chosen, h.bestSize_le⟩
  unfold SearchState.explore enter
  split
  · -- left at once, the node has been visited by the other search as well
    exact hvisit.visited.trans (p.visit_suffix_exhaust st.chosen s _).sublist
  · rename_i hpromising
    rw [p.exhaust_eq, if_neg (h.not_isReached (Bool.eq_false_iff.2 hpromising))]
    exact hbelow _ hvisit

/-- Trying a row, the bounded search follows the other to the node with that row taken. -/
theorem Follows.branch (hchart : p.chart.Consistent)
    (hcolumns : ∀ col ∈ columns, col < st.hits.size) (h : st.Follows limit s) (row : Nat)
    (hbelow : ∀ t, (st.take p row).visit.Follows limit t →
      FollowsBelow p limit columns (st.take p row).visit t) :
    (branch p limit columns st row).Follows limit
      (p.exhaust (row :: st.chosen) s (p.chart.leftOpen row (st.openColumns columns))) := by
  have htake : (st.take p row).Follows limit s := ⟨h.visited, h.bestSize_le⟩
  have htaken : ∀ col ∈ columns, col < (st.take p row).hits.size := by
    simpa [take] using hcolumns
  have hexplore := htake.explore hchart htaken hbelow
  rw [openColumns_take hcolumns] at hexplore
  exact hexplore.release

/--
**Below a node the bounded search visits nothing that the other does not.** Induction on the columns
that are left. Trying a row leaves the stack and the counters to the next as it found them, so that
the two searches come to the same nodes.
-/
theorem Follows.followsBelow (hchart : p.chart.Consistent)
    (hcolumns : ∀ col ∈ columns, col < st.hits.size) (h : st.Follows limit s) :
    FollowsBelow p limit columns st s := by
  unfold FollowsBelow
  induction columns generalizing st s with
  | nil => exact h.visited
  | cons col columns ih =>
    rw [List.forall_mem_cons] at hcolumns
    rw [descend_cons]
    split
    · rename_i hhit
      rw [openColumns_cons_of_isHit columns hhit]
      exact ih hcolumns.2 h
    · rename_i hhit
      have hstep : ∀ row ∈ p.choices col, ∀ (a : SearchState) (b : Survey),
          (a.chosen = st.chosen ∧ a.hits = st.hits ∧ a.Follows limit b) →
          (SearchState.branch p limit columns a row).chosen = st.chosen ∧
            (SearchState.branch p limit columns a row).hits = st.hits ∧
            (SearchState.branch p limit columns a row).Follows limit (p.exhaust
              (row :: st.chosen) b (p.chart.leftOpen row (st.openColumns columns))) := by
        intro row _ a b ⟨hchosen, hhits, hfollows⟩
        have hlt : ∀ c ∈ columns, c < a.hits.size := by
          rw [hhits]
          exact hcolumns.2
        have hrecords := records_branch limit hchart row hlt
        have hbranch := hfollows.branch hchart hlt row fun t ht =>
          ih (by simpa [take, visit] using hlt) ht
        rw [hchosen, openColumns_congr hhits] at hbranch
        exact ⟨hrecords.chosen_eq.trans hchosen, hrecords.hits_eq.trans hhits, hbranch⟩
      rw [openColumns_cons_of_not_isHit columns (Bool.eq_false_iff.2 hhit)]
      exact (List.foldl_rel ⟨rfl, rfl, h⟩ hstep).2.2.visited

end SearchState

/-! ## The whole search -/

theorem CoverProblem.exists_search_eq_explored {p : CoverProblem} (hchart : p.chart.Consistent)
    (hcolumns : p.columns.isEmpty = false) (hchoices : ∀ col ∈ p.columns, p.choices col ≠ []) :
    ∃ greedy, p.search = .explored greedy
      ((SearchState.initial p).explore p (greedy + 1) p.columns.toList) := by
  cases hgreedy : p.greedySize? p.columns with
  | none =>
    obtain ⟨col, hcol, hnil⟩ := exists_choices_eq_nil hchart hgreedy
    exact absurd hnil (hchoices col hcol)
  | some greedy =>
    refine ⟨greedy, ?_⟩
    rw [search, hcolumns, hgreedy]
    rfl

/--
**The bounds never add a visit.** If there are columns to cover and each has a row that may be used,
the bounded search visits choices of rows that the search without bounds visits as well, in the same
order and none more often, and so it visits no more nodes.
-/
theorem Chart.visited_search_sublist (terms : List Term) (required : List Nat)
    (excluded covered : IndexSet)
    (hopen : ∃ col < (ofTerms terms required).columnCount, col ∉ covered)
    (hmarked : ∀ col < (ofTerms terms required).columnCount, col ∉ covered →
      ∃ row, (ofTerms terms required).isMarked row col = true ∧ row ∉ excluded) :
    let p := CoverProblem.ofChart (ofTerms terms required) excluded covered
    ∃ greedy final, p.search = .explored greedy final ∧
      final.visited.length ≤ (p.exhaust [] .empty p.columns.toList).visited.length ∧
      final.visited.Sublist (p.exhaust [] .empty p.columns.toList).visited := by
  intro p
  have hchart : p.chart.Consistent := consistent_ofTerms terms required
  have hcolumns : ∀ col ∈ p.columns, col < p.chart.columnCount := lt_of_mem_columns_ofChart
  have hnonempty : p.columns.isEmpty = false := by
    obtain ⟨col, hcol, hcov⟩ := hopen
    rw [Bool.eq_false_iff, Ne, IndexSet.isEmpty_iff]
    intro hempty
    have hmem : col ∈ p.columns := mem_columns_ofChart.2 ⟨hcol, hcov⟩
    simp [hempty] at hmem
  have hchoices : ∀ col ∈ p.columns, p.choices col ≠ [] := by
    intro col hcol
    obtain ⟨hlt, hcov⟩ := mem_columns_ofChart.1 hcol
    obtain ⟨row, hmark, hrow⟩ := hmarked col hlt hcov
    apply List.ne_nil_of_mem
    exact CoverProblem.mem_choices.2 ⟨hchart.mem_columnMarks.2 (isMarked_iff.1 hmark), hrow⟩
  obtain ⟨greedy, hsearch⟩ := CoverProblem.exists_search_eq_explored hchart hnonempty hchoices
  have hlt := CoverProblem.lt_size_hits_initial hcolumns
  have hstart : (SearchState.initial p).Follows (greedy + 1) .empty :=
    ⟨.slnil, by simp [Survey.empty]⟩
  have hfollows := hstart.explore hchart hlt fun t ht => ht.followsBelow hchart hlt
  rw [CoverProblem.openColumns_initial hcolumns] at hfollows
  exact ⟨greedy, _, hsearch, hfollows.visited.length_le, hfollows.visited⟩

/-- The four columns that the essential row leaves open, each of which has two rows to try. -/
theorem Chart.visited_search_sublist_mixed :
    (∃ col < mixed.columnCount, col ∉ ({4} : IndexSet)) ∧
    (∀ col < mixed.columnCount, col ∉ ({4} : IndexSet) →
      ∃ row, mixed.isMarked row col = true ∧ row ∉ ({4} : IndexSet)) ∧
    ∃ greedy final, (CoverProblem.ofChart mixed {4} {4}).search = .explored greedy final ∧
      final.visited.Sublist ((CoverProblem.ofChart mixed {4} {4}).exhaust [] .empty
        (CoverProblem.ofChart mixed {4} {4}).columns.toList).visited := by
  have hopen : ∃ col < mixed.columnCount, col ∉ ({4} : IndexSet) :=
    ⟨0, by decide +kernel, by decide +kernel⟩
  have hrows : ∀ col < mixed.columnCount, col ∉ ({4} : IndexSet) →
      ∃ row < 6, mixed.isMarked row col = true ∧ row ∉ ({4} : IndexSet) := by decide +kernel
  have hmarked : ∀ col < mixed.columnCount, col ∉ ({4} : IndexSet) →
      ∃ row, mixed.isMarked row col = true ∧ row ∉ ({4} : IndexSet) :=
    fun col hcol hcov => (hrows col hcol hcov).imp fun _ => And.right
  obtain ⟨greedy, final, hsearch, -, hsublist⟩ :=
    visited_search_sublist _ _ {4} {4} hopen hmarked
  exact ⟨hopen, hmarked, greedy, final, hsearch, hsublist⟩

end TwoLevel
