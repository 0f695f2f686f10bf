import TwoLevel.Proofs.Search.HitCounts

/-!
# The calls of a search

A search explores one node after the other, and each time it is in some state with some columns
left. `SearchState.Calls` are these states: the first has no row chosen, and below a promising node
the rows for its first open column are tried in order.

* **`Calls.sound`** — in each call the counters are right, the chosen rows may be used, the columns
  before those left are hit, and the covers found are ever smaller ones below the limit.
* **`called_of_mem_visited`** — the search visits nothing else.
-/

namespace TwoLevel

/-! ## Ever smaller covers -/

/-- Covers in the order of `SearchState.found`: each is smaller than those found before it. -/
structure Decreasing (limit : Nat) (found : List (List Nat)) : Prop where
  pairwise : found.Pairwise (·.length < ·.length)
  lt_limit : ∀ rows ∈ found, rows.length < limit

namespace Decreasing

variable {limit : Nat} {found : List (List Nat)}

theorem nil (limit : Nat) : Decreasing limit [] := ⟨.nil, by simp⟩

theorem sizeToBeat_le_limit (h : Decreasing limit found) : sizeToBeat limit found ≤ limit := by
  cases found with
  | nil => exact Nat.le_refl _
  | cons best found => exact Nat.le_of_lt (h.lt_limit best List.mem_cons_self)

theorem sizeToBeat_le (h : Decreasing limit found) {rows : List Nat} (hrows : rows ∈ found) :
    sizeToBeat limit found ≤ rows.length := by
  cases found with
  | nil => simp at hrows
  | cons best found =>
    show best.length ≤ rows.length
    rcases List.mem_cons.1 hrows with rfl | hrows
    · exact Nat.le_refl _
    · exact Nat.le_of_lt (List.rel_of_pairwise_cons h.pairwise hrows)

theorem keepSmaller (h : Decreasing limit found) (rows : List Nat) :
    Decreasing limit (keepSmaller limit found rows) := by
  unfold TwoLevel.keepSmaller
  split
  · rename_i hlt
    constructor
    · exact List.pairwise_cons.2
        ⟨fun other hother => Nat.lt_of_lt_of_le hlt (h.sizeToBeat_le hother), h.pairwise⟩
    · exact List.forall_mem_cons.2 ⟨Nat.lt_of_lt_of_le hlt h.sizeToBeat_le_limit, h.lt_limit⟩
  · exact h

theorem improve (h : Decreasing limit found) (candidates : List (List Nat)) :
    Decreasing limit (improve limit found candidates) := by
  induction candidates generalizing found with
  | nil => exact h
  | cons rows candidates ih => exact ih (h.keepSmaller rows)

end Decreasing

/-- Improving keeps the covers found before, and puts some of the candidates in front of them. -/
theorem exists_improve_eq_append (limit : Nat) (found candidates : List (List Nat)) :
    ∃ new, improve limit found candidates = new ++ found ∧ ∀ rows ∈ new, rows ∈ candidates := by
  induction candidates generalizing found with
  | nil => exact ⟨[], rfl, by simp⟩
  | cons rows candidates ih =>
    obtain ⟨new, hnew, hmem⟩ := ih (keepSmaller limit found rows)
    have hcandidates : ∀ r ∈ new, r ∈ rows :: candidates :=
      fun r hr => List.mem_cons_of_mem _ (hmem r hr)
    rw [improve_cons, hnew]
    unfold keepSmaller
    split
    · refine ⟨new ++ [rows], by simp, fun r hr => ?_⟩
      rcases List.mem_append.1 hr with hr | hr
      · exact hcandidates r hr
      · rw [List.mem_singleton.1 hr]
        exact List.mem_cons_self
    · exact ⟨new, rfl, hcandidates⟩

namespace SearchState

variable {p : CoverProblem} {limit : Nat} {columns : List Nat} {st st' : SearchState}

/-! ## Calls -/

/--
The columns left and the state whenever a search explores a node, where `greedy` is the size of the
greedy cover. Below a promising node, the rows for the first open column are tried one after the
other.
-/
inductive Calls (p : CoverProblem) (greedy : Nat) : List Nat → SearchState → Prop where
  | start (hcolumns : p.columns.isEmpty = false) (hgreedy : p.greedySize? p.columns = some greedy) :
      Calls p greedy p.columns.toList (initial p)
  | branch {skipped columns tried untried : List Nat} {col row : Nat} {st : SearchState}
      (hcall : Calls p greedy (skipped ++ col :: columns) st)
      (hpromising : st.visit.isHopeless p (greedy + 1) (skipped ++ col :: columns) = false)
      (hskipped : ∀ c ∈ skipped, st.isHit c = true) (hopen : st.isHit col = false)
      (hchoices : p.choices col = tried ++ row :: untried) :
      Calls p greedy columns
        ((tried.foldl (SearchState.branch p (greedy + 1) columns) st.visit).take p row)

/-! ## What holds in each call -/

/-- What a search keeps up from one call to the next. -/
structure Sound (p : CoverProblem) (limit : Nat) (columns : List Nat) (st : SearchState) :
    Prop where
  countsHits : st.CountsHits p
  allowed : ∀ row ∈ st.chosen, row ∈ p.allowedRows
  decreasing : Decreasing limit st.found
  exists_before :
    ∃ before, before ++ columns = p.columns.toList ∧ ∀ col ∈ before, st.isHit col = true

theorem sound_initial (p : CoverProblem) (limit : Nat) :
    Sound p limit p.columns.toList (initial p) where
  countsHits := countsHits_initial p
  allowed := by simp [initial]
  decreasing := .nil limit
  exists_before := ⟨[], rfl, by simp⟩

theorem CountsHits.congr (h : st.CountsHits p) (hchosen : st'.chosen = st.chosen)
    (hhits : st'.hits = st.hits) : st'.CountsHits p := by
  rw [CountsHits, hhits, hchosen]
  exact h

/-- Trying some rows changes only what was found. -/
theorem Sound.of_records {rows : List (List Nat)} (h : Sound p limit columns st)
    (hrecords : Records limit rows st st') : Sound p limit columns st' where
  countsHits := h.countsHits.congr hrecords.chosen_eq hrecords.hits_eq
  allowed := by
    rw [hrecords.chosen_eq]
    exact h.allowed
  decreasing := by
    rw [hrecords.found_eq]
    exact h.decreasing.improve rows
  exists_before := by
    obtain ⟨before, hbefore, hhit⟩ := h.exists_before
    refine ⟨before, hbefore, fun col hcol => ?_⟩
    rw [isHit, hrecords.hits_eq]
    exact hhit col hcol

/-- A row that marks the first open column closes all columns up to this one. -/
theorem Sound.take (hchart : p.chart.Consistent) {skipped : List Nat} {col row : Nat}
    (h : Sound p limit (skipped ++ col :: columns) st)
    (hskipped : ∀ c ∈ skipped, st.isHit c = true) (hrow : row ∈ p.choices col) :
    Sound p limit columns (st.take p row) := by
  obtain ⟨hallowed, hmark⟩ := (CoverProblem.mem_choices_iff hchart).1 hrow
  refine ⟨h.countsHits.take row, List.forall_mem_cons.2 ⟨hallowed, h.allowed⟩, h.decreasing, ?_⟩
  have htake : ∀ c, st.isHit c = true ∨ c ∈ p.chart.rowMarks row →
      (st.take p row).isHit c = true := by
    intro c hc
    rw [(h.countsHits.take row).isHit_iff hchart]
    rcases hc with hhit | hmark
    · obtain ⟨r, hr, hrc⟩ := (h.countsHits.isHit_iff hchart).1 hhit
      exact ⟨r, List.mem_cons_of_mem _ hr, hrc⟩
    · exact ⟨row, List.mem_cons_self, hmark⟩
  obtain ⟨before, hbefore, hhit⟩ := h.exists_before
  -- the columns closed are those before, those skipped, and the one branched on
  refine ⟨before ++ skipped ++ [col], by simpa using hbefore, fun c hc => htake c ?_⟩
  rcases List.mem_append.1 hc with hc | hc
  · rcases List.mem_append.1 hc with hc | hc
    · exact Or.inl (hhit c hc)
    · exact Or.inl (hskipped c hc)
  · rw [List.mem_singleton.1 hc]
    exact Or.inr hmark

/-- **Every call is sound.** Induction on the call: first some rows are tried, then one is taken. -/
theorem Calls.sound (hchart : p.chart.Consistent)
    (hcolumns : ∀ col ∈ p.columns, col < p.chart.columnCount) {greedy : Nat}
    (h : Calls p greedy columns st) : Sound p (greedy + 1) columns st := by
  induction h with
  | start => exact sound_initial p (greedy + 1)
  | @branch skipped columns tried untried col row st hcall _ hskipped _ hchoices ih =>
    obtain ⟨before, hbefore, -⟩ := ih.exists_before
    have hsize : st.visit.hits.size = p.chart.columnCount := ih.countsHits.size_hits
    have hlt : ∀ c ∈ columns, c < st.visit.hits.size := by
      intro c hc
      rw [hsize]
      apply hcolumns
      rw [IndexSet.mem_def, ← hbefore]
      simp [hc]
    -- the rows tried so far gave everything back, so the columns skipped are still hit
    have hrecords := records_foldl_branch tried hlt
      fun st hst row => records_branch (greedy + 1) hchart row hst
    have hvisited : Sound p (greedy + 1) (skipped ++ col :: columns) st.visit :=
      ⟨ih.countsHits, ih.allowed, ih.decreasing, ih.exists_before⟩
    have htried := hvisited.of_records hrecords
    refine htried.take hchart (fun c hc => ?_) (by simp [hchoices])
    rw [isHit, hrecords.hits_eq]
    exact hskipped c hc

/-! ## Nothing else is visited -/

/-- Is there a call of the search in which these rows are chosen, the last one first? -/
def Called (p : CoverProblem) (greedy : Nat) (chosen : List Nat) : Prop :=
  ∃ columns st, Calls p greedy columns st ∧ st.chosen = chosen

/-- Trying the rows of a column one after the other visits calls. Induction on the rows to try. -/
theorem called_foldl_branch {greedy : Nat} {choices : List Nat}
    (hbranch : ∀ tried row untried, choices = tried ++ row :: untried →
      (∀ c ∈ (tried.foldl (branch p limit columns) st).visited, Called p greedy c) →
      ∀ c ∈ (branch p limit columns (tried.foldl (branch p limit columns) st) row).visited,
        Called p greedy c)
    {tried untried : List Nat} (hchoices : choices = tried ++ untried)
    (hvisited : ∀ c ∈ (tried.foldl (branch p limit columns) st).visited, Called p greedy c) :
    ∀ c ∈ (choices.foldl (branch p limit columns) st).visited, Called p greedy c := by
  induction untried generalizing tried with
  | nil =>
    rw [hchoices, List.append_nil]
    exact hvisited
  | cons row untried ih =>
    apply ih (hchoices.trans (List.append_cons tried row untried))
    rw [List.foldl_append]
    exact hbranch tried row untried hchoices hvisited

/-- Below a node, only calls are visited. Induction on the columns that are left. -/
theorem Calls.called_descend {greedy : Nat} {skipped : List Nat}
    (h : Calls p greedy (skipped ++ columns) st)
    (hpromising : st.visit.isHopeless p (greedy + 1) (skipped ++ columns) = false)
    (hskipped : ∀ c ∈ skipped, st.isHit c = true)
    (hvisited : ∀ c ∈ st.visit.visited, Called p greedy c) :
    ∀ c ∈ (descend p (greedy + 1) columns st.visit).visited, Called p greedy c := by
  induction columns generalizing skipped st with
  | nil => exact hvisited
  | cons col columns ih =>
    rw [descend_cons]
    split
    · rename_i hhit
      -- a hit column is skipped, and the node stays the same
      rw [List.append_cons] at h hpromising
      refine ih h hpromising (fun c hc => ?_) hvisited
      rcases List.mem_append.1 hc with hc | hc
      · exact hskipped c hc
      · rw [List.mem_singleton.1 hc]
        exact hhit
    · rename_i hopen
      refine called_foldl_branch (fun tried row untried hchoices htried => ?_)
        (List.nil_append _).symm hvisited
      have hcall : Calls p greedy ([] ++ columns) _ :=
        h.branch hpromising hskipped (Bool.eq_false_iff.2 hopen) hchoices
      -- the child itself is a call, and so is all below it
      have hchild := List.forall_mem_cons.2 ⟨⟨columns, _, hcall, rfl⟩, htried⟩
      rw [SearchState.branch, visited_release, enter]
      split
      · exact hchild
      · rename_i hpromising
        exact ih hcall (Bool.eq_false_iff.2 hpromising) (by simp) hchild

/-- **Every node that a search visits is one of its calls.** -/
theorem called_of_mem_visited {greedy : Nat} {final : SearchState}
    (h : p.search = .explored greedy final) {chosen : List Nat} (hchosen : chosen ∈ final.visited) :
    Called p greedy chosen := by
  unfold CoverProblem.search at h
  split at h
  · simp at h
  · rename_i hcolumns
    split at h
    · simp at h
    · rename_i size hgreedy
      obtain ⟨rfl, rfl⟩ := SearchOutcome.explored.inj h
      have hstart : Calls p size ([] ++ p.columns.toList) (initial p) :=
        .start (Bool.eq_false_iff.2 hcolumns) hgreedy
      have hroot : ∀ c ∈ (initial p).visit.visited, Called p size c := by
        intro c hc
        rw [List.mem_singleton.1 hc]
        exact ⟨_, _, hstart, rfl⟩
      unfold explore enter at hchosen
      split at hchosen
      · exact hroot chosen hchosen
      · rename_i hpromising
        exact hstart.called_descend (Bool.eq_false_iff.2 hpromising) (by simp) hroot chosen hchosen

end SearchState

end TwoLevel
