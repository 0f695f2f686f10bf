import TwoLevel.Proofs.Generation.Completeness

/-!
# The generations of a table, one by one

Generation `k` of the merge process holds the implicants of the table with `k` free digits, each of
them once, and the process goes on for as long as there are any (**`mergeRounds_exact`**).

`CompleteFor` holds of the first generation and is handed on by each round. Here it is carried along
the list of rounds, up to the empty generation that ends the list: since that one is complete too,
no implicant has as many free digits as its number says, or more.
-/

namespace TwoLevel

/-- The cubes of generation `k`; there are none after the last round. -/
def cubesAt (rounds : List Round) (k : Nat) : List Cube :=
  (rounds[k]?.map fun r => r.generation.terms.map (·.cube)).getD []

namespace Generation

variable {g : Generation} {table : TruthTable} {k : Nat}

/-! ## Along the rounds

A round at position `i` of the rounds from a generation with number `k` on has number `k + i`. The
induction is on the rounds, so that `k` grows while `i` shrinks. -/

theorem CompleteFor.completeFor_round (h : g.CompleteFor table k) {i : Nat} {r : Round}
    (hr : g.rounds[i]? = some r) : r.generation.CompleteFor table (k + i) := by
  induction g using rounds_induct generalizing k i with
  | empty g hempty => simp [rounds_of_eq_nil hempty] at hr
  | step g hne ih =>
    rw [rounds_of_ne_nil hne] at hr
    cases i with
    | zero =>
      obtain rfl := Option.some.inj hr
      exact h
    | succ i =>
      rw [List.getElem?_cons_succ] at hr
      rw [show k + (i + 1) = k + 1 + i by omega]
      exact ih h.next hr

theorem CompleteFor.lt_length_rounds_iff (h : g.CompleteFor table k) {i : Nat} :
    i < g.rounds.length ↔ ∃ c, table.IsImplicant c ∧ c.eliminated = k + i := by
  induction g using rounds_induct generalizing k i with
  | empty g hempty =>
    rw [rounds_of_eq_nil hempty]
    refine ⟨fun hi => absurd hi (Nat.not_lt_zero i), fun ⟨c, hc, hk⟩ => ?_⟩
    have hlt := h.lt_of_eq_nil TruthTable.mergeFamily_isImplicant (Nat.zero_le k) hempty hc
    omega
  | step g hne ih =>
    rw [rounds_of_ne_nil hne, List.length_cons]
    cases i with
    | zero =>
      refine ⟨fun _ => ?_, fun _ => Nat.succ_pos _⟩
      obtain ⟨t, ht⟩ := List.exists_mem_of_ne_nil _ hne
      exact ⟨t.cube, (h.mem_iff t.cube).1 (List.mem_map_of_mem ht)⟩
    | succ i =>
      rw [Nat.add_lt_add_iff_right, ih h.next, show k + (i + 1) = k + 1 + i by omega]

/-! ## The cubes of one generation -/

theorem CompleteFor.nodup_cubesAt (h : g.CompleteFor table k) (i : Nat) :
    (cubesAt g.rounds i).Nodup := by
  unfold cubesAt
  cases hr : g.rounds[i]? with
  | none => exact List.nodup_nil
  | some r => exact (h.completeFor_round hr).nodup

theorem CompleteFor.mem_cubesAt_iff (h : g.CompleteFor table k) {i : Nat} {c : Cube} :
    c ∈ cubesAt g.rounds i ↔ table.IsImplicant c ∧ c.eliminated = k + i := by
  unfold cubesAt
  cases hr : g.rounds[i]? with
  | none =>
    have hle : ¬ i < g.rounds.length := Nat.not_lt.2 (List.getElem?_eq_none_iff.1 hr)
    refine ⟨fun hc => absurd hc List.not_mem_nil, fun hc => ?_⟩
    exact absurd (h.lt_length_rounds_iff.2 ⟨c, hc⟩) hle
  | some r => exact (h.completeFor_round hr).mem_iff c

end Generation

/-! ## The whole process -/

theorem lt_length_mergeRounds_iff {table : TruthTable} {k : Nat} :
    k < (mergeRounds table.initialTerms).length ↔
      ∃ c, table.IsImplicant c ∧ c.eliminated = k := by
  have hlt := (Generation.CompleteFor.initial table).lt_length_rounds_iff (i := k)
  rwa [Nat.zero_add] at hlt

theorem length_mergeRounds_eq_zero_iff {table : TruthTable} :
    (mergeRounds table.initialTerms).length = 0 ↔ table.stored = ∅ := by
  constructor
  · intro hzero
    rw [← IndexSet.isEmpty_iff]
    by_contra hstored
    obtain ⟨m, hm⟩ := IndexSet.exists_mem_of_not_isEmpty hstored
    have hne := TruthTable.mem_stored.1 hm
    -- the cube of a stored minterm is an implicant without free digits
    have himplicant := (TruthTable.isImplicant_ofIndex (TruthTable.lt_size_of_output_ne hne)).2 hne
    have hlt := lt_length_mergeRounds_iff.2 ⟨_, himplicant, Cube.eliminated_ofIndex table.width m⟩
    omega
  · intro hstored
    by_contra hne
    obtain ⟨c, hc, hk⟩ := lt_length_mergeRounds_iff.1 (Nat.pos_of_ne_zero hne)
    obtain ⟨m, hm, heq⟩ := Cube.exists_eq_ofIndex hk
    rw [hc.width_eq] at hm heq
    have hmem : m ∈ table.stored :=
      TruthTable.mem_stored.2 ((TruthTable.isImplicant_ofIndex hm).1 (heq ▸ hc))
    exact IndexSet.not_mem_empty m (hstored ▸ hmem)

/--
**Every round is complete.** Generation `k` holds the implicants with `k` free digits and nothing
else, each of them once. The number of generations is one more than the greatest such `k`, and there
is no generation if the output is 0 everywhere.
-/
theorem mergeRounds_exact (table : TruthTable) :
    (∀ k, (cubesAt (mergeRounds table.initialTerms) k).Nodup ∧
      ∀ c, c ∈ cubesAt (mergeRounds table.initialTerms) k ↔
        table.IsImplicant c ∧ c.eliminated = k) ∧
    (∀ n, (mergeRounds table.initialTerms).length = n + 1 ↔
      (∃ c, table.IsImplicant c ∧ c.eliminated = n) ∧
        ∀ c, table.IsImplicant c → c.eliminated ≤ n) ∧
    ((mergeRounds table.initialTerms).length = 0 ↔ table.stored = ∅) := by
  have hinitial := Generation.CompleteFor.initial table
  refine ⟨fun k => ⟨hinitial.nodup_cubesAt k, fun c => ?_⟩, fun n => ?_,
    length_mergeRounds_eq_zero_iff⟩
  · have hmem := hinitial.mem_cubesAt_iff (i := k) (c := c)
    rwa [Nat.zero_add] at hmem
  · rw [← lt_length_mergeRounds_iff]
    constructor
    · intro hlength
      refine ⟨by omega, fun c hc => ?_⟩
      have hlt := lt_length_mergeRounds_iff.2 ⟨c, hc, rfl⟩
      omega
    · rintro ⟨hlt, hle⟩
      -- a further generation would hold an implicant with more free digits
      have hnext : ¬ n + 1 < (mergeRounds table.initialTerms).length := by
        rw [lt_length_mergeRounds_iff]
        rintro ⟨c, hc, hk⟩
        have := hle c hc
        omega
      omega

/-- With output 1 everywhere, each round frees one digit of the three. -/
example : (mergeRounds (TruthTable.initialTerms ⟨3, .replicate 8 .one, rfl, by decide⟩)).map
    (·.generation.terms.length) = [8, 12, 6, 1] := by decide +kernel

end TwoLevel
