import TwoLevel.Proofs.Generation.Families
import TwoLevel.Proofs.TruthTable.Implicants

/-!
# The merge process finds the prime implicants

The implicants of a table form a family that merging builds up from those of single minterms
(`TruthTable.mergeFamily_isImplicant`), and the prime ones are those that merge with none. What is
known of such families (`Generation.Lists`) is said here of tables.

* **`CompleteFor`** — the generation lists the implicants with `k` free digits.
* **`CompleteFor.initial`**, **`CompleteFor.next`** — the invariant holds at the start with `k = 0`,
  and a round of merges takes it to `k + 1`.
* **`primes_exact`** — so the rounds give all prime implicants of a table (`mem_map_cube_primes`),
  each once (`nodup_map_cube_primes`), in the order of the number of free digits.
-/

namespace TwoLevel

namespace Generation

variable {g : Generation} {table : TruthTable} {k : Nat}

/-- What holds of the terms of a generation and of all generations after it holds of the primes. -/
theorem forall_mem_primesOf {motive : Term → Prop}
    (next : ∀ g : Generation, (∀ t ∈ g.terms, motive t) → ∀ t ∈ g.next.terms, motive t)
    (h : ∀ t ∈ g.terms, motive t) : ∀ t ∈ primesOf g.rounds, motive t := by
  induction g using rounds_induct with
  | empty g hempty => simp [primesOf_rounds_of_eq_nil hempty]
  | step g hne ih =>
    intro t ht
    rw [primesOf_rounds_of_ne_nil hne, List.mem_append] at ht
    rcases ht with ht | ht
    · rw [unmerged_eq_filter] at ht
      exact h t (List.mem_filter.1 ht).1
    · exact ih (next g h) t ht

/-! ## Complete generations -/

/-- The generation holds the implicants of the table with `k` free digits, each of them once. -/
abbrev CompleteFor (g : Generation) (table : TruthTable) (k : Nat) : Prop :=
  g.Lists table.IsImplicant k

theorem CompleteFor.initial (table : TruthTable) :
    (Generation.initial table.initialTerms).CompleteFor table 0 where
  nodup := nodup_map_cube_collect _
  mem_iff c := by
    rw [Generation.initial, mem_map_cube_collect, TruthTable.initialTerms, List.map_map,
      List.mem_map]
    constructor
    · rintro ⟨m, hm, rfl⟩
      have hne := TruthTable.mem_stored.1 hm
      have hlt := TruthTable.lt_size_of_output_ne hne
      refine ⟨(TruthTable.isImplicant_ofIndex hlt).2 hne, ?_⟩
      show (Cube.ofIndex table.width m).eliminated = 0
      exact Cube.eliminated_ofIndex table.width m
    · rintro ⟨himplicant, hfree⟩
      obtain ⟨m, hm, heq⟩ := Cube.exists_eq_ofIndex hfree
      rw [himplicant.width_eq] at hm heq
      subst heq
      exact ⟨m, TruthTable.mem_stored.2 ((TruthTable.isImplicant_ofIndex hm).1 himplicant), rfl⟩

theorem CompleteFor.next (h : g.CompleteFor table k) : g.next.CompleteFor table (k + 1) :=
  Lists.next TruthTable.mergeFamily_isImplicant h (Nat.zero_le k)

end Generation

/-! ## The primes of a table -/

theorem mem_map_cube_primes {table : TruthTable} {c : Cube} :
    c ∈ (primes table.initialTerms).map (·.cube) ↔ table.IsPrimeImplicant c := by
  rw [primes, mergeRounds, (Generation.CompleteFor.initial table).mem_primesOf
    TruthTable.mergeFamily_isImplicant (Nat.zero_le 0), TruthTable.unmergedIn_isImplicant_iff]
  exact and_iff_left (Nat.zero_le _)

theorem pairwise_primes (table : TruthTable) :
    (primes table.initialTerms).Pairwise fun s t =>
      s.cube ≠ t.cube ∧ s.cube.eliminated ≤ t.cube.eliminated :=
  (Generation.CompleteFor.initial table).pairwise_primesOf TruthTable.mergeFamily_isImplicant
    (Nat.zero_le 0)

theorem nodup_map_cube_primes (table : TruthTable) :
    ((primes table.initialTerms).map (·.cube)).Nodup :=
  List.pairwise_map.2 ((pairwise_primes table).imp And.left)

/--
**The merge process is exact.** For every table it gives the prime implicants and nothing else, each
of them once, and none before one that has fewer free digits.
-/
theorem primes_exact (table : TruthTable) :
    (∀ c, c ∈ (primes table.initialTerms).map (·.cube) ↔ table.IsPrimeImplicant c) ∧
      ((primes table.initialTerms).map (·.cube)).Nodup ∧
      ((primes table.initialTerms).map (·.cube.eliminated)).Pairwise (· ≤ ·) := by
  refine ⟨fun c => mem_map_cube_primes, nodup_map_cube_primes table, ?_⟩
  exact List.pairwise_map.2 ((pairwise_primes table).imp And.right)

end TwoLevel
