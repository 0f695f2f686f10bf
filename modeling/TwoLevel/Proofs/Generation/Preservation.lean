import TwoLevel.Cover
import TwoLevel.Generation.Rounds
import TwoLevel.Proofs.Generation.Scan

/-!
# What the merge process preserves

A round drops every term that merges and keeps only what it merges into, and collecting puts terms
of one cube together. Neither loses a property that terms hand on, which is to say one that a merged
term, or a term that has absorbed another, has exactly if one of the two terms had it
(`Term.HandedOn`).

* **`exists_mem_iff`** — in one round: some term of a generation has such a property exactly if an
  unmerged one or one of the next generation has it.
* **`exists_mem_primes_iff`** — in the whole process: some prime has it exactly if a given term has.

To accept a minterm is such a property, and to cover it is another. So the primes accept together
what the given terms accept, and cover what these cover (**`primes_preserve`**), for terms of any
widths and with any covered sets.
-/

namespace TwoLevel

/-- A property that a term has exactly if one of the two terms it was made of had it. -/
structure Term.HandedOn (p : Term → Prop) : Prop where
  absorb : ∀ {a b : Term}, a.cube = b.cube → (p (a.absorb b) ↔ p a ∨ p b)
  merge : ∀ {a b t : Term}, a.merge? b = some t → (p t ↔ p a ∨ p b)

namespace Term

theorem handedOn_accepts (m : Nat) : HandedOn fun t => t.accepts m = true where
  absorb {a b} hab := by
    show a.cube.accepts m = true ↔ a.cube.accepts m = true ∨ b.cube.accepts m = true
    rw [← hab, or_self]
  merge h := (unites_of_merge? h).accepts_iff m

theorem handedOn_covered (m : Nat) : HandedOn fun t => m ∈ t.covered where
  absorb _ := mem_covered_absorb
  merge h := (unites_of_merge? h).mem_covered_iff m

end Term

variable {p : Term → Prop}

namespace Generation

/-! ## One round -/

theorem exists_mem_next_iff (hp : Term.HandedOn p) (g : Generation) :
    (∃ t ∈ g.next.terms, p t) ↔ ∃ a ∈ g.terms, ∃ b ∈ g.terms, ∃ t, a.merge? b = some t ∧ p t := by
  rw [next_eq, nextOf, exists_mem_collect hp.absorb]
  simp only [mem_map_term_merges]
  constructor
  · rintro ⟨t, ⟨a, ha, b, hb, hmerge⟩, ht⟩
    exact ⟨a, ha, b, hb, t, hmerge, ht⟩
  · rintro ⟨a, ha, b, hb, t, hmerge, ht⟩
    exact ⟨t, ⟨a, ha, b, hb, hmerge⟩, ht⟩

/-- **A round loses nothing.** A term that merges hands its property on, any other is unmerged. -/
theorem exists_mem_iff (hp : Term.HandedOn p) (g : Generation) :
    (∃ t ∈ g.terms, p t) ↔ (∃ t ∈ g.unmerged, p t) ∨ ∃ t ∈ g.next.terms, p t := by
  rw [exists_mem_next_iff hp, unmerged_eq_filter]
  constructor
  · rintro ⟨a, ha, hpa⟩
    cases hunmerged : g.isUnmerged a with
    | true => exact Or.inl ⟨a, List.mem_filter.2 ⟨ha, hunmerged⟩, hpa⟩
    | false =>
      obtain ⟨b, hb, t, hmerge⟩ := isUnmerged_eq_false_iff.1 hunmerged
      exact Or.inr ⟨a, ha, b, hb, t, hmerge, (hp.merge hmerge).2 (Or.inl hpa)⟩
  · rintro (⟨t, ht, hpt⟩ | ⟨a, ha, b, hb, t, hmerge, hpt⟩)
    · exact ⟨t, (List.mem_filter.1 ht).1, hpt⟩
    · rcases (hp.merge hmerge).1 hpt with hpa | hpb
      · exact ⟨a, ha, hpa⟩
      · exact ⟨b, hb, hpb⟩

/-! ## All rounds -/

theorem exists_mem_primesOf_iff (hp : Term.HandedOn p) (g : Generation) :
    (∃ t ∈ primesOf g.rounds, p t) ↔ ∃ t ∈ g.terms, p t := by
  induction g using rounds_induct with
  | empty g hempty => rw [primesOf_rounds_of_eq_nil hempty, hempty]
  | step g hne ih =>
    rw [primesOf_rounds_of_ne_nil hne, exists_mem_iff hp, ← ih]
    simp only [List.mem_append, or_and_right, exists_or]

end Generation

/-- **The process loses nothing.** -/
theorem exists_mem_primes_iff (hp : Term.HandedOn p) (ts : List Term) :
    (∃ t ∈ primes ts, p t) ↔ ∃ t ∈ ts, p t := by
  rw [primes, mergeRounds, Generation.exists_mem_primesOf_iff hp]
  exact exists_mem_collect hp.absorb

/--
**The primes stand for the given terms.** For any terms, the primes accept the minterms that some
given term accepts, and together they cover the minterms that the given terms cover.
-/
theorem primes_preserve (ts : List Term) :
    (∀ m, Cover.accepts ⟨primes ts⟩ m = true ↔ ∃ t ∈ ts, t.accepts m = true) ∧
      IndexSet.unionAll ((primes ts).map (·.covered)) =
        IndexSet.unionAll (ts.map (·.covered)) := by
  constructor
  · intro m
    rw [Cover.accepts_iff]
    exact exists_mem_primes_iff (Term.handedOn_accepts m) ts
  · ext m
    have hcovered := exists_mem_primes_iff (Term.handedOn_covered m) ts
    simpa only [IndexSet.mem_unionAll, List.mem_map, exists_exists_and_eq_and] using hcovered

end TwoLevel
