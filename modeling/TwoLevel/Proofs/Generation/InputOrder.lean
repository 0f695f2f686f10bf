import Mathlib.Tactic.Tauto
import TwoLevel.Generation.Rounds
import TwoLevel.Proofs.Generation.Scan
import TwoLevel.Proofs.Term.Joining

/-!
# The order of the given terms

The order of the terms decides where each term stands, which pair is merged first and in which order
terms absorb each other. None of this changes what the terms are. Two generations are *alike* if
they hold the same terms in whatever order.

* **`Alike.unmerged`**, **`Alike.next`** — alike generations leave the same terms unmerged, and
  their next generations are alike again.
* **`forall₂_rounds`** — so the merge process goes through alike rounds from them.
* **`mergeRounds_alike`** — and so it does from two lists of the same terms, ordered and repeated in
  any way.

What a term covers is part of the term, though its cube does not determine it: the merges of a
generation are the same *terms* (`mem_map_term_merges`), and collecting joins what they cover.
-/

namespace TwoLevel

/-- Two generations of one round that hold the same terms. -/
structure Generation.Alike (g h : Generation) : Prop where
  round_eq : g.round = h.round
  perm : g.terms.Perm h.terms

/-- Two rounds with the same terms that find the same primes. -/
structure Round.Alike (r s : Round) : Prop where
  generation : r.generation.Alike s.generation
  primes : r.primes.Perm s.primes

namespace Generation

variable {g h : Generation} {ts us : List Term}

/-! ## One round -/

theorem alike_initial (hmem : ∀ t, t ∈ ts ↔ t ∈ us) : (initial ts).Alike (initial us) where
  round_eq := rfl
  perm := perm_collect hmem

theorem Alike.next (halike : g.Alike h) : g.next.Alike h.next where
  round_eq := congrArg (· + 1) halike.round_eq
  perm := by
    rw [next_eq, next_eq]
    apply perm_collect
    intro t
    rw [mem_map_term_merges, mem_map_term_merges]
    simp only [halike.perm.mem_iff]

theorem Alike.isUnmerged_eq (halike : g.Alike h) (t : Term) : g.isUnmerged t = h.isUnmerged t :=
  halike.perm.all_eq

theorem Alike.unmerged (halike : g.Alike h) : g.unmerged.Perm h.unmerged := by
  rw [unmerged_eq_filter, unmerged_eq_filter, funext halike.isUnmerged_eq]
  exact halike.perm.filter h.isUnmerged

/-! ## All rounds -/

/-- **The merge process goes through alike rounds from alike generations.** -/
theorem forall₂_rounds (halike : g.Alike h) : List.Forall₂ Round.Alike g.rounds h.rounds := by
  induction g using rounds_induct generalizing h with
  | empty g hempty =>
    have hempty' : h.terms = [] := (hempty ▸ halike.perm).nil_eq.symm
    rw [rounds_of_eq_nil hempty, rounds_of_eq_nil hempty']
    exact .nil
  | step g hne ih =>
    have hne' : h.terms ≠ [] := fun hempty => hne (hempty ▸ halike.perm).eq_nil
    rw [rounds_of_ne_nil hne, rounds_of_ne_nil hne']
    exact .cons ⟨halike, halike.unmerged⟩ (ih halike.next)

end Generation

theorem perm_primesOf {rs ss : List Round} (h : List.Forall₂ Round.Alike rs ss) :
    (primesOf rs).Perm (primesOf ss) := by
  induction h with
  | nil => exact .refl _
  | cons halike _ ih => exact halike.primes.append ih

/--
**The order of the terms does not matter, nor how often one is given.** The merge process then has
the same number of rounds. Each has the same terms in its generation, with the same minterms, and
finds the same primes.
-/
theorem mergeRounds_alike {ts us : List Term} (h : ∀ t, t ∈ ts ↔ t ∈ us) :
    List.Forall₂ Round.Alike (mergeRounds ts) (mergeRounds us) ∧ (primes ts).Perm (primes us) := by
  have hrounds := Generation.forall₂_rounds (Generation.alike_initial h)
  exact ⟨hrounds, perm_primesOf hrounds⟩

/--
Two lists of three terms that cover what they do not match, one of them in two parts. Their primes
are found in another order.
-/
theorem mergeRounds_alike_reversed :
    let ts : List Term := [⟨[.zero, .one], .ofList [7]⟩, ⟨[.one, .zero], .ofList []⟩,
      ⟨[.zero, .one], .ofList [1]⟩, ⟨[.one, .one], .ofList [4]⟩]
    let us : List Term := [⟨[.one, .one], .ofList [4]⟩, ⟨[.one, .zero], .ofList []⟩,
      ⟨[.zero, .one], .ofList [1]⟩, ⟨[.one, .zero], .ofList []⟩, ⟨[.zero, .one], .ofList [7]⟩]
    (∀ t, t ∈ ts ↔ t ∈ us) ∧ primes ts ≠ primes us ∧
      List.Forall₂ Round.Alike (mergeRounds ts) (mergeRounds us) ∧
      (primes ts).Perm (primes us) := by
  intro ts us
  have hmem : ∀ t, t ∈ ts ↔ t ∈ us := by
    intro t
    simp only [ts, us, List.mem_cons, List.not_mem_nil, or_false]
    tauto
  have horder : primes ts ≠ primes us := by decide +kernel
  exact ⟨hmem, horder, mergeRounds_alike hmem⟩

end TwoLevel
