import Mathlib.Data.List.Chain
import TwoLevel.Generation.Rounds
import TwoLevel.Proofs.Generation.Scan

/-!
# The merge process comes to an end

The process advances for as long as the generation is not empty (`Generation.RunsThrough`). Its size
does not go down: the eight minterms of three variables are merged into twelve terms. What goes down
is the number of literals of every term. A term of the next generation has one free digit more than
any two terms of this one that it is merged from (`Generation.MergesInto`), so that each round
lowers the height of the generation. At the start it is no greater than one more than the greatest
number of literals of a given term.

* **`runsThrough_iff`** — from every generation the process stops, and only after its rounds.
* **`isChain_rounds`** — each round merges the terms of the next one.
* **`length_rounds_le_height`** — there are no more rounds than the height of the generation.
* **`mergeRounds_terminates`** — so it is for all lists of terms, of whatever widths.
-/

namespace TwoLevel

/-- The greatest number of literals of a term; 0 if there is no term. -/
def mostLiterals (ts : List Term) : Nat := (ts.map (·.cube.literals)).max?.getD 0

theorem literals_le_mostLiterals {ts : List Term} {t : Term} (h : t ∈ ts) :
    t.cube.literals ≤ mostLiterals ts :=
  List.le_max?_getD_of_mem (List.mem_map_of_mem h)

namespace Generation

variable {g : Generation} {t : Term} {rs : List Round}

/-- The merge process stops when a generation is empty, and until then keeps it as a round. -/
inductive RunsThrough : Generation → List Round → Prop where
  | stop {g : Generation} (h : g.terms = []) : RunsThrough g []
  | advance {g : Generation} {rs : List Round} (h : g.terms ≠ []) (hrest : RunsThrough g.next rs) :
      RunsThrough g (⟨g, g.unmerged⟩ :: rs)

/--
The cube of the term is merged from two of the generation, and it has one free digit more than any
two that it is merged from.
-/
structure MergesInto (g : Generation) (t : Term) : Prop where
  exists_merge : ∃ a ∈ g.terms, ∃ b ∈ g.terms, a.cube.merge? b.cube = some t.cube
  eliminated_eq : ∀ a ∈ g.terms, ∀ b ∈ g.terms, a.cube.merge? b.cube = some t.cube →
    t.cube.eliminated = a.cube.eliminated + 1 ∧ t.cube.eliminated = b.cube.eliminated + 1

/-! ## One round -/

theorem mergesInto_of_mem_next (h : t ∈ g.next.terms) : g.MergesInto t := by
  refine ⟨?_, fun a _ b _ hmerge => Cube.eliminated_of_merge? hmerge⟩
  obtain ⟨c, hc, d, hd, hmerge⟩ := mem_map_cube_next.1 (List.mem_map_of_mem h)
  obtain ⟨a, ha, rfl⟩ := List.mem_map.1 hc
  obtain ⟨b, hb, rfl⟩ := List.mem_map.1 hd
  exact ⟨a, ha, b, hb, hmerge⟩

/-! ## All rounds -/

theorem runsThrough_rounds (g : Generation) : g.RunsThrough g.rounds := by
  induction g using rounds_induct with
  | empty g hempty =>
    rw [rounds_of_eq_nil hempty]
    exact .stop hempty
  | step g hne ih =>
    rw [rounds_of_ne_nil hne]
    exact .advance hne ih

theorem RunsThrough.eq_rounds (h : g.RunsThrough rs) : rs = g.rounds := by
  induction h with
  | stop hempty => rw [rounds_of_eq_nil hempty]
  | advance hne _ ih => rw [rounds_of_ne_nil hne, ih]

/-- **The process stops after its rounds and at no other time.** -/
theorem runsThrough_iff : g.RunsThrough rs ↔ rs = g.rounds :=
  ⟨fun h => h.eq_rounds, fun h => h ▸ runsThrough_rounds g⟩

theorem generation_of_mem_head?_rounds {r : Round} (h : r ∈ g.rounds.head?) : r.generation = g := by
  by_cases hempty : g.terms = []
  · simp [rounds_of_eq_nil hempty] at h
  · rw [rounds_of_ne_nil hempty, List.head?_cons, Option.mem_some_iff] at h
    rw [← h]

/-- **Each round merges the terms of the next one.** -/
theorem isChain_rounds (g : Generation) :
    g.rounds.IsChain fun r s => ∀ t ∈ s.generation.terms, r.generation.MergesInto t := by
  induction g using rounds_induct with
  | empty g hempty =>
    rw [rounds_of_eq_nil hempty]
    exact .nil
  | step g hne ih =>
    rw [rounds_of_ne_nil hne, List.isChain_cons]
    refine ⟨fun s hs t ht => ?_, ih⟩
    rw [generation_of_mem_head?_rounds hs] at ht
    exact mergesInto_of_mem_next ht

/-- **There are no more rounds than the height of the generation**, for each of them lowers it. -/
theorem length_rounds_le_height (g : Generation) : g.rounds.length ≤ g.height := by
  induction g using rounds_induct with
  | empty g hempty =>
    rw [rounds_of_eq_nil hempty]
    exact Nat.zero_le _
  | step g hne ih =>
    have hlt := height_next_lt hne
    rw [rounds_of_ne_nil hne, List.length_cons]
    omega

theorem height_initial_le (ts : List Term) : (initial ts).height ≤ mostLiterals ts + 1 := by
  apply height_le_of_forall
  intro t ht
  have hcube : t.cube ∈ ts.map (·.cube) := mem_map_cube_collect.1 (List.mem_map_of_mem ht)
  obtain ⟨s, hs, hst⟩ := List.mem_map.1 hcube
  have hle := literals_le_mostLiterals hs
  rw [hst] at hle
  omega

end Generation

/--
**The merge process terminates.** From any terms it runs through the rounds and stops. Every term of
a generation but the first has one free digit more than any two of the generation before that it is
merged from, and there is at most one generation more than the greatest number of literals.
-/
theorem mergeRounds_terminates (ts : List Term) :
    (∀ rs, (Generation.initial ts).RunsThrough rs ↔ rs = mergeRounds ts) ∧
    ((mergeRounds ts).IsChain fun r s => ∀ t ∈ s.generation.terms, r.generation.MergesInto t) ∧
    (mergeRounds ts).length ≤ mostLiterals ts + 1 := by
  refine ⟨fun _ => Generation.runsThrough_iff, Generation.isChain_rounds _, ?_⟩
  calc (mergeRounds ts).length
      ≤ (Generation.initial ts).height := Generation.length_rounds_le_height _
    _ ≤ mostLiterals ts + 1 := Generation.height_initial_le ts

end TwoLevel
