import Mathlib.Tactic.ByContra
import TwoLevel.Generation.Rounds
import TwoLevel.Proofs.Cube.Families
import TwoLevel.Proofs.Generation.Scan

/-!
# The merge process on a family of cubes

A term is called unmerged because no partner for it is in its own generation. To say that it merges
with nothing at all, one has to know that the generation holds every possible partner.

This is so when the cubes are the members of a `MergeFamily` with `k` free digits (`Lists`). Then

* **`Lists.next`** — the next generation lists the members with `k + 1`,
* **`Lists.mem_unmerged`** — the unmerged terms are those members that merge with no member,
* **`Lists.mem_primesOf`**, **`Lists.pairwise_primesOf`** — and the rounds give all such members
  from `k` free digits on, each of them once, in the order of the number of free digits.
-/

namespace TwoLevel

namespace Generation

/-- The generation holds the members of the family with `k` free digits, each of them once. -/
structure Lists (g : Generation) (family : Cube → Prop) (k : Nat) : Prop where
  nodup : (g.terms.map (·.cube)).Nodup
  mem_iff : ∀ c, c ∈ g.terms.map (·.cube) ↔ family c ∧ c.eliminated = k

variable {g : Generation} {family : Cube → Prop} {least k : Nat} {c : Cube}

/-! ## One round -/

theorem Lists.next (hfamily : Cube.MergeFamily family least) (h : g.Lists family k)
    (hk : least ≤ k) : g.next.Lists family (k + 1) where
  nodup := by
    rw [next_eq, nextOf]
    exact nodup_map_cube_collect _
  mem_iff c := by
    rw [mem_map_cube_next]
    simp only [h.mem_iff]
    constructor
    · rintro ⟨a, ⟨ha, hka⟩, b, ⟨hb, -⟩, hmerge⟩
      have helim := (Cube.eliminated_of_merge? hmerge).1
      exact ⟨(hfamily.merge_iff ha hmerge).1 hb, by omega⟩
    · rintro ⟨hc, hkc⟩
      obtain ⟨a, b, ha, hb, hmerge⟩ := hfamily.exists_merge hc (by omega)
      have helim := Cube.eliminated_of_merge? hmerge
      exact ⟨a, ⟨ha, by omega⟩, b, ⟨hb, by omega⟩, hmerge⟩

/-- **The unmerged terms are the members that merge with no member**, of any size. -/
theorem Lists.mem_unmerged (h : g.Lists family k) :
    c ∈ g.unmerged.map (·.cube) ↔ Cube.UnmergedIn family c ∧ c.eliminated = k := by
  rw [mem_map_cube_unmerged]
  simp only [h.mem_iff]
  constructor
  · rintro ⟨⟨hc, hk⟩, hnone⟩
    refine ⟨⟨hc, fun b hb => ?_⟩, hk⟩
    cases hmerge : c.merge? b with
    | none => rfl
    | some d =>
      -- only cubes of the same size merge, so the generation holds the partner
      have helim := Cube.eliminated_of_merge? hmerge
      rw [hnone b ⟨hb, by omega⟩] at hmerge
      simp at hmerge
  · rintro ⟨hc, hk⟩
    exact ⟨⟨hc.mem, hk⟩, fun b hb => hc.merge?_eq_none b hb.1⟩

/-! ## All rounds -/

/-- When the rounds end, no member is left. -/
theorem Lists.lt_of_eq_nil (hfamily : Cube.MergeFamily family least) (h : g.Lists family k)
    (hk : least ≤ k) (hempty : g.terms = []) (hc : family c) : c.eliminated < k := by
  by_contra hle
  obtain ⟨b, hb⟩ := hfamily.exists_eliminated_eq hc hk (Nat.not_lt.1 hle)
  have hmem := (h.mem_iff b).2 hb
  simp [hempty] at hmem

theorem Lists.mem_primesOf (hfamily : Cube.MergeFamily family least) (h : g.Lists family k)
    (hk : least ≤ k) :
    c ∈ (primesOf g.rounds).map (·.cube) ↔ Cube.UnmergedIn family c ∧ k ≤ c.eliminated := by
  induction g using rounds_induct generalizing k with
  | empty g hempty =>
    rw [primesOf_rounds_of_eq_nil hempty, List.map_nil]
    refine ⟨fun hmem => absurd hmem List.not_mem_nil, fun ⟨hc, hle⟩ => ?_⟩
    have hlt := h.lt_of_eq_nil hfamily hk hempty hc.mem
    omega
  | step g hne ih =>
    rw [primesOf_rounds_of_ne_nil hne, List.map_append, List.mem_append, h.mem_unmerged,
      ih (h.next hfamily hk) (by omega), ← and_or_left]
    exact and_congr_right fun _ => by omega

/-- The primes come in the order of their rounds, and each round in the order of its terms. -/
theorem Lists.pairwise_primesOf (hfamily : Cube.MergeFamily family least) (h : g.Lists family k)
    (hk : least ≤ k) : (primesOf g.rounds).Pairwise fun s t =>
      s.cube ≠ t.cube ∧ s.cube.eliminated ≤ t.cube.eliminated := by
  induction g using rounds_induct generalizing k with
  | empty g hempty => simp [primesOf_rounds_of_eq_nil hempty]
  | step g hne ih =>
    have hnext := h.next hfamily hk
    have hk' : least ≤ k + 1 := Nat.le_succ_of_le hk
    have hunmerged : ∀ t ∈ g.unmerged, t.cube.eliminated = k := fun t ht =>
      (h.mem_unmerged.1 (List.mem_map_of_mem ht)).2
    have hlater : ∀ t ∈ primesOf g.next.rounds, k + 1 ≤ t.cube.eliminated := fun t ht =>
      ((hnext.mem_primesOf hfamily hk').1 (List.mem_map_of_mem ht)).2
    rw [primesOf_rounds_of_ne_nil hne, List.pairwise_append]
    refine ⟨?_, ih hnext hk', fun s hs t ht => ?_⟩
    · have hsub : g.unmerged.Sublist g.terms := by
        rw [unmerged_eq_filter]
        exact List.filter_sublist
      have hdistinct := List.pairwise_map.1 (h.nodup.sublist (hsub.map (·.cube)))
      refine hdistinct.imp_of_mem fun hs ht hne => ⟨hne, Nat.le_of_eq ?_⟩
      rw [hunmerged _ hs, hunmerged _ ht]
    · have hs := hunmerged s hs
      have ht := hlater t ht
      refine ⟨fun heq => ?_, by omega⟩
      rw [heq] at hs
      omega

end Generation

end TwoLevel
