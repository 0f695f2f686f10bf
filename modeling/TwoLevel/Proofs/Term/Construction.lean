import TwoLevel.Proofs.Cube.Counting
import TwoLevel.Proofs.Generation.Completeness

/-!
# Terms that can be built

`Term.Built` holds of the terms that come from minterms and patterns by merging and by collecting,
which is where terms of one cube absorb each other. It says which minterms were used to start from,
as the covered set is right only if these exist at the width of their terms.

* **`Built.accepts_of_mem_covered`** — a built term covers nothing that its cube does not accept.
* **`Built.exact`** — it covers all that its cube accepts if all minterms used are in range.
* **`Built.wellFormed`** — both, with what holds of the bits and the numbers of minterms.
* **`built_of_mem_primes`** — the primes that the merge process finds for built terms are built. So
  those of a table are exact (`exact_of_mem_primes`).
-/

namespace TwoLevel

namespace Term

/-- The terms built from patterns and from the minterms that are usable at a width. -/
inductive Built (usable : Nat → Nat → Prop) : Term → Prop where
  | minterm {index width : Nat} (h : usable index width) : Built usable (ofMinterm index width)
  | pattern {text : String} {t : Term} (h : ofText text = .ok t) : Built usable t
  | merge {a b t : Term} (ha : Built usable a) (hb : Built usable b) (h : a.merge? b = some t) :
      Built usable t
  | collect {ts : List Term} {t : Term} (hts : ∀ s ∈ ts, Built usable s) (h : t ∈ collect ts) :
      Built usable t

variable {usable : Nat → Nat → Prop} {t : Term}

theorem exists_eq_ofCube_of_ofText {text : String} (h : ofText text = .ok t) :
    ∃ c, t = ofCube c := by
  unfold ofText at h
  cases hc : Cube.ofText text with
  | error e => rw [hc] at h; cases h
  | ok c => rw [hc] at h; cases h; exact ⟨c, rfl⟩

/-! ## Covered sets -/

theorem accepts_ofMinterm (index width : Nat) : (ofMinterm index width).accepts index = true := by
  show (Cube.ofIndex width index).accepts index = true
  rw [Cube.accepts_iff]
  intro bit
  by_cases hbit : bit < width
  · rw [Cube.digit_ofIndex hbit, Digit.admits_ofBit]
    simp
  · -- bits beyond the width are free, so an index out of range is accepted as well
    rw [Cube.digit_of_width_le (by rw [Cube.width_ofIndex]; omega)]
    rfl

/-- **A built term covers minterms that its cube accepts.** One case for each way to build it. -/
theorem Built.accepts_of_mem_covered (h : Built usable t) :
    ∀ m ∈ t.covered, t.accepts m = true := by
  induction h with
  | @minterm index width _ =>
    intro m hm
    rw [covered_ofMinterm, IndexSet.mem_singleton] at hm
    rw [hm]
    exact accepts_ofMinterm index width
  | pattern h =>
    obtain ⟨c, rfl⟩ := exists_eq_ofCube_of_ofText h
    intro m hm
    exact (Cube.mem_minterms.1 hm).2
  | @merge a b t _ _ h iha ihb =>
    have hunites := unites_of_merge? h
    intro m hm
    rw [hunites.accepts_iff]
    exact ((hunites.mem_covered_iff m).1 hm).imp (iha m) (ihb m)
  | @collect ts t _ h ih =>
    intro m hm
    obtain ⟨s, hs, hcube, hmem⟩ := (mem_covered_of_mem_collect h).1 hm
    have haccepts := ih s hs m hmem
    show t.cube.accepts m = true
    rwa [← hcube]

/-- **Minterms in range give exact terms.** -/
theorem Built.exact (h : Built usable t)
    (hrange : ∀ index width, usable index width → index < mintermCount width) : t.Exact := by
  induction h with
  | minterm h => exact exact_ofMinterm (hrange _ _ h)
  | pattern h =>
    obtain ⟨c, rfl⟩ := exists_eq_ofCube_of_ofText h
    exact exact_ofCube c
  | merge _ _ h iha ihb => exact iha.merge? ihb h
  | collect _ h ih => exact exact_of_mem_collect ih h

/-! ## The invariant -/

/-- The bits of a term are in place, and it covers nothing that its cube does not accept. -/
structure WellFormed (t : Term) : Prop where
  disjoint : ∀ bit ∈ t.cube.fixedAt true, bit ∉ t.cube.fixedAt false
  lt_width : ∀ value, ∀ bit ∈ t.cube.fixedAt value, bit < t.width
  size_add : (t.cube.fixedAt true).size + (t.cube.fixedAt false).size + t.cube.eliminated = t.width
  accepts_of_mem : ∀ m ∈ t.covered, t.accepts m = true

/--
**What holds of every term that can be built.** Whatever minterms it was built from, it is well
formed. If these were all in range, it covers exactly the minterms of its width that its cube
accepts, and these are two to the number of its free digits.
-/
theorem Built.wellFormed (h : Built usable t) :
    t.WellFormed ∧
      ((∀ index width, usable index width → index < mintermCount width) →
        (∀ m, m ∈ t.covered ↔ m < mintermCount t.width ∧ t.accepts m = true) ∧
          t.covered.size = mintermCount t.cube.eliminated) := by
  refine ⟨⟨fun bit hbit => Cube.not_mem_fixedAt_not hbit,
    fun value bit hbit => Cube.lt_width_of_mem_fixedAt hbit, Cube.size_fixedAt_add t.cube,
    h.accepts_of_mem_covered⟩, fun hrange => ?_⟩
  have hexact := h.exact hrange
  unfold Exact at hexact
  constructor
  · intro m
    rw [hexact, Cube.mem_minterms]
    rfl
  · rw [hexact, Cube.size_minterms]

/-- The pattern `1--`, merged from `10-`, which comes from two minterms, and from the text `11-`. -/
def upperHalf : Term := ⟨[.free, .free, .one], .ofList [4, 5, 6, 7]⟩

theorem built_upperHalf : upperHalf.Built fun index width => index < mintermCount width := by
  have hfour : (ofMinterm 4 3).Built fun index width => index < mintermCount width :=
    .minterm (by decide)
  have hfive : (ofMinterm 5 3).Built fun index width => index < mintermCount width :=
    .minterm (by decide)
  have hlow : Term.Built (fun index width => index < mintermCount width)
      ⟨[.free, .zero, .one], .ofList [4, 5]⟩ := .merge hfour hfive (by decide +kernel)
  have hhigh : (ofCube [.free, .one, .one]).Built fun index width => index < mintermCount width :=
    .pattern (show ofText "11-" = _ by decide +kernel)
  exact .merge hlow hhigh (by decide +kernel)

theorem Built.wellFormed_upperHalf :
    (upperHalf.Built fun index width => index < mintermCount width) ∧ upperHalf.WellFormed ∧
      (∀ m, m ∈ upperHalf.covered ↔ m < 8 ∧ upperHalf.accepts m = true) ∧
      upperHalf.covered.size = 4 := by
  obtain ⟨hwell, hexact⟩ := Built.wellFormed built_upperHalf
  exact ⟨built_upperHalf, hwell, hexact fun _ _ hrange => hrange⟩

end Term

/-! ## The merge process -/

variable {usable : Nat → Nat → Prop} {g : Generation}

theorem Generation.built_of_mem_next (h : ∀ t ∈ g.terms, t.Built usable) :
    ∀ t ∈ g.next.terms, t.Built usable := by
  intro t ht
  apply Term.Built.collect _ ht
  intro s hs
  obtain ⟨m, hm, rfl⟩ := List.mem_map.1 hs
  obtain ⟨a, ha, b, hb, hmerge⟩ := exists_of_mem_merges hm
  exact .merge (h a ha) (h b hb) hmerge

theorem built_of_mem_primes {ts : List Term} (h : ∀ t ∈ ts, t.Built usable) :
    ∀ t ∈ primes ts, t.Built usable :=
  Generation.forall_mem_primesOf (fun _ => Generation.built_of_mem_next)
    fun _ ht => .collect h ht

theorem exact_of_mem_primes {table : TruthTable} {t : Term} (h : t ∈ primes table.initialTerms) :
    t.Exact := by
  have hbuilt : ∀ s ∈ table.initialTerms,
      s.Built fun index width => index < mintermCount width := by
    intro s hs
    obtain ⟨m, hm, rfl⟩ := List.mem_map.1 hs
    exact .minterm (TruthTable.lt_size_of_output_ne (TruthTable.mem_stored.1 hm))
  exact (built_of_mem_primes hbuilt t h).exact fun _ _ hrange => hrange

end TwoLevel
