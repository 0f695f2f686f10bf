import TwoLevel.Proofs.Minimization.Optimality

/-!
# The support of a cover

The support of a cover is read off the digits of its terms. A bit outside of it makes no difference
(`Cover.accepts_flipBit`), but a bit of the support need not make one either: the terms `1` and `0`
together are the constant 1.

No bit is superfluous in a cover of prime implicants (**`Cover.mem_support_iff`**). Freeing a fixed
digit of a term lets a minterm with output 0 in. No term accepts this minterm, and the term accepts
the one that differs from it in that bit. This holds for the cover of a minimization and for all its
primes, whose sum is the function "the output is not 0" (`StagesOf.accepts_primes_iff`).
-/

namespace TwoLevel

/-! ## Flipping a bit -/

/-- The number with one bit changed. -/
def flipBit (n bit : Nat) : Nat := n ^^^ 1 <<< bit

theorem testBit_flipBit (n bit i : Nat) :
    (flipBit n bit).testBit i = (n.testBit i ^^ decide (bit = i)) := by
  rw [flipBit, Nat.testBit_xor, Nat.one_shiftLeft, Nat.testBit_two_pow]

@[simp] theorem testBit_flipBit_self (n bit : Nat) :
    (flipBit n bit).testBit bit = !n.testBit bit := by simp [testBit_flipBit]

theorem testBit_flipBit_of_ne {bit i : Nat} (h : i ≠ bit) (n : Nat) :
    (flipBit n bit).testBit i = n.testBit i := by simp [testBit_flipBit, h.symm]

theorem flipBit_lt {n bit width : Nat} (hbit : bit < width) (hn : n < mintermCount width) :
    flipBit n bit < mintermCount width := by
  refine Nat.xor_lt_two_pow hn ?_
  rw [Nat.one_shiftLeft]
  exact Nat.pow_lt_pow_right (by decide) hbit

namespace Cube

variable {c : Cube} {bit : Nat}

/-- A cube that is free at a bit does not see its value. -/
theorem accepts_flipBit (hfree : c.digit bit = .free) (n : Nat) :
    c.accepts (flipBit n bit) = c.accepts n := by
  rw [Bool.eq_iff_iff, accepts_iff, accepts_iff]
  refine forall_congr' fun i => ?_
  by_cases hi : i = bit
  · rw [hi, hfree]
    exact Iff.rfl
  · rw [testBit_flipBit_of_ne hi]

/-- What is let in by freeing a digit was refused for the value of that bit alone. -/
theorem accepts_flipBit_of_freed {n : Nat} (hfixed : c.digit bit ≠ .free)
    (hfreed : (c.setDigit bit .free).accepts n = true) (hrefused : c.accepts n = false) :
    c.accepts (flipBit n bit) = true := by
  have hbit := lt_width_of_digit_ne hfixed
  have hbit' : bit < (c.setDigit bit .free).width := by rwa [width_setDigit]
  have hfree : (c.setDigit bit .free).digit bit = .free := digit_setDigit_self hbit _
  obtain ⟨value, hvalue⟩ := exists_eq_ofBit hfixed
  -- the cube is the half of the freed one that has its value
  have hhalf : ∀ k, c.accepts k = true ↔
      (c.setDigit bit .free).accepts k = true ∧ k.testBit bit = value := by
    intro k
    rw [← accepts_setDigit_ofBit hbit' hfree, setDigit_setDigit, setDigit_eq_self hbit hvalue]
  have hne : n.testBit bit ≠ value := fun heq => by
    rw [(hhalf n).2 ⟨hfreed, heq⟩] at hrefused
    cases hrefused
  rw [hhalf, accepts_flipBit hfree, testBit_flipBit_self]
  exact ⟨hfreed, Bool.not_eq.2 hne⟩

end Cube

/-! ## Covers of prime implicants -/

namespace Cover

variable {cover : Cover} {bit : Nat}

theorem accepts_flipBit (h : bit ∉ cover.support) (n : Nat) :
    cover.accepts (flipBit n bit) = cover.accepts n := by
  rw [Bool.eq_iff_iff, accepts_iff, accepts_iff]
  refine exists_congr fun t => and_congr_right fun ht => ?_
  have hfree : t.cube.digit bit = .free := by
    by_contra hfixed
    exact h (mem_support.2 ⟨t, ht, hfixed⟩)
  rw [Term.accepts, Term.accepts, Cube.accepts_flipBit hfree]

variable {table : TruthTable} (hprime : ∀ t ∈ cover.terms, table.IsPrimeImplicant t.cube)

include hprime

theorem exists_flipBit_ne (h : bit ∈ cover.support) :
    ∃ n < table.size, cover.accepts (flipBit n bit) ≠ cover.accepts n := by
  obtain ⟨t, ht, hfixed⟩ := mem_support.1 h
  obtain ⟨n, hn, hfreed, hzero⟩ := (hprime t ht).exists_zero bit hfixed
  have hrefused : ∀ u ∈ cover.terms, u.accepts n = false := by
    intro u hu
    rw [Bool.eq_false_iff]
    exact fun haccepts => (hprime u hu).output_ne_zero n hn haccepts hzero
  have hflipped : cover.accepts (flipBit n bit) = true :=
    accepts_iff.2 ⟨t, ht, Cube.accepts_flipBit_of_freed hfixed hfreed (hrefused t ht)⟩
  have hnone : cover.accepts n = false := by
    rw [Bool.eq_false_iff, Ne, accepts_iff]
    rintro ⟨u, hu, haccepts⟩
    rw [hrefused u hu] at haccepts
    cases haccepts
  exact ⟨n, hn, by simp [hflipped, hnone]⟩

/-- **No bit is superfluous in a cover of prime implicants.** -/
theorem mem_support_iff :
    bit ∈ cover.support ↔ ∃ n < table.size, cover.accepts (flipBit n bit) ≠ cover.accepts n := by
  refine ⟨exists_flipBit_ne hprime, ?_⟩
  rintro ⟨n, -, hne⟩
  by_contra hnot
  exact hne (accepts_flipBit hnot n)

theorem lt_width_of_mem_support (h : bit ∈ cover.support) : bit < table.width := by
  obtain ⟨t, ht, hfixed⟩ := mem_support.1 h
  rw [← (hprime t ht).width_eq]
  exact Cube.lt_width_of_digit_ne hfixed

end Cover

/-! ## The two supports of a minimization -/

namespace Minimization.StagesOf

variable {m : Minimization} {table : TruthTable}

theorem mem_map_cube_primes (h : m.StagesOf table) {c : Cube} :
    c ∈ m.primes.terms.map (·.cube) ↔ table.IsPrimeImplicant c := by
  rw [primes, h.rounds_eq]
  exact TwoLevel.mem_map_cube_primes

/-- The primes together accept the rows whose output is not 0. -/
theorem accepts_primes_iff (h : m.StagesOf table) {n : Nat} (hn : n < table.size) :
    m.primes.accepts n = true ↔ table.output n ≠ .zero := by
  rw [Cover.accepts_iff]
  constructor
  · rintro ⟨t, ht, haccepts⟩
    have hprime := h.mem_map_cube_primes.1 (List.mem_map_of_mem ht)
    exact hprime.output_ne_zero n hn haccepts
  · intro hne
    obtain ⟨c, hprime, hle⟩ := ((TruthTable.isImplicant_ofIndex hn).2 hne).exists_prime
    obtain ⟨t, ht, rfl⟩ := List.mem_map.1 (h.mem_map_cube_primes.2 hprime)
    exact ⟨t, ht, hle n ((Cube.accepts_ofIndex hn hn).2 rfl)⟩

theorem mem_support_primes_iff (h : m.StagesOf table) {bit : Nat} :
    bit ∈ m.primes.support ↔ bit < table.width ∧ ∃ n < table.size,
      ¬ (table.output (flipBit n bit) ≠ .zero ↔ table.output n ≠ .zero) := by
  have hprime : ∀ t ∈ m.primes.terms, table.IsPrimeImplicant t.cube :=
    fun t ht => h.mem_map_cube_primes.1 (List.mem_map_of_mem ht)
  -- on the rows of the table the primes give the function itself
  have hvalue : bit < table.width → ∀ n < table.size,
      (m.primes.accepts (flipBit n bit) ≠ m.primes.accepts n ↔
        ¬ (table.output (flipBit n bit) ≠ .zero ↔ table.output n ≠ .zero)) := by
    intro hbit n hn
    rw [← h.accepts_primes_iff hn, ← h.accepts_primes_iff (flipBit_lt hbit hn), Ne,
      Bool.eq_iff_iff]
  constructor
  · intro hmem
    have hbit := Cover.lt_width_of_mem_support hprime hmem
    obtain ⟨n, hn, hne⟩ := Cover.exists_flipBit_ne hprime hmem
    exact ⟨hbit, n, hn, (hvalue hbit n hn).1 hne⟩
  · rintro ⟨hbit, n, hn, hne⟩
    exact (Cover.mem_support_iff hprime).2 ⟨n, hn, (hvalue hbit n hn).2 hne⟩

end Minimization.StagesOf

namespace TruthTable

/--
**The supports are the bits that matter.** A bit is in the support of the cover exactly if flipping
it changes the value of the cover on some minterm, and then it does so on a row of the table. It is
in the support of the primes exactly if flipping it takes some row with output 0 to another one or
the other way round.
-/
theorem exists_minimize_support (table : TruthTable) (h : ∃ n, table.output n = .one) :
    ∃ m, table.minimize = .ok m ∧
      (∀ bit, bit ∈ m.cover.support ↔
        ∃ n, m.cover.accepts (flipBit n bit) ≠ m.cover.accepts n) ∧
      (∀ bit ∈ m.cover.support,
        ∃ n < table.size, m.cover.accepts (flipBit n bit) ≠ m.cover.accepts n) ∧
      ∀ bit, bit ∈ m.primes.support ↔ bit < table.width ∧ ∃ n < table.size,
        ¬ (table.output (flipBit n bit) ≠ .zero ↔ table.output n ≠ .zero) := by
  obtain ⟨m, hm⟩ := exists_minimize h
  have hstages := stagesOf_of_minimize hm
  have hprime : ∀ t ∈ m.cover.terms, table.IsPrimeImplicant t.cube :=
    fun t ht => hstages.isPrimeImplicant_of_mem_cover ht
  refine ⟨m, hm, fun bit => ⟨fun hmem => ?_, ?_⟩, fun bit => Cover.exists_flipBit_ne hprime,
    fun bit => hstages.mem_support_primes_iff⟩
  · obtain ⟨n, -, hne⟩ := Cover.exists_flipBit_ne hprime hmem
    exact ⟨n, hne⟩
  · rintro ⟨n, hne⟩
    by_contra hnot
    exact hne (Cover.accepts_flipBit hnot n)

/-- The minterms 0 and 2 of two variables, and minterm 1 as a don't-care. -/
def besideDontCare : TruthTable := ⟨2, #[.one, .dontCare, .one, .zero], rfl, by decide⟩

theorem exists_minimize_support_besideDontCare :
    (∃ n, besideDontCare.output n = .one) ∧
      ∃ m, besideDontCare.minimize = .ok m ∧
        (∀ bit, bit ∈ m.cover.support ↔
          ∃ n, m.cover.accepts (flipBit n bit) ≠ m.cover.accepts n) ∧
        (∀ bit ∈ m.cover.support,
          ∃ n < besideDontCare.size, m.cover.accepts (flipBit n bit) ≠ m.cover.accepts n) ∧
        ∀ bit, bit ∈ m.primes.support ↔ bit < 2 ∧ ∃ n < besideDontCare.size,
          ¬ (besideDontCare.output (flipBit n bit) ≠ .zero ↔ besideDontCare.output n ≠ .zero) :=
  ⟨⟨0, rfl⟩, exists_minimize_support besideDontCare ⟨0, rfl⟩⟩

/-- The cover `-0` depends on one bit only, while the prime `0-` makes use of the other one. -/
example : (besideDontCare.minimize.map fun m => (m.cover.support, m.primes.support)) =
    .ok (.ofList [0], .ofList [0, 1]) := by decide +kernel

end TruthTable

end TwoLevel
