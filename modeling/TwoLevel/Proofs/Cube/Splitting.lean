import TwoLevel.Cube

/-!
# Splitting a cube, and merging as its inverse

A cube that is free at some bit is split there into two halves, one for each value of the bit.
The halves share the minterms of the cube out between them (`accepts_setDigit_ofBit`).

Merging joins two halves and does nothing else: two cubes merge exactly if they are the halves of
a cube, which then is the result (**`merge?_eq_some_iff_halves`**), so that the order of the two
cubes does not matter (`merge?_comm`). Most of what is said about merging needs one direction only:

* **`exists_halves_of_merge?`** — cubes that merge are halves of the result, so that their numbers
  of ones differ by one (`ones_of_merge?`).
* **`merge?_halves`** — halves merge, so that a cube merges with the one that has the other value
  at one of its fixed digits (`merge?_setDigit_not`).
-/

namespace TwoLevel.Cube

/-- The cube with another digit at one bit. -/
def setDigit (c : Cube) (bit : Nat) (d : Digit) : Cube := c.set bit d

@[simp] theorem width_setDigit (c : Cube) (bit : Nat) (d : Digit) :
    (c.setDigit bit d).width = c.width := List.length_set

theorem digit_setDigit {c : Cube} {bit : Nat} (hbit : bit < c.width) (d : Digit) (i : Nat) :
    (c.setDigit bit d).digit i = if i = bit then d else c.digit i := by
  have hlen : bit < c.length := hbit
  simp only [digit, setDigit, List.getElem?_set, hlen, if_true]
  by_cases h : bit = i
  · simp [h]
  · simp [h, Ne.symm h]

theorem digit_setDigit_self {c : Cube} {bit : Nat} (hbit : bit < c.width) (d : Digit) :
    (c.setDigit bit d).digit bit = d := by rw [digit_setDigit hbit, if_pos rfl]

@[simp] theorem setDigit_setDigit (c : Cube) (bit : Nat) (d e : Digit) :
    (c.setDigit bit d).setDigit bit e = c.setDigit bit e := List.set_set _

theorem getElem_eq_digit (cube : Cube) {bit : Nat} (hbit : bit < cube.length) :
    cube[bit] = cube.digit bit := by simp [digit, hbit]

theorem setDigit_eq_self {c : Cube} {bit : Nat} {d : Digit} (hbit : bit < c.width)
    (h : c.digit bit = d) : c.setDigit bit d = c := by
  rw [setDigit, ← h, ← getElem_eq_digit c hbit]
  exact List.set_getElem_self hbit

theorem lt_width_of_digit_ne {c : Cube} {bit : Nat} (h : c.digit bit ≠ .free) : bit < c.width :=
  Nat.lt_of_not_le fun hle => h (digit_of_width_le hle)

/-! ## Halves -/

/-- A half of a cube accepts the minterms of the cube that have its value at the bit. -/
theorem accepts_setDigit_ofBit {c : Cube} {bit : Nat} (hbit : bit < c.width)
    (hfree : c.digit bit = .free) {value : Bool} {m : Nat} :
    (c.setDigit bit (.ofBit value)).accepts m = true ↔
      c.accepts m = true ∧ m.testBit bit = value := by
  simp only [accepts_iff, digit_setDigit hbit]
  constructor
  · intro h
    have hvalue := h bit
    rw [if_pos rfl, Digit.admits_ofBit, beq_iff_eq] at hvalue
    refine ⟨fun i => ?_, hvalue.symm⟩
    by_cases hi : i = bit
    · subst hi
      rw [hfree]
      rfl
    · have hdigit := h i
      rwa [if_neg hi] at hdigit
  · rintro ⟨h, rfl⟩ i
    by_cases hi : i = bit
    · subst hi
      simp
    · rw [if_neg hi]
      exact h i

theorem mem_minterms_setDigit_ofBit {c : Cube} {bit : Nat} (hbit : bit < c.width)
    (hfree : c.digit bit = .free) {value : Bool} {m : Nat} :
    m ∈ (c.setDigit bit (.ofBit value)).minterms ↔ m ∈ c.minterms ∧ m.testBit bit = value := by
  rw [mem_minterms, mem_minterms, width_setDigit, accepts_setDigit_ofBit hbit hfree, and_assoc]

theorem mem_support_setDigit_ofBit {c : Cube} {bit : Nat} (hbit : bit < c.width) (value : Bool)
    {i : Nat} : i ∈ (c.setDigit bit (.ofBit value)).support ↔ i = bit ∨ i ∈ c.support := by
  have hfixed : Digit.ofBit value ≠ .free := Digit.ofBit_ne_free value
  rw [mem_support, mem_support, digit_setDigit hbit]
  by_cases hi : i = bit
  · simp [hi, hfixed]
  · simp [hi]

theorem accepts_setDigit_free {c : Cube} {bit m : Nat} (h : c.accepts m = true) :
    (c.setDigit bit .free).accepts m = true := by
  by_cases hbit : bit < c.width
  · rw [accepts_iff] at h ⊢
    intro i
    rw [digit_setDigit hbit]
    split
    · rfl
    · exact h i
  · rwa [setDigit, List.set_eq_of_length_le (Nat.not_lt.1 hbit)]

theorem exists_eq_ofBit {d : Digit} (h : d ≠ .free) : ∃ value, d = .ofBit value := by
  cases d with
  | zero => exact ⟨false, rfl⟩
  | one => exact ⟨true, rfl⟩
  | free => exact absurd rfl h

theorem eliminated_setDigit_ofBit {c : Cube} {bit : Nat} (hbit : bit < c.width)
    (hfree : c.digit bit = .free) (value : Bool) :
    (c.setDigit bit (.ofBit value)).eliminated + 1 = c.eliminated := by
  have hlen : bit < c.length := hbit
  have hget := (getElem_eq_digit c hlen).trans hfree
  have hpos : 0 < c.count .free := List.count_pos_iff.2 (hget ▸ List.getElem_mem hlen)
  have hne : (Digit.ofBit value == .free) = false := by cases value <;> rfl
  simp only [eliminated, setDigit, List.count_set hlen, hget, hne, beq_self_eq_true, if_true,
    Bool.false_eq_true, if_false]
  omega

theorem eliminated_setDigit_free {c : Cube} {bit : Nat} (h : c.digit bit ≠ .free) :
    (c.setDigit bit .free).eliminated = c.eliminated + 1 := by
  have hbit := lt_width_of_digit_ne h
  obtain ⟨value, hvalue⟩ := exists_eq_ofBit h
  have hhalf := eliminated_setDigit_ofBit (c := c.setDigit bit .free) (by simpa using hbit)
    (digit_setDigit_self hbit _) value
  rw [setDigit_setDigit, setDigit_eq_self hbit hvalue] at hhalf
  exact hhalf.symm

theorem literals_setDigit_free {c : Cube} {bit : Nat} (h : c.digit bit ≠ .free) :
    (c.setDigit bit .free).literals + 1 = c.literals := by
  have hfreed := literals_add_eliminated (c.setDigit bit .free)
  have hsum := literals_add_eliminated c
  rw [eliminated_setDigit_free h, width_setDigit] at hfreed
  omega

theorem ones_setDigit_ofBit {c : Cube} {bit : Nat} (hbit : bit < c.width)
    (hfree : c.digit bit = .free) (value : Bool) :
    (c.setDigit bit (.ofBit value)).ones = c.ones + value.toNat := by
  have hlen : bit < c.length := hbit
  have hget := (getElem_eq_digit c hlen).trans hfree
  have hone : (Digit.ofBit value == .one) = value := by cases value <;> rfl
  have hnone : (Digit.free == Digit.one) = false := rfl
  simp only [ones, setDigit, List.count_set hlen, hget, hone, hnone, Bool.false_eq_true, if_false]
  cases value <;> simp

theorem exists_digit_eq_free {c : Cube} (h : 0 < c.eliminated) :
    ∃ bit < c.width, c.digit bit = .free := by
  obtain ⟨bit, hbit, hget⟩ := List.mem_iff_getElem.1 (List.count_pos_iff.1 h)
  exact ⟨bit, hbit, by simp [digit, hbit, hget]⟩

/-! ## Merging -/

/-- The halves of a cube merge into it. Induction on the digits up to the bit. -/
theorem merge?_halves {c : Cube} {bit : Nat} (hbit : bit < c.width) (hfree : c.digit bit = .free)
    (value : Bool) :
    merge? (c.setDigit bit (.ofBit value)) (c.setDigit bit (.ofBit !value)) = some c := by
  induction c generalizing bit with
  | nil => simp [width] at hbit
  | cons d c ih =>
    cases bit with
    | zero =>
      rw [digit_cons_zero] at hfree
      subst hfree
      have hne : Digit.ofBit value ≠ .ofBit !value := by cases value <;> decide
      simp [setDigit, merge?, hne]
    | succ bit =>
      rw [digit_cons_succ] at hfree
      have hlt : bit < width c := by simpa [width] using hbit
      have hrest := ih hlt hfree
      simp only [setDigit, List.set_cons_succ, merge?, if_true] at hrest ⊢
      rw [hrest, Option.map_some]

/-- A cube merges with the one that has the other value at a fixed digit. -/
theorem merge?_setDigit_not {c : Cube} {bit : Nat} {value : Bool} (hbit : bit < c.width)
    (h : c.digit bit = .ofBit value) :
    merge? c (c.setDigit bit (.ofBit !value)) = some (c.setDigit bit .free) := by
  have hwidth : bit < (c.setDigit bit .free).width := by rwa [width_setDigit]
  have hmerge := merge?_halves hwidth (digit_setDigit_self hbit _) value
  rwa [setDigit_setDigit, setDigit_setDigit, setDigit_eq_self hbit h] at hmerge

/-- Only halves merge. Induction on the recursion of `merge?`. -/
theorem exists_halves_of_merge? {a b c : Cube} (h : merge? a b = some c) :
    ∃ bit value, bit < c.width ∧ c.digit bit = .free ∧ a = c.setDigit bit (.ofBit value) ∧
      b = c.setDigit bit (.ofBit !value) := by
  fun_induction merge? a b generalizing c with
  | case1 a d b ih =>
    obtain ⟨c, hc, rfl⟩ := Option.map_eq_some_iff.1 h
    obtain ⟨bit, value, hbit, hfree, rfl, rfl⟩ := ih hc
    exact ⟨bit + 1, value, by simpa [width] using hbit, by simpa using hfree, rfl, rfl⟩
  | case2 d a e b hde hab =>
    simp only [Bool.and_eq_true, decide_eq_true_eq, Digit.isFixed_iff] at hab
    obtain ⟨⟨hd, he⟩, rfl⟩ := hab
    obtain rfl := Option.some.inj h
    obtain ⟨value, rfl⟩ := exists_eq_ofBit hd
    obtain ⟨other, rfl⟩ := exists_eq_ofBit he
    have hother : other = !value := by
      cases value <;> cases other <;> simp_all
    subst hother
    exact ⟨0, value, by simp [width], rfl, rfl, rfl⟩
  | case3 => simp at h
  | case4 => simp at h

/-- **Two cubes merge exactly if they are the halves of a cube.** -/
theorem merge?_eq_some_iff_halves {a b c : Cube} :
    merge? a b = some c ↔ ∃ bit value, bit < c.width ∧ c.digit bit = .free ∧
      a = c.setDigit bit (.ofBit value) ∧ b = c.setDigit bit (.ofBit !value) := by
  refine ⟨exists_halves_of_merge?, ?_⟩
  rintro ⟨bit, value, hbit, hfree, rfl, rfl⟩
  exact merge?_halves hbit hfree value

/-- What a cube can merge into is the cube itself with one fixed digit freed. -/
theorem exists_merge?_eq_some_iff {a c : Cube} :
    (∃ b, merge? a b = some c) ↔ ∃ bit, a.digit bit ≠ .free ∧ a.setDigit bit .free = c := by
  constructor
  · rintro ⟨b, hmerge⟩
    obtain ⟨bit, value, hbit, hfree, rfl, rfl⟩ := exists_halves_of_merge? hmerge
    refine ⟨bit, ?_, ?_⟩
    · rw [digit_setDigit_self hbit]
      exact Digit.ofBit_ne_free value
    · rw [setDigit_setDigit, setDigit_eq_self hbit hfree]
  · rintro ⟨bit, hfixed, rfl⟩
    obtain ⟨value, hvalue⟩ := exists_eq_ofBit hfixed
    exact ⟨_, merge?_setDigit_not (lt_width_of_digit_ne hfixed) hvalue⟩

theorem merge?_comm (a b : Cube) : merge? a b = merge? b a := by
  have hswap : ∀ {a b c : Cube}, merge? a b = some c → merge? b a = some c := by
    intro a b c h
    rw [merge?_eq_some_iff_halves] at h ⊢
    obtain ⟨bit, value, hbit, hfree, ha, hb⟩ := h
    -- the halves change places with the other value
    exact ⟨bit, !value, hbit, hfree, hb, by rwa [Bool.not_not]⟩
  ext c
  exact ⟨hswap, hswap⟩

theorem ones_of_merge? {a b c : Cube} (h : merge? a b = some c) :
    a.ones = b.ones + 1 ∨ b.ones = a.ones + 1 := by
  obtain ⟨bit, value, hbit, hfree, rfl, rfl⟩ := exists_halves_of_merge? h
  rw [ones_setDigit_ofBit hbit hfree, ones_setDigit_ofBit hbit hfree]
  cases value with
  | false => exact Or.inr rfl
  | true => exact Or.inl rfl

@[simp] theorem merge?_self (a : Cube) : merge? a a = none := by
  cases h : merge? a a with
  | none => rfl
  | some c =>
    have hones := ones_of_merge? h
    omega

end TwoLevel.Cube
