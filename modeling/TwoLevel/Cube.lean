import TwoLevel.Digit
import TwoLevel.Error
import TwoLevel.IndexSet

/-!
# Cubes

A cube is the pattern of a product: one digit for each variable, the least significant first, so
that the digit at index `i` is about bit `i` of a minterm. A cube *accepts* the minterms whose
bits agree with its fixed digits (`accepts_iff`). Texts show the most significant digit first.

Two cubes merge when they differ in one place, where both are fixed; the merged cube is free
there and accepts what either accepts (`accepts_of_merge?`).
-/

namespace TwoLevel

/-- The greatest number of variables of a pattern or a table that is read from a text. -/
def maxVariables : Nat := 20

/-- The number of minterms of `width` variables. -/
def mintermCount (width : Nat) : Nat := Nat.pow 2 width

theorem mintermCount_succ (width : Nat) : mintermCount (width + 1) = 2 * mintermCount width :=
  Nat.mul_comm _ _

theorem mintermCount_pos (width : Nat) : 0 < mintermCount width :=
  Nat.pow_pos (n := width) (by decide : 0 < 2)

/-- The digits of a product, least significant first. -/
abbrev Cube := List Digit

namespace Cube

/-- The number of variables. -/
def width (c : Cube) : Nat := c.length

/-- The digit at a bit; beyond the width all digits are free. -/
def digit (cube : Cube) (bit : Nat) : Digit := cube[bit]?.getD .free

@[simp] theorem digit_nil (bit : Nat) : digit [] bit = .free := rfl

@[simp] theorem digit_cons_zero (d : Digit) (c : Cube) : digit (d :: c) 0 = d := rfl

@[simp] theorem digit_cons_succ (d : Digit) (c : Cube) (bit : Nat) :
    digit (d :: c) (bit + 1) = digit c bit := by simp [digit]

theorem digit_of_width_le {c : Cube} {bit : Nat} (h : c.width ≤ bit) : c.digit bit = .free := by
  simp only [width] at h
  simp [digit, h]

/-! ## Counting digits -/

/-- The number of fixed digits. -/
def literals (c : Cube) : Nat := c.countP (·.isFixed)

/-- The number of digits that are fixed at 1. -/
def ones (c : Cube) : Nat := c.count .one

/-- The number of free digits. -/
def eliminated (c : Cube) : Nat := c.count .free

/-- Is every digit free? -/
def isFree (c : Cube) : Bool := c.all (· = .free)

/-- The bits at which the digit is fixed. -/
def support (c : Cube) : IndexSet :=
  (IndexSet.range c.width).filter fun bit => (c.digit bit).isFixed

theorem literals_add_eliminated (c : Cube) : c.literals + c.eliminated = c.width := by
  induction c with
  | nil => rfl
  | cons d c ih =>
    simp only [literals, eliminated, width] at ih ⊢
    cases d <;> simp [List.countP_cons] <;> omega

@[simp] theorem mem_support {c : Cube} {bit : Nat} : bit ∈ c.support ↔ c.digit bit ≠ .free := by
  simp only [support, IndexSet.mem_filter, IndexSet.mem_range, Digit.isFixed_iff]
  refine ⟨And.right, fun h => ⟨?_, h⟩⟩
  exact Nat.lt_of_not_le fun hle => h (digit_of_width_le hle)

/-! ## Minterms -/

/-- The cube of `width` fixed digits that are the lowest bits of a number. -/
def ofIndex : (width index : Nat) → Cube
  | 0, _ => []
  | width + 1, index => .ofBit (index.testBit 0) :: ofIndex width (index / 2)

@[simp] theorem width_ofIndex (w m : Nat) : (ofIndex w m).width = w := by
  induction w generalizing m with
  | zero => rfl
  | succ w ih => simpa [ofIndex, width] using ih (m / 2)

theorem digit_ofIndex {w m bit : Nat} (h : bit < w) :
    (ofIndex w m).digit bit = .ofBit (m.testBit bit) := by
  induction w generalizing m bit with
  | zero => omega
  | succ w ih =>
    cases bit with
    | zero => rfl
    | succ bit => simpa [ofIndex, Nat.testBit_succ] using ih (m := m / 2) (by omega)

/-- Do the bits of a minterm agree with the fixed digits? -/
def accepts : Cube → Nat → Bool
  | [], _ => true
  | d :: c, m => d.admits (m.testBit 0) && accepts c (m / 2)

theorem accepts_iff {c : Cube} {m : Nat} :
    c.accepts m = true ↔ ∀ bit, (c.digit bit).admits (m.testBit bit) = true := by
  induction c generalizing m with
  | nil => simp [accepts, Digit.admits]
  | cons d c ih =>
    simp only [accepts, Bool.and_eq_true, ih]
    constructor
    · rintro ⟨h0, hs⟩ bit
      cases bit with
      | zero => simpa using h0
      | succ bit => simpa [Nat.testBit_succ] using hs bit
    · intro h
      exact ⟨by simpa using h 0, fun bit => by simpa [Nat.testBit_succ] using h (bit + 1)⟩

/-- The minterms of the cube's width that it accepts. -/
def minterms (c : Cube) : IndexSet := (IndexSet.range (mintermCount c.width)).filter c.accepts

@[simp] theorem mem_minterms {c : Cube} {m : Nat} :
    m ∈ c.minterms ↔ m < mintermCount c.width ∧ c.accepts m = true := by simp [minterms]

/-! ## Comparing and merging -/

/-- The number of bits at which two cubes differ. -/
def distance : Cube → Cube → Nat
  | [], b => literals b
  | a, [] => literals a
  | d :: a, e :: b => (if d = e then 0 else 1) + distance a b

/-- Are the same bits fixed in both cubes? -/
def sameSupport (a b : Cube) : Bool := a.support = b.support

/--
The cube that is free where two cubes of one width differ, provided that they differ in one place
and are both fixed there.
-/
def merge? : Cube → Cube → Option Cube
  | d :: a, e :: b =>
    if d = e then (merge? a b).map (d :: ·)
    else if d.isFixed && e.isFixed && a = b then some (.free :: a)
    else none
  | _, _ => none

theorem width_of_merge? {a b c : Cube} (h : merge? a b = some c) :
    a.width = c.width ∧ b.width = c.width := by
  fun_induction merge? a b generalizing c with
  | case1 a d b ih =>
    obtain ⟨c, hc, rfl⟩ := Option.map_eq_some_iff.1 h
    simpa [width] using ih hc
  | case2 d a e b _ hab =>
    simp only [Bool.and_eq_true, decide_eq_true_eq] at hab
    obtain rfl := Option.some.inj h
    simp [width, hab.2]
  | case3 => simp at h
  | case4 => simp at h

theorem accepts_of_merge? {a b c : Cube} (h : merge? a b = some c) (m : Nat) :
    c.accepts m = (a.accepts m || b.accepts m) := by
  fun_induction merge? a b generalizing c m with
  | case1 a d b ih =>
    obtain ⟨c, hc, rfl⟩ := Option.map_eq_some_iff.1 h
    simp [accepts, ih hc, Bool.and_or_distrib_left]
  | case2 d a e b hde hab =>
    simp only [Bool.and_eq_true, decide_eq_true_eq] at hab
    obtain ⟨⟨hd, he⟩, rfl⟩ := hab
    obtain rfl := Option.some.inj h
    cases d <;> cases e <;> simp_all [accepts, Digit.admits, Digit.isFixed] <;>
      cases accepts a (m / 2) <;> simp [Bool.not_or_self]
  | case3 => simp at h
  | case4 => simp at h

theorem eliminated_of_merge? {a b c : Cube} (h : merge? a b = some c) :
    c.eliminated = a.eliminated + 1 ∧ c.eliminated = b.eliminated + 1 := by
  fun_induction merge? a b generalizing c with
  | case1 a d b ih =>
    obtain ⟨c, hc, rfl⟩ := Option.map_eq_some_iff.1 h
    have := ih hc
    simp only [eliminated, List.count_cons] at this ⊢
    omega
  | case2 d a e b _ hab =>
    simp only [Bool.and_eq_true, decide_eq_true_eq] at hab
    obtain ⟨⟨hd, he⟩, rfl⟩ := hab
    obtain rfl := Option.some.inj h
    rw [Digit.isFixed_iff] at hd he
    simp [eliminated, hd, he]
  | case3 => simp at h
  | case4 => simp at h

/-! ## Text -/

/-- The digits, most significant first. -/
def text (c : Cube) : String := .ofList (c.reverse.map (·.symbol))

/-- Is the character left out when a pattern is read? -/
def isIgnored (c : Char) : Bool := c = ' ' || c = '\t' || c = '\x27'

/--
Reads a pattern, most significant digit first. Spaces, tabs and single quotes are left out. A
pattern that is too long is refused before its characters are looked at.
-/
def ofText (text : String) : Except Error Cube :=
  let symbols := text.toList.filter (!isIgnored ·)
  if maxVariables < symbols.length then .error (.tooManyVariables symbols.length)
  else match symbols.mapM Digit.ofSymbol? with
    | some digits => .ok digits.reverse
    | none => .error (.invalidPattern text)

end Cube

end TwoLevel
