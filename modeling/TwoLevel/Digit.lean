/-!
# Digits of a cube

A digit says what a product asks of one variable: that it be 0, that it be 1, or nothing. In a
text these are written `0`, `1` and `-`.
-/

namespace TwoLevel

/-- What a product asks of one variable. -/
inductive Digit where
  /-- The variable is 0: its literal is complemented. -/
  | zero
  /-- The variable is 1. -/
  | one
  /-- The variable does not occur. -/
  | free
  deriving DecidableEq, Repr, Inhabited

namespace Digit

/-- The digit that asks for the given value. -/
def ofBit (bit : Bool) : Digit := if bit then one else zero

/-- Does a variable of the given value agree with the digit? -/
def admits : Digit → Bool → Bool
  | zero, bit => !bit
  | one, bit => bit
  | free, _ => true

/-- Does the digit ask for a value? -/
def isFixed : Digit → Bool
  | free => false
  | _ => true

/-- The character that stands for a digit. -/
def symbol : Digit → Char
  | zero => '0'
  | one => '1'
  | free => '-'

/-- The digit that a character stands for; a free one may also be written `_`. -/
def ofSymbol? : Char → Option Digit
  | '0' => some zero
  | '1' => some one
  | '-' => some free
  | '_' => some free
  | _ => none

@[simp] theorem ofSymbol?_symbol (d : Digit) : ofSymbol? d.symbol = some d := by
  cases d <;> rfl

@[simp] theorem admits_ofBit (a b : Bool) : (ofBit a).admits b = (a == b) := by
  cases a <;> cases b <;> rfl

@[simp] theorem isFixed_zero : zero.isFixed = true := rfl

@[simp] theorem isFixed_one : one.isFixed = true := rfl

@[simp] theorem isFixed_free : free.isFixed = false := rfl

@[simp] theorem isFixed_ofBit (a : Bool) : (ofBit a).isFixed = true := by cases a <;> rfl

theorem isFixed_iff {d : Digit} : d.isFixed = true ↔ d ≠ free := by
  cases d <;> simp [isFixed]

theorem ofBit_ne_free (value : Bool) : ofBit value ≠ free := isFixed_iff.1 (isFixed_ofBit value)

end Digit

end TwoLevel
