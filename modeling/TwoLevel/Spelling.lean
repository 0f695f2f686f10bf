import TwoLevel.Cover
import TwoLevel.Names

/-!
# Expressions

A `Spelling` says how the operators and constants of an expression are written. A product is the
literals of its fixed digits, most significant first; a product without literals is the constant
1 and a sum without products the constant 0. A bit without a name is written as its number
between underscores, which is no name.
-/

namespace TwoLevel

/-- How operators and constants are written. -/
structure Spelling where
  andText : String
  orText : String
  notText : String
  /-- Does the complement mark follow its variable? -/
  notFollows : Bool
  trueText : String
  falseText : String
  deriving DecidableEq

namespace Spelling

/-- The textbook's spelling: `a.b' + c`. -/
def textbook : Spelling := ⟨".", " + ", "'", true, "1", "0"⟩

/-- A programming language's spelling: `a & !b | c`. -/
def symbolic : Spelling := ⟨" & ", " | ", "!", false, "1", "0"⟩

/-- The spelling in words: `a and not b or c`. -/
def verbal : Spelling := ⟨" and ", " or ", "not ", false, "true", "false"⟩

/-- A constant. -/
def constant (s : Spelling) (value : Bool) : String := if value then s.trueText else s.falseText

/-- A variable, complemented when its value is 0. -/
def literal (s : Spelling) (name : String) (value : Bool) : String :=
  if value then name else if s.notFollows then name ++ s.notText else s.notText ++ name

end Spelling

/-- The text that stands for the variable at a bit. -/
def Names.label (names : Names) (bit : Nat) : String :=
  (names.nameOfBit? bit).getD s!"_{bit}_"

namespace Spelling

/-- The literal of one digit, if it is fixed. -/
def literal? (s : Spelling) (names : Names) (digit : Digit) (bit : Nat) : Option String :=
  match digit with
  | .free => none
  | .one => some (s.literal (names.label bit) true)
  | .zero => some (s.literal (names.label bit) false)

/-- The literals of a cube, most significant first. -/
def literals (s : Spelling) (names : Names) (c : Cube) : List String :=
  c.zipIdx.reverse.filterMap fun (digit, bit) => s.literal? names digit bit

/-- The product of a cube's literals. -/
def product (s : Spelling) (names : Names) (c : Cube) : String :=
  if c.isFree then s.trueText else s.andText.intercalate (s.literals names c)

/-- The sum of the products of some terms. -/
def sum (s : Spelling) (names : Names) (terms : List Term) : String :=
  if terms.isEmpty then s.falseText
  else s.orText.intercalate (terms.map fun t => s.product names t.cube)

end Spelling

/--
The expression of a cover. It fails if the cover has no term, or if there is not one name for
each variable of its first term.
-/
def Cover.expression (cover : Cover) (names : Names) (s : Spelling) : Except Error String :=
  match cover.terms with
  | [] => .error .emptyCover
  | t :: ts => do
    names.checkWidth t.width
    return s.sum names (t :: ts)

end TwoLevel
