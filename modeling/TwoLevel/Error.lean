import TwoLevel.Text

/-!
# Errors

What can be wrong with a truth table, a pattern, a list of names or a cover. Each constructor is
one cause; `Error.message` is the text shown for it.
-/

namespace TwoLevel

/-- A reason why a text is not read or a function is not minimized. -/
inductive Error where
  /-- The length of a truth table is not a power of two. -/
  | tableLength (length : Nat)
  /-- A truth table holds a character that is no output. -/
  | tableSymbol (symbol : Char) (position : Nat)
  /-- A listed minterm is not a row of the table. -/
  | mintermOutOfRange (minterm width : Nat)
  /-- A table or a pattern has more variables than are supported. -/
  | tooManyVariables (width : Nat)
  /-- There are more or fewer names than variables. -/
  | nameCount (expected found : Nat)
  /-- A name is no identifier. -/
  | invalidName (name : String)
  /-- A name occurs a second time. -/
  | repeatedName (name : String)
  /-- A pattern holds a character that is no digit. -/
  | invalidPattern (text : String)
  /-- No row of the table has output 1. -/
  | emptyFunction
  /-- A cover without terms has no expression. -/
  | emptyCover
  /-- No choice of rows covers these minterms. -/
  | uncovered (minterms : List Nat)
  deriving DecidableEq, Repr

/-- The text that describes an error. -/
def Error.message : Error → String
  | .tableLength length =>
    s!"A truth table of length {length} is invalid: the length must be a power of two"
  | .tableSymbol symbol position =>
    s!"Invalid character '{symbol}' at position {position} of the truth table"
  | .mintermOutOfRange minterm width =>
    s!"The minterm {minterm} does not exist in a function of {width} variables"
  | .tooManyVariables width => s!"Functions of {width} variables are not supported"
  | .nameCount expected found => s!"Expected {expected} variable names, found {found}"
  | .invalidName name => s!"The name '{name}' is invalid"
  | .repeatedName name => s!"The name '{name}' conflicts with an other variable"
  | .invalidPattern text => s!"Not a valid pattern: '{text}'"
  | .emptyFunction => "The function has no minterm to cover"
  | .emptyCover => "Can not render an empty cover"
  | .uncovered minterms => s!"The cover leaves the minterms {Text.bracketed minterms} uncovered"

end TwoLevel
