/-!
# Texts

What the formats that are read and written have in common.

* Blank characters are those with the Unicode property `White_Space`. Truth tables ignore them,
  lists of names are separated by them, and a line that is read loses them at both ends.
* The words of a text are its longest parts without a separator, of which none is empty.
* Numbers are joined by a separator, and texts are centred in a field. Widths count characters.
-/

namespace TwoLevel.Text

/-! ## Blank characters -/

/-- The ranges of code points with the property `White_Space`, both ends included. -/
def blankRanges : List (Nat × Nat) :=
  [(0x0009, 0x000D), (0x0020, 0x0020), (0x0085, 0x0085), (0x00A0, 0x00A0), (0x1680, 0x1680),
   (0x2000, 0x200A), (0x2028, 0x2029), (0x202F, 0x202F), (0x205F, 0x205F), (0x3000, 0x3000)]

/-- The ranges are apart from each other, and there are 25 characters in them. -/
example : (blankRanges.Pairwise fun r s => r.2 < s.1) ∧
    (blankRanges.map fun (first, last) => last + 1 - first).sum = 25 := by decide

/-- Does the character have the property `White_Space`? -/
def isBlank (c : Char) : Bool :=
  blankRanges.any fun (first, last) => first ≤ c.toNat && c.toNat ≤ last

/-- The text without the blank characters at its two ends. -/
def trim (text : String) : String :=
  .ofList (((text.toList.dropWhile isBlank).reverse.dropWhile isBlank).reverse)

/-! ## Words -/

/-- The parts of a text between its separators, without the empty ones. -/
def words (isSeparator : Char → Bool) (text : List Char) : List (List Char) :=
  (text.splitOnP isSeparator).filter (· ≠ [])

/-! ## Laying out numbers and texts -/

/-- The decimal forms of some numbers with a separator between them. -/
def joined (separator : String) (numbers : List Nat) : String :=
  separator.intercalate (numbers.map toString)

theorem isDigit_of_mem_repr {n : Nat} {c : Char} (h : c ∈ n.repr.toList) : c.isDigit = true := by
  rw [Nat.toList_repr] at h
  exact Nat.isDigit_of_mem_toDigits (by decide) (by decide) h

/-- A list of numbers in square brackets. -/
def bracketed (numbers : List Nat) : String := "[" ++ joined ", " numbers ++ "]"

/-- A set of numbers in braces, with a space inside each brace. -/
def braced (numbers : List Nat) : String := "\x7b " ++ joined ", " numbers ++ " \x7d"

/-- `n` spaces. -/
def spaces (n : Nat) : String := .ofList (.replicate n ' ')

@[simp] theorem length_spaces (n : Nat) : (spaces n).length = n := by simp [spaces]

/--
A text in the middle of a field of `width` characters. Of an odd number of spaces the greater
half goes to the right; a text that is wider than the field is not cut.
-/
def centred (width : Nat) (text : String) : String :=
  let blank := width - text.length
  spaces (blank / 2) ++ text ++ spaces (blank - blank / 2)

theorem length_centred (width : Nat) (text : String) :
    (centred width text).length = max width text.length := by
  simp [centred]
  omega

end TwoLevel.Text
