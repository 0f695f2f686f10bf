import TwoLevel.Sequences
import TwoLevel.Term
import TwoLevel.Text

/-!
# Truth tables

A `TruthTable` gives one `Output` for every minterm of its width: 0, 1, or unspecified. Tables
are read from a text that lists the outputs in order of the minterms (`ofText`), or built from
the minterms with output 1 and the unspecified ones (`ofIndices`).
-/

namespace TwoLevel

/-- What a function gives on one minterm. -/
inductive Output where
  | zero
  | one
  /-- Either value will do. -/
  | dontCare
  deriving DecidableEq, Repr, Inhabited

namespace Output

/-- The character written for an output. -/
def symbol : Output → Char
  | zero => '0'
  | one => '1'
  | dontCare => 'x'

/-- The output that a character stands for; an unspecified one has four spellings. -/
def ofSymbol? : Char → Option Output
  | '0' => some zero
  | '1' => some one
  | 'x' => some dontCare
  | 'X' => some dontCare
  | '-' => some dontCare
  | '*' => some dontCare
  | _ => none

@[simp] theorem ofSymbol?_symbol (o : Output) : ofSymbol? o.symbol = some o := by
  cases o <;> rfl

end Output

/-- A partial Boolean function of `width` variables: its output on each minterm, in order. -/
structure TruthTable where
  width : Nat
  outputs : Array Output
  size_outputs : outputs.size = mintermCount width
  width_le : width ≤ maxVariables
  deriving DecidableEq

namespace TruthTable

/-- The number of minterms of the table's width. -/
def size (table : TruthTable) : Nat := mintermCount table.width

/-- The output on a minterm; it is 0 beyond the table. -/
def output (table : TruthTable) (m : Nat) : Output := table.outputs[m]?.getD .zero

theorem output_of_size_le {table : TruthTable} {m : Nat} (h : table.size ≤ m) :
    table.output m = .zero := by
  have hsize : table.outputs.size ≤ m := by rw [table.size_outputs]; exact h
  simp [output, hsize]

/-! ## Reading -/

/--
Reads a table from the outputs of its rows. Blanks are left out; the number of the characters
that remain is looked at before the characters themselves.
-/
def ofText (text : String) : Except Error TruthTable :=
  let symbols := text.toList.filter (!Text.isBlank ·)
  let width := symbols.length.log2
  if hlen : symbols.length = mintermCount width then
    if hwidth : width ≤ maxVariables then
      match symbols.zipIdx.find? fun (c, _) => (Output.ofSymbol? c).isNone with
      | some (c, position) => .error (.tableSymbol c position)
      | none => .ok {
          width
          outputs := (symbols.map fun c => (Output.ofSymbol? c).getD .zero).toArray
          size_outputs := by simpa using hlen
          width_le := hwidth }
    else .error (.tooManyVariables width)
  else .error (.tableLength symbols.length)

/--
The table with output 1 on the minterms of the first list, unspecified on the others of the
second, and 0 elsewhere. The don't-cares are checked before the ones.
-/
def ofIndices (width : Nat) (ones dontCares : List Nat) : Except Error TruthTable :=
  if hwidth : width ≤ maxVariables then
    match (dontCares ++ ones).find? (mintermCount width ≤ ·) with
    | some m => .error (.mintermOutOfRange m width)
    | none => .ok {
        width
        outputs :=
          putAt (putAt (.replicate (mintermCount width) .zero) .dontCare dontCares) .one ones
        size_outputs := by simp
        width_le := hwidth }
  else .error (.tooManyVariables width)

/-! ## Minterms -/

/-- The minterms whose output is not 0. -/
def stored (table : TruthTable) : IndexSet :=
  (IndexSet.range table.size).filter fun m => table.output m ≠ .zero

/-- The minterms with output 1. -/
def required (table : TruthTable) : IndexSet :=
  (IndexSet.range table.size).filter fun m => table.output m = .one

/-- The minterms whose output is unspecified. -/
def dontCares (table : TruthTable) : IndexSet :=
  (IndexSet.range table.size).filter fun m => table.output m = .dontCare

theorem lt_size_of_output_ne {table : TruthTable} {m : Nat} (h : table.output m ≠ .zero) :
    m < table.size :=
  Nat.lt_of_not_le fun hle => h (output_of_size_le hle)

@[simp] theorem mem_stored {table : TruthTable} {m : Nat} :
    m ∈ table.stored ↔ table.output m ≠ .zero := by
  simpa [stored] using lt_size_of_output_ne

@[simp] theorem mem_required {table : TruthTable} {m : Nat} :
    m ∈ table.required ↔ table.output m = .one := by
  simpa [required] using fun h : table.output m = .one =>
    lt_size_of_output_ne (by simp [h])

@[simp] theorem mem_dontCares {table : TruthTable} {m : Nat} :
    m ∈ table.dontCares ↔ table.output m = .dontCare := by
  simpa [dontCares] using fun h : table.output m = .dontCare =>
    lt_size_of_output_ne (by simp [h])

/-- One fully fixed term for each minterm whose output is not 0. -/
def initialTerms (table : TruthTable) : List Term :=
  table.stored.toList.map (Term.ofMinterm · table.width)

/-! ## Text -/

/-- The outputs in order. -/
def text (table : TruthTable) : String := .ofList (table.outputs.toList.map (·.symbol))

/-- The minterms with output 1 and the unspecified ones, as a sum of products. -/
def sumOfProducts (table : TruthTable) : String :=
  let dontCares := table.dontCares
  "SoP(" ++ Text.joined "," table.required.toList ++ ")" ++
    if dontCares.isEmpty then "" else " + d(" ++ Text.joined "," dontCares.toList ++ ")"

end TruthTable

end TwoLevel
