import Std.Data.String.ToNat
import TwoLevel.Error
import TwoLevel.Text

/-!
# Names of variables

A `Names` value lists distinct identifiers with the most significant variable first, as an
expression reads them: of `a b c`, `a` is bit 2 of a minterm and `c` is bit 0. It is read from a
list of strings or from a text (`ofList`, `ofText`), or made up (`generic`); a list that is read
fails at the first entry that is no identifier or repeats an earlier one.

An identifier is an ASCII letter followed by letters, digits and underscores, with an optional lead
of an underscore followed by digits and underscores. So `_0_a1` is a name, while `0a`, `_` and `_0`
are none. Letters and digits outside ASCII are not admitted.
-/

namespace TwoLevel

namespace Names

/-! ## Identifiers -/

/-- An ASCII letter, a digit or an underscore. -/
def isWordChar (c : Char) : Bool := c.isAlphanum || c = '_'

/-- A digit or an underscore. -/
def isLeadChar (c : Char) : Bool := c.isDigit || c = '_'

/-- Is the text a letter followed by word characters? -/
def isPlainIdentifier : List Char → Bool
  | [] => false
  | c :: cs => c.isAlpha && cs.all isWordChar

/-- Is the text a plain identifier after an optional lead? -/
def isIdentifier : List Char → Bool
  | [] => false
  | c :: cs => if c = '_' then isPlainIdentifier (cs.dropWhile isLeadChar)
    else isPlainIdentifier (c :: cs)

theorem isIdentifier_of_isPlainIdentifier {text : List Char} (h : isPlainIdentifier text = true) :
    isIdentifier text = true := by
  cases text with
  | nil => simp [isPlainIdentifier] at h
  | cons c cs =>
    have hc : c ≠ '_' := by
      rintro rfl
      simp [isPlainIdentifier, show Char.isAlpha '_' = false by decide] at h
    simpa [isIdentifier, hc] using h

theorem isWordChar_of_isLeadChar {c : Char} (h : isLeadChar c = true) : isWordChar c = true := by
  simp only [isLeadChar, isWordChar, Char.isAlphanum, Bool.or_eq_true] at h ⊢
  exact h.imp_left .inr

theorem isWordChar_of_isAlpha {c : Char} (h : c.isAlpha = true) : isWordChar c = true := by
  simp [isWordChar, Char.isAlphanum, h]

end Names

/-! ## Lists of names -/

/-- Distinct names of variables, most significant first. -/
structure Names where
  toList : List String
  isIdentifier_of_mem : ∀ name ∈ toList, Names.isIdentifier name.toList = true
  nodup : toList.Nodup
  deriving DecidableEq

namespace Names

instance : EmptyCollection Names := ⟨⟨[], by simp, .nil⟩⟩

instance : Inhabited Names := ⟨∅⟩

@[ext]
theorem ext {x y : Names} (h : x.toList = y.toList) : x = y := by
  cases x; cases y; simp_all

/-- The number of names. -/
def size (names : Names) : Nat := names.toList.length

/-! ## Reading -/

/-- Adds a name at the end of the list. -/
def push (names : Names) (name : String) : Except Error Names :=
  if hid : isIdentifier name.toList = true then
    if hnew : name ∈ names.toList then .error (.repeatedName name)
    else .ok {
      toList := names.toList ++ [name]
      isIdentifier_of_mem := by
        intro n hn
        rcases List.mem_append.1 hn with hn | hn
        · exact names.isIdentifier_of_mem n hn
        · exact List.mem_singleton.1 hn ▸ hid
      nodup := by
        refine List.nodup_append.2 ⟨names.nodup, by simp, ?_⟩
        rintro a ha b hb rfl
        exact hnew (List.mem_singleton.1 hb ▸ ha) }
  else .error (.invalidName name)

/-- The list of the given names. -/
def ofList (names : List String) : Except Error Names := names.foldlM push ∅

/-- Does the character stand between two names of a text? -/
def isSeparator (c : Char) : Bool := Text.isBlank c || c = ',' || c = ';'

/-- The names of a text, separated by blanks, commas and semicolons. -/
def ofText (text : String) : Except Error Names :=
  ofList ((Text.words isSeparator text.toList).map String.ofList)

/-! ## Made-up names -/

/-- The lower-case letters. -/
def alphabet : List Char := "abcdefghijklmnopqrstuvwxyz".toList

/-- The letters are 26, all different. -/
theorem nodup_alphabet : alphabet.Nodup := by decide

theorem isAlpha_of_mem_alphabet : ∀ c ∈ alphabet, c.isAlpha = true :=
  List.all_eq_true.1 (by decide)

/-- The first `n` letters of the alphabet. -/
def letters (n : Nat) : Names where
  toList := (alphabet.take n).map String.singleton
  isIdentifier_of_mem := by
    intro name hname
    obtain ⟨c, hc, rfl⟩ := List.mem_map.1 hname
    apply isIdentifier_of_isPlainIdentifier
    simp [isPlainIdentifier, isAlpha_of_mem_alphabet c (List.mem_of_mem_take hc)]
  nodup := by
    refine List.Pairwise.map _ (fun c d hcd hs => hcd ?_)
      (nodup_alphabet.sublist (List.take_sublist n _))
    simpa using congrArg String.toList hs

theorem isWordChar_of_mem_toList_repr {n : Nat} : ∀ c ∈ n.repr.toList, isWordChar c = true := by
  intro c hc
  simp [isWordChar, Char.isAlphanum, Text.isDigit_of_mem_repr hc]

/-- The names `x0`, `x1`, … -/
def numbered (n : Nat) : Names where
  toList := (List.range n).map fun i => "x" ++ i.repr
  isIdentifier_of_mem := by
    intro name hname
    obtain ⟨i, -, rfl⟩ := List.mem_map.1 hname
    apply isIdentifier_of_isPlainIdentifier
    rw [String.toList_append, show "x".toList = ['x'] from rfl]
    simp only [List.singleton_append, isPlainIdentifier, Bool.and_eq_true, List.all_eq_true]
    exact ⟨by decide, isWordChar_of_mem_toList_repr⟩
  nodup := by
    refine List.Pairwise.map _ (fun i j hij hs => hij ?_) List.nodup_range
    exact Nat.repr_injective ((String.append_right_inj "x").1 hs)

/-- Names for `n` variables: letters while they last, else numbered ones. -/
def generic (n : Nat) : Names := if n ≤ alphabet.length then letters n else numbered n

@[simp] theorem size_generic (n : Nat) : (generic n).size = n := by
  unfold generic
  split
  · rename_i h
    simpa [size, letters] using Nat.min_eq_left h
  · simp [size, numbered]

/-! ## Looking up -/

/-- The name of the variable at a bit of the minterm, if there is one. -/
def nameOfBit? (names : Names) (bit : Nat) : Option String := names.toList.reverse[bit]?

theorem nameOfBit?_eq_none_iff {names : Names} {bit : Nat} :
    names.nameOfBit? bit = none ↔ names.size ≤ bit := by
  simp [nameOfBit?, size]

/-- Fails unless there is one name for each of `width` variables. -/
def checkWidth (names : Names) (width : Nat) : Except Error Unit :=
  if names.size = width then .ok () else .error (.nameCount width names.size)

theorem checkWidth_of_eq {names : Names} {width : Nat} (h : names.size = width) :
    names.checkWidth width = .ok () := if_pos h

theorem checkWidth_of_ne {names : Names} {width : Nat} (h : names.size ≠ width) :
    names.checkWidth width = .error (.nameCount width names.size) := if_neg h

/-- The names with a space between them. -/
def text (names : Names) : String := " ".intercalate names.toList

end Names

end TwoLevel
