import Mathlib.Data.List.Forall2
import TwoLevel.Term

/-!
# Reading a pattern and writing it again

Four characters stand for digits, two of them for the free one, and the others for none. A pattern
lists its digits with the most significant first, so that the symbol at some rank from the left is
about the bit that many places below the greatest one. The term of a pattern covers the minterms
whose binary digits agree with the symbols, and it is written with the same symbols, except that a
free digit has one spelling only (`exists_ofText`). Every term that is not too wide is read, up to
what it covers, from the text that is written for it (`Cube.ofText_text`).

Together with what is wrong with a text, this says for every text what reading gives
(**`Term.pattern_exact`**).
-/

namespace TwoLevel

/-! ## Symbols of digits -/

namespace Digit

/-- The characters that stand for a digit. -/
def alphabet : List Char := ['0', '1', '-', '_']

/-- The character with the other spelling of a free digit replaced. -/
def normalized (c : Char) : Char := if c = '_' then '-' else c

/-- Does the value of a variable agree with a character? Only `0` and `1` ask for a value. -/
def Agrees (c : Char) (value : Bool) : Prop := (c = '0' → value = false) ∧ (c = '1' → value = true)

instance (c : Char) (value : Bool) : Decidable (Agrees c value) :=
  inferInstanceAs (Decidable (_ ∧ _))

/-- A digit that is read from a character: how it is written, and which values it admits. -/
structure SpelledBy (d : Digit) (c : Char) : Prop where
  symbol_eq : d.symbol = normalized c
  admits_iff : ∀ value, d.admits value = true ↔ Agrees c value

theorem exists_ofSymbol? {c : Char} (h : c ∈ alphabet) :
    ∃ d, ofSymbol? c = some d ∧ d.SpelledBy c := by
  simp only [alphabet, List.mem_cons, List.not_mem_nil, or_false] at h
  rcases h with rfl | rfl | rfl | rfl
  · exact ⟨.zero, rfl, rfl, by decide⟩
  · exact ⟨.one, rfl, rfl, by decide⟩
  · exact ⟨.free, rfl, rfl, by decide⟩
  · exact ⟨.free, rfl, rfl, by decide⟩

theorem ofSymbol?_eq_none {c : Char} (h : c ∉ alphabet) : ofSymbol? c = none := by
  unfold ofSymbol?
  split
  case h_5 => rfl
  all_goals exact absurd (by decide) h

theorem isIgnored_symbol (d : Digit) : Cube.isIgnored d.symbol = false := by cases d <;> decide

theorem mapM_ofSymbol?_map_symbol (ds : List Digit) :
    (ds.map (·.symbol)).mapM ofSymbol? = some ds := by
  induction ds with
  | nil => rfl
  | cons d ds ih =>
    rw [List.map_cons, List.mapM_cons, ofSymbol?_symbol, ih]
    rfl

theorem exists_mapM_ofSymbol? {cs : List Char} (h : ∀ c ∈ cs, c ∈ alphabet) :
    ∃ ds, cs.mapM ofSymbol? = some ds ∧ List.Forall₂ SpelledBy ds cs := by
  induction cs with
  | nil => exact ⟨[], rfl, .nil⟩
  | cons c cs ih =>
    obtain ⟨hc, hcs⟩ := List.forall_mem_cons.1 h
    obtain ⟨d, hd, hspelled⟩ := exists_ofSymbol? hc
    obtain ⟨ds, hds, hall⟩ := ih hcs
    refine ⟨d :: ds, ?_, .cons hspelled hall⟩
    rw [List.mapM_cons, hd, hds]
    rfl

theorem mapM_ofSymbol?_eq_none {cs : List Char} (h : ∃ c ∈ cs, c ∉ alphabet) :
    cs.mapM ofSymbol? = none := by
  induction cs with
  | nil =>
    obtain ⟨c, hc, -⟩ := h
    cases hc
  | cons c cs ih =>
    rw [List.mapM_cons]
    by_cases hc : c ∈ alphabet
    · obtain ⟨d, hd, -⟩ := exists_ofSymbol? hc
      obtain ⟨bad, hmem, hbad⟩ := h
      have hrest : bad ∈ cs := (List.mem_cons.1 hmem).resolve_left fun heq => hbad (heq ▸ hc)
      rw [hd, ih ⟨bad, hrest, hbad⟩]
      rfl
    · rw [ofSymbol?_eq_none hc]
      rfl

end Digit

/-! ## Digits from the left -/

namespace Cube

variable {ds : List Digit} {cs : List Char} {m : Nat}

/-- The characters of a text that are not left out. -/
def symbols (text : String) : List Char := text.toList.filter (!isIgnored ·)

theorem ofText_eq (text : String) :
    ofText text =
      if maxVariables < (symbols text).length then
        .error (.tooManyVariables (symbols text).length)
      else match (symbols text).mapM Digit.ofSymbol? with
        | some digits => .ok digits.reverse
        | none => .error (.invalidPattern text) := rfl

theorem symbols_text (c : Cube) : symbols c.text = c.reverse.map (·.symbol) := by
  rw [symbols, text, String.toList_ofList, List.filter_eq_self]
  intro symbol hsymbol
  obtain ⟨d, -, rfl⟩ := List.mem_map.1 hsymbol
  rw [Digit.isIgnored_symbol, Bool.not_false]

theorem digit_reverse {rank : Nat} (h : rank < ds.length) :
    digit ds.reverse (ds.length - 1 - rank) = ds[rank] := by
  have hrank : ds.length - 1 - (ds.length - 1 - rank) = rank := by omega
  have hget : ds.reverse[ds.length - 1 - rank]? = some ds[rank] := by
    rw [List.getElem?_reverse (by omega), hrank, List.getElem?_eq_getElem h]
  rw [digit, hget, Option.getD_some]

/-- The digit at some rank from the left is about the bit that many places below the greatest. -/
theorem accepts_reverse_iff {width : Nat} (hwidth : ds.length = width) :
    accepts ds.reverse m = true ↔
      ∀ rank (h : rank < ds.length), ds[rank].admits (m.testBit (width - 1 - rank)) = true := by
  subst hwidth
  rw [accepts_iff]
  constructor
  · intro h rank hrank
    rw [← digit_reverse hrank]
    exact h _
  · intro h bit
    rcases Nat.lt_or_ge bit ds.length with hlt | hle
    · have hrank : ds.length - 1 - bit < ds.length := by omega
      have hbit : ds.length - 1 - (ds.length - 1 - bit) = bit := by omega
      have hadmits := h _ hrank
      rwa [← digit_reverse hrank, hbit] at hadmits
    · rw [digit_of_width_le (by simpa [width] using hle)]
      rfl

theorem accepts_reverse_iff_agrees (h : List.Forall₂ Digit.SpelledBy ds cs) :
    accepts ds.reverse m = true ↔
      ∀ rank (h : rank < cs.length), Digit.Agrees cs[rank] (m.testBit (cs.length - 1 - rank)) := by
  obtain ⟨hlength, hspelled⟩ := List.forall₂_iff_get.1 h
  rw [accepts_reverse_iff hlength]
  constructor
  · intro hadmits rank hrank
    exact ((hspelled rank (hlength ▸ hrank) hrank).admits_iff _).1 (hadmits rank _)
  · intro hagrees rank hrank
    exact ((hspelled rank hrank (hlength ▸ hrank)).admits_iff _).2 (hagrees rank _)

theorem map_symbol_eq (h : List.Forall₂ Digit.SpelledBy ds cs) :
    ds.map (·.symbol) = cs.map Digit.normalized := by
  induction h with
  | nil => rfl
  | cons hspelled _ ih => rw [List.map_cons, List.map_cons, hspelled.symbol_eq, ih]

theorem ofText_text {c : Cube} (h : c.width ≤ maxVariables) : ofText c.text = .ok c := by
  have hlength : ¬ maxVariables < (symbols c.text).length := by
    rw [symbols_text, List.length_map, List.length_reverse]
    exact Nat.not_lt.2 h
  rw [ofText_eq, if_neg hlength, symbols_text, Digit.mapM_ofSymbol?_map_symbol]
  exact congrArg Except.ok (List.reverse_reverse c)

end Cube

/-! ## Terms of patterns -/

namespace Term

variable {text : String}

/-- The term that a list of symbols gives: its digits, how it is written, and what it covers. -/
structure SpelledBy (t : Term) (cs : List Char) : Prop where
  width_eq : t.width = cs.length
  text_eq : t.text = .ofList (cs.map Digit.normalized)
  mem_covered_iff : ∀ m, m ∈ t.covered ↔ m < mintermCount cs.length ∧
    ∀ rank (h : rank < cs.length), Digit.Agrees cs[rank] (m.testBit (cs.length - 1 - rank))

theorem ofText_of_lt (h : maxVariables < (Cube.symbols text).length) :
    ofText text = .error (.tooManyVariables (Cube.symbols text).length) := by
  rw [ofText, Cube.ofText_eq, if_pos h]
  rfl

theorem ofText_of_not_mem (hlength : (Cube.symbols text).length ≤ maxVariables)
    (h : ∃ c ∈ Cube.symbols text, c ∉ Digit.alphabet) :
    ofText text = .error (.invalidPattern text) := by
  rw [ofText, Cube.ofText_eq, if_neg (Nat.not_lt.2 hlength), Digit.mapM_ofSymbol?_eq_none h]
  rfl

theorem exists_ofText (hlength : (Cube.symbols text).length ≤ maxVariables)
    (h : ∀ c ∈ Cube.symbols text, c ∈ Digit.alphabet) :
    ∃ t, ofText text = .ok t ∧ t.SpelledBy (Cube.symbols text) := by
  obtain ⟨ds, hds, hspelled⟩ := Digit.exists_mapM_ofSymbol? h
  have hread : ofText text = .ok (ofCube ds.reverse) := by
    rw [ofText, Cube.ofText_eq, if_neg (Nat.not_lt.2 hlength), hds]
    rfl
  have hwidth : Cube.width ds.reverse = (Cube.symbols text).length := by
    rw [Cube.width, List.length_reverse, hspelled.length_eq]
  refine ⟨_, hread, hwidth, ?_, fun m => ?_⟩
  · show String.ofList (ds.reverse.reverse.map (·.symbol)) = _
    rw [List.reverse_reverse, Cube.map_symbol_eq hspelled]
  · rw [covered_ofCube, Cube.mem_minterms, hwidth, Cube.accepts_reverse_iff_agrees hspelled]

theorem exists_ofText_text {t : Term} (h : t.width ≤ maxVariables) :
    ∃ read, ofText t.text = .ok read ∧ read.cube = t.cube := by
  refine ⟨ofCube t.cube, ?_, rfl⟩
  show (Cube.ofText t.cube.text).map ofCube = _
  rw [Cube.ofText_text h]
  rfl

/--
**What reading a pattern gives.** The number of the symbols is looked at before the symbols
themselves; without a fault the result is the term that they spell. Every term that is not too wide
is read, up to what it covers, from the text that is written for it.
-/
theorem pattern_exact (text : String) :
    (maxVariables < (Cube.symbols text).length →
        ofText text = .error (.tooManyVariables (Cube.symbols text).length)) ∧
      ((Cube.symbols text).length ≤ maxVariables →
        ((∃ c ∈ Cube.symbols text, c ∉ Digit.alphabet) →
          ofText text = .error (.invalidPattern text)) ∧
        ((∀ c ∈ Cube.symbols text, c ∈ Digit.alphabet) →
          ∃ t, ofText text = .ok t ∧ t.SpelledBy (Cube.symbols text))) ∧
      ∀ t : Term, t.width ≤ maxVariables → ∃ read, ofText t.text = .ok read ∧ read.cube = t.cube :=
  ⟨ofText_of_lt, fun hlength => ⟨ofText_of_not_mem hlength, exists_ofText hlength⟩,
    fun _ => exists_ofText_text⟩

/-- Blanks and quotes are left out; the symbols are about the bits 3 to 0. -/
example : (ofText "1 _0'1").toOption.map (fun t => (t.text, t.covered.toList)) =
    some ("1-01", [9, 13]) := by decide +kernel

end Term

end TwoLevel
