import TwoLevel.Chart.Drawing
import TwoLevel.Generation.Rounds
import TwoLevel.Proofs.Text.Lines
import TwoLevel.TruthTable

/-!
# Aligned drawings

Each line of a drawing is a label and one field for each column, and the fields of a column stand
one below the other. The widths of the fields are those of the labels and the minterms, so that
labels, minterms and cells fit into them; the numbers of marks in the last line need not. A drawing
is flush exactly if they do (**`flush_iff_countsFit`**), and then the minterm, the cells and the
number of marks of each column start at the same place. A minterm below ten has a field of one
character when all others are below ten as well: ten rows that mark it move the last line out of
place.
-/

namespace TwoLevel.Chart

variable {chart : Chart}

/-! ## Lines and their fields -/

/-- What a line of a drawing is made of: a label and a text for each column. -/
structure Line where
  label : String
  cells : List String

/-- The texts of a line, each in its field, without the line break. -/
def Line.fields (chart : Chart) (line : Line) : String :=
  Text.centred chart.labelWidth line.label ++
    .join (line.cells.map fun cell => " " ++ Text.centred chart.columnWidth cell)

/-- Where the field of a column starts in a line. -/
def offset (chart : Chart) (col : Nat) : Nat :=
  chart.labelWidth + col * (chart.columnWidth + 1) + 1

/-- What a line holds in the field of a column. -/
def field (chart : Chart) (line : List Char) (col : Nat) : List Char :=
  (line.drop (chart.offset col)).take chart.columnWidth

/-- The number of characters of a line whose texts fit into their fields. -/
def lineWidth (chart : Chart) : Nat :=
  chart.labelWidth + chart.columnCount * (chart.columnWidth + 1)

/-- The line has a text for each column, and its label fits. -/
structure Line.Regular (line : Line) (chart : Chart) : Prop where
  length_label_le : line.label.length ≤ chart.labelWidth
  length_cells : line.cells.length = chart.columnCount
  newline_not_mem_label : '\n' ∉ line.label.toList
  newline_not_mem_cells : ∀ cell ∈ line.cells, '\n' ∉ cell.toList

namespace Line

variable {line : Line}

/-- By how much the texts are too wide for their fields, all in all. -/
def excess (chart : Chart) : List String → Nat
  | [] => 0
  | cell :: cells => (cell.length - chart.columnWidth) + excess chart cells

theorem excess_eq_zero_iff {cells : List String} :
    excess chart cells = 0 ↔ ∀ cell ∈ cells, cell.length ≤ chart.columnWidth := by
  induction cells with
  | nil => simp [excess]
  | cons cell cells ih =>
    rw [excess, Nat.add_eq_zero_iff, Nat.sub_eq_zero_iff_le, ih, List.forall_mem_cons]

theorem length_join_cells (chart : Chart) (cells : List String) :
    (String.join (cells.map fun cell => " " ++ Text.centred chart.columnWidth cell)).length =
      cells.length * (chart.columnWidth + 1) + excess chart cells := by
  induction cells with
  | nil => simp [excess]
  | cons cell cells ih =>
    rw [List.map_cons, String.join_cons, String.length_append, String.length_append,
      Text.length_centred, ih, List.length_cons, Nat.succ_mul, excess]
    show 1 + max chart.columnWidth cell.length + _ = _
    omega

/-- Each text that is too wide for its field makes the line so much longer. -/
theorem length_fields (h : line.Regular chart) :
    (line.fields chart).length = chart.lineWidth + excess chart line.cells := by
  rw [fields, String.length_append, Text.length_centred, Nat.max_eq_left h.length_label_le,
    length_join_cells, h.length_cells, lineWidth, Nat.add_assoc]

theorem length_fields_eq_iff (h : line.Regular chart) :
    (line.fields chart).length = chart.lineWidth ↔
      ∀ cell ∈ line.cells, cell.length ≤ chart.columnWidth := by
  rw [length_fields h, Nat.add_eq_left, excess_eq_zero_iff]

/-- Blocks of one length are skipped as a whole. -/
theorem drop_flatMap_of_length {α : Type} {block : α → List Char} {n : Nat} {xs : List α}
    (h : ∀ x ∈ xs, (block x).length = n) (i : Nat) :
    (xs.flatMap block).drop (i * n) = (xs.drop i).flatMap block := by
  induction i generalizing xs with
  | zero => simp
  | succ i ih =>
    cases xs with
    | nil => simp
    | cons x xs =>
      obtain ⟨hx, hxs⟩ := List.forall_mem_cons.1 h
      rw [List.flatMap_cons, Nat.succ_mul, Nat.add_comm, ← List.drop_drop, List.drop_left' hx,
        ih hxs, List.drop_succ_cons]

/-- If the texts of a line fit, each of them is found in its field. -/
theorem field_fields (h : line.Regular chart)
    (hcells : ∀ cell ∈ line.cells, cell.length ≤ chart.columnWidth) {col : Nat} {cell : String}
    (hcell : line.cells[col]? = some cell) :
    chart.field (line.fields chart).toList col =
      (Text.centred chart.columnWidth cell).toList := by
  have hlength : ∀ text ∈ line.cells,
      (Text.centred chart.columnWidth text).toList.length = chart.columnWidth := by
    intro text htext
    rw [String.length_toList, Text.length_centred, Nat.max_eq_left (hcells text htext)]
  have hlead : (Text.centred chart.labelWidth line.label).toList.length = chart.labelWidth := by
    rw [String.length_toList, Text.length_centred, Nat.max_eq_left h.length_label_le]
  let block := fun cell => ' ' :: (Text.centred chart.columnWidth cell).toList
  have hfields : (line.fields chart).toList =
      (Text.centred chart.labelWidth line.label).toList ++ line.cells.flatMap block := by
    simp only [fields, String.toList_append, String.toList_join, List.flatMap_map]
    rfl
  have hblock : ∀ cell ∈ line.cells, (block cell).length = chart.columnWidth + 1 :=
    fun cell hcell => congrArg (· + 1) (hlength cell hcell)
  obtain ⟨hcol, hget⟩ := List.getElem?_eq_some_iff.1 hcell
  have hrest : line.cells.drop col = cell :: line.cells.drop (col + 1) := by
    rw [List.drop_eq_getElem_cons hcol, hget]
  rw [field, offset, hfields, ← List.drop_drop, ← List.drop_drop, List.drop_left' hlead,
    drop_flatMap_of_length hblock, hrest, List.flatMap_cons]
  exact List.take_left' (hlength cell (List.mem_of_getElem? hcell))

theorem newline_not_mem_centred {width : Nat} {text : String} (h : '\n' ∉ text.toList) :
    '\n' ∉ (Text.centred width text).toList := by
  simp [Text.centred, Text.spaces, h]

theorem newline_not_mem_fields (h : line.Regular chart) :
    '\n' ∉ (line.fields chart).toList := by
  rw [fields, String.toList_append, String.toList_join, List.mem_append, not_or]
  refine ⟨newline_not_mem_centred h.newline_not_mem_label, fun hmem => ?_⟩
  obtain ⟨text, htext, hmem⟩ := List.mem_flatMap.1 hmem
  obtain ⟨cell, hcell, rfl⟩ := List.mem_map.1 htext
  rw [String.toList_append, List.mem_append] at hmem
  rcases hmem with hspace | hmem
  · revert hspace
    decide
  · exact newline_not_mem_centred (h.newline_not_mem_cells cell hcell) hmem

end Line

/-! ## The lines of a drawing -/

/-- The line of the minterms. -/
def headerLine (chart : Chart) : Line := ⟨"", chart.minterms.toList.map (·.repr)⟩

/-- The line of a row. -/
def rowLine (chart : Chart) (cell : Nat → Nat → Char) (row : Nat) (t : Term) : Line :=
  ⟨t.text, (List.range chart.columnCount).map fun col => (cell row col).toString⟩

/-- The line of the numbers of marks. -/
def countLine (chart : Chart) : Line :=
  ⟨usageLabel, (List.range chart.columnCount).map fun col => (chart.usage col).repr⟩

/-- All lines of a drawing. -/
def linesDrawn (chart : Chart) (cell : Nat → Nat → Char) : List Line :=
  chart.headerLine :: (chart.terms.toList.mapIdx (chart.rowLine cell) ++ [chart.countLine])

theorem drawWith_eq (chart : Chart) (cell : Nat → Nat → Char) :
    chart.drawWith cell =
      .join (((chart.linesDrawn cell).map (Line.fields chart)).map (· ++ "\n")) := by
  have hrows : (chart.terms.toList.mapIdx fun row t => chart.line t.text
        ((List.range chart.columnCount).map fun col => (cell row col).toString)) =
      (chart.terms.toList.mapIdx (chart.rowLine cell)).map
        fun line => chart.line line.label line.cells := by
    refine List.ext_getElem? fun row => ?_
    simp [rowLine, List.getElem?_mapIdx, Function.comp_def]
  rw [List.map_map]
  show chart.drawWith cell =
    .join ((chart.linesDrawn cell).map fun line => chart.line line.label line.cells)
  simp only [drawWith, hrows, linesDrawn, headerLine, countLine, List.map_cons, List.map_append,
    List.map_nil, String.join_cons, String.join_append, String.join_nil, String.append_empty,
    String.append_assoc]

/-! ### Which texts fit -/

theorem newline_not_mem_repr (n : Nat) : '\n' ∉ n.repr.toList := by
  intro hmem
  have hdigit := Text.isDigit_of_mem_repr hmem
  revert hdigit
  decide

theorem length_repr_le_columnWidth {m : Nat} (h : m ∈ chart.minterms.toList) :
    m.repr.length ≤ chart.columnWidth :=
  List.le_max?_getD_of_mem (List.mem_map_of_mem h)

theorem columnWidth_pos (chart : Chart) : 0 < chart.columnWidth := by
  cases hminterms : chart.minterms.toList with
  | nil => simp [columnWidth, hminterms]
  | cons m ms =>
    exact Nat.lt_of_lt_of_le Nat.length_repr_pos
      (length_repr_le_columnWidth (hminterms ▸ List.mem_cons_self))

theorem regular_headerLine (chart : Chart) : chart.headerLine.Regular chart where
  length_label_le := Nat.zero_le _
  length_cells := List.length_map _
  newline_not_mem_label := List.not_mem_nil
  newline_not_mem_cells := List.forall_mem_map.2 fun m _ => newline_not_mem_repr m

theorem regular_countLine (chart : Chart) : chart.countLine.Regular chart where
  length_label_le := Nat.le_max_right _ _
  length_cells := (List.length_map _).trans List.length_range
  newline_not_mem_label := (by decide : '\n' ∉ usageLabel.toList)
  newline_not_mem_cells := List.forall_mem_map.2 fun col _ => newline_not_mem_repr _

theorem length_le_of_mem_headerLine :
    ∀ text ∈ chart.headerLine.cells, text.length ≤ chart.columnWidth :=
  List.forall_mem_map.2 fun _ hm => length_repr_le_columnWidth hm

/-- Do the numbers of marks fit into the fields of their columns? -/
def CountsFit (chart : Chart) : Prop :=
  ∀ col < chart.columnCount, (chart.usage col).repr.length ≤ chart.columnWidth

theorem countsFit_iff :
    chart.CountsFit ↔ ∀ text ∈ chart.countLine.cells, text.length ≤ chart.columnWidth := by
  rw [CountsFit, countLine, List.forall_mem_map]
  exact forall_congr' fun col => by rw [List.mem_range]

section

variable {cell : Nat → Nat → Char}

theorem regular_rowLine (hcell : ∀ row col, cell row col ≠ '\n') {row : Nat} {t : Term}
    (ht : t ∈ chart.terms.toList) : (chart.rowLine cell row t).Regular chart where
  length_label_le := by
    have hlength : t.text.length = t.width := by
      simp [Term.text, Cube.text, Term.width, Cube.width]
    have hwidth : t.width ≤ chart.labelWidth :=
      Nat.le_trans (List.le_max?_getD_of_mem (List.mem_map_of_mem ht)) (Nat.le_max_left _ _)
    exact hlength ▸ hwidth
  length_cells := (List.length_map _).trans List.length_range
  newline_not_mem_label := by
    have hsymbol : ∀ d : Digit, d.symbol ≠ '\n' := by
      intro d
      cases d <;> decide
    simpa [rowLine, Term.text, Cube.text] using fun d _ => hsymbol d
  newline_not_mem_cells := List.forall_mem_map.2 fun col _ => by
    simpa using (hcell row col).symm

theorem length_le_of_mem_rowLine {row : Nat} {t : Term} :
    ∀ text ∈ (chart.rowLine cell row t).cells, text.length ≤ chart.columnWidth :=
  List.forall_mem_map.2 fun col _ => by
    rw [show (cell row col).toString.length = 1 by simp]
    exact chart.columnWidth_pos

theorem regular_of_mem_linesDrawn (hcell : ∀ row col, cell row col ≠ '\n') {line : Line}
    (h : line ∈ chart.linesDrawn cell) : line.Regular chart := by
  rw [linesDrawn, List.mem_cons, List.mem_append, List.mem_singleton, List.mem_mapIdx] at h
  rcases h with rfl | ⟨row, hrow, rfl⟩ | rfl
  · exact chart.regular_headerLine
  · exact regular_rowLine hcell (List.getElem_mem hrow)
  · exact chart.regular_countLine

theorem length_le_of_mem_linesDrawn (hfit : chart.CountsFit) {line : Line}
    (h : line ∈ chart.linesDrawn cell) : ∀ text ∈ line.cells, text.length ≤ chart.columnWidth := by
  rw [linesDrawn, List.mem_cons, List.mem_append, List.mem_singleton, List.mem_mapIdx] at h
  rcases h with rfl | ⟨row, hrow, rfl⟩ | rfl
  · exact length_le_of_mem_headerLine
  · exact length_le_of_mem_rowLine
  · exact countsFit_iff.1 hfit

/-- The lines of a drawing are found again in its text. -/
theorem linesOf_drawWith (hcell : ∀ row col, cell row col ≠ '\n') :
    Text.linesOf (chart.drawWith cell) =
      (chart.linesDrawn cell).map fun line => (line.fields chart).toList := by
  rw [drawWith_eq, Text.linesOf_join, List.map_map]
  · rfl
  · rw [List.forall_mem_map]
    exact fun line hline => Line.newline_not_mem_fields (regular_of_mem_linesDrawn hcell hline)

/-- Only the last line can be longer than the others. -/
theorem flush_drawWith_iff (hcell : ∀ row col, cell row col ≠ '\n') :
    Text.Flush (chart.drawWith cell) ↔ chart.CountsFit := by
  have hlength : ∀ {line : Line}, line ∈ chart.linesDrawn cell →
      ((line.fields chart).toList.length = chart.lineWidth ↔
        ∀ text ∈ line.cells, text.length ≤ chart.columnWidth) := by
    intro line hline
    rw [String.length_toList]
    exact Line.length_fields_eq_iff (regular_of_mem_linesDrawn hcell hline)
  rw [Text.Flush, linesOf_drawWith hcell]
  simp only [List.forall_mem_map]
  constructor
  · rintro ⟨length, hlines⟩
    -- the line of the minterms tells how long the others are
    have hheader : chart.headerLine ∈ chart.linesDrawn cell := List.mem_cons_self
    have hcount : chart.countLine ∈ chart.linesDrawn cell := by simp [linesDrawn]
    have hwidth : length = chart.lineWidth :=
      (hlines _ hheader).symm.trans ((hlength hheader).2 length_le_of_mem_headerLine)
    exact countsFit_iff.2 ((hlength hcount).1 ((hlines _ hcount).trans hwidth))
  · intro hfit
    exact ⟨chart.lineWidth, fun line hline =>
      (hlength hline).2 (length_le_of_mem_linesDrawn hfit hline)⟩

/-! ### Where the texts stand -/

theorem length_linesOf_drawWith (hcell : ∀ row col, cell row col ≠ '\n') :
    (Text.linesOf (chart.drawWith cell)).length = chart.rowCount + 2 := by
  rw [linesOf_drawWith hcell, linesDrawn]
  simp [rowCount]

theorem getElem?_linesOf_header (hcell : ∀ row col, cell row col ≠ '\n') :
    (Text.linesOf (chart.drawWith cell))[0]? = some (chart.headerLine.fields chart).toList := by
  rw [linesOf_drawWith hcell]
  rfl

theorem getElem?_linesOf_row (hcell : ∀ row col, cell row col ≠ '\n') {row : Nat} {t : Term}
    (ht : chart.term? row = some t) :
    (Text.linesOf (chart.drawWith cell))[row + 1]? =
      some ((chart.rowLine cell row t).fields chart).toList := by
  have hget : chart.terms.toList[row]? = some t := by rwa [Array.getElem?_toList]
  have hrow : row < chart.terms.toList.length := (List.getElem?_eq_some_iff.1 hget).1
  rw [linesOf_drawWith hcell, linesDrawn, List.getElem?_map, List.getElem?_cons_succ,
    List.getElem?_append_left (by simpa using hrow), List.getElem?_mapIdx, hget]
  rfl

theorem getElem?_linesOf_count (hcell : ∀ row col, cell row col ≠ '\n') :
    (Text.linesOf (chart.drawWith cell))[chart.rowCount + 1]? =
      some (chart.countLine.fields chart).toList := by
  rw [linesOf_drawWith hcell, linesDrawn, List.getElem?_map, List.getElem?_cons_succ,
    List.getElem?_append_right (by simp [rowCount])]
  simp [rowCount]

theorem exists_term? {row : Nat} (h : row < chart.rowCount) : ∃ t, chart.term? row = some t :=
  ⟨_, Array.getElem?_eq_getElem h⟩

theorem field_headerLine {col m : Nat} (hm : chart.minterm? col = some m) :
    chart.field (chart.headerLine.fields chart).toList col =
      (Text.centred chart.columnWidth m.repr).toList := by
  refine Line.field_fields chart.regular_headerLine length_le_of_mem_headerLine ?_
  rw [headerLine, List.getElem?_map, show chart.minterms.toList[col]? = some m from hm]
  rfl

theorem field_rowLine (hcell : ∀ row col, cell row col ≠ '\n') {row col : Nat} {t : Term}
    (ht : chart.term? row = some t) (hcol : col < chart.columnCount) :
    chart.field ((chart.rowLine cell row t).fields chart).toList col =
      (Text.centred chart.columnWidth (cell row col).toString).toList := by
  have hmem : t ∈ chart.terms.toList := Array.mem_toList_iff.2 (Array.mem_of_getElem? ht)
  refine Line.field_fields (regular_rowLine hcell hmem) length_le_of_mem_rowLine ?_
  simp [rowLine, hcol]

/-- The character that a drawing shows for a row and a column, in the middle of the field. -/
def shownAt? (chart : Chart) (text : String) (row col : Nat) : Option Char :=
  (Text.linesOf text)[row + 1]?.bind fun line =>
    (chart.field line col)[(chart.columnWidth - 1) / 2]?

theorem getElem?_centred_singleton {width : Nat} (c : Char) :
    (Text.centred width c.toString).toList[(width - 1) / 2]? = some c := by
  simp [Text.centred, Text.spaces]

/-- The character of a cell is shown, whatever the numbers of marks are. -/
theorem shownAt?_drawWith (hcell : ∀ row col, cell row col ≠ '\n') {row col : Nat}
    (hrow : row < chart.rowCount) (hcol : col < chart.columnCount) :
    chart.shownAt? (chart.drawWith cell) row col = some (cell row col) := by
  obtain ⟨t, ht⟩ := exists_term? hrow
  rw [shownAt?, getElem?_linesOf_row hcell ht, Option.bind_some, field_rowLine hcell ht hcol,
    getElem?_centred_singleton]

theorem field_countLine (hfit : chart.CountsFit) {col : Nat} (hcol : col < chart.columnCount) :
    chart.field (chart.countLine.fields chart).toList col =
      (Text.centred chart.columnWidth (chart.usage col).repr).toList := by
  refine Line.field_fields chart.regular_countLine (countsFit_iff.1 hfit) ?_
  simp [countLine, hcol]

end

/--
The text is a drawing with the given cells in which all lines have one length and whatever belongs
to a column stands in the field of the column.
-/
structure Aligned (chart : Chart) (cell : Nat → Nat → Char) (text : String) : Prop where
  length_lines : (Text.linesOf text).length = chart.rowCount + 2
  length_line : ∀ line ∈ Text.linesOf text, line.length = chart.lineWidth
  minterm : ∀ col m, chart.minterm? col = some m →
    (Text.linesOf text)[0]?.map (chart.field · col) =
      some (Text.centred chart.columnWidth m.repr).toList
  cell : ∀ row < chart.rowCount, ∀ col < chart.columnCount,
    (Text.linesOf text)[row + 1]?.map (chart.field · col) =
      some (Text.centred chart.columnWidth (cell row col).toString).toList
  count : ∀ col < chart.columnCount,
    (Text.linesOf text)[chart.rowCount + 1]?.map (chart.field · col) =
      some (Text.centred chart.columnWidth (chart.usage col).repr).toList

theorem aligned_drawWith {cell : Nat → Nat → Char} (hcell : ∀ row col, cell row col ≠ '\n')
    (hfit : chart.CountsFit) : chart.Aligned cell (chart.drawWith cell) := by
  constructor
  case length_lines => exact length_linesOf_drawWith hcell
  case length_line =>
    rw [linesOf_drawWith hcell, List.forall_mem_map]
    intro line hline
    rw [String.length_toList, Line.length_fields_eq_iff (regular_of_mem_linesDrawn hcell hline)]
    exact length_le_of_mem_linesDrawn hfit hline
  case minterm =>
    intro col m hm
    rw [getElem?_linesOf_header hcell, Option.map_some, field_headerLine hm]
  case cell =>
    intro row hrow col hcol
    obtain ⟨t, ht⟩ := exists_term? hrow
    rw [getElem?_linesOf_row hcell ht, Option.map_some, field_rowLine hcell ht hcol]
  case count =>
    intro col hcol
    rw [getElem?_linesOf_count hcell, Option.map_some, field_countLine hfit hcol]

theorem cell_ne_newline (chart : Chart) (row col : Nat) : chart.cell row col ≠ '\n' := by
  unfold cell
  split <;> decide

theorem progressCell_ne_newline (chart : Chart) (selected : List Nat) (eliminated : IndexSet)
    (row col : Nat) : chart.progressCell selected eliminated row col ≠ '\n' := by
  unfold progressCell
  split
  · decide
  · split
    · decide
    · exact chart.cell_ne_newline row col

/--
**A drawing is flush exactly if the numbers of marks fit**, whether some rows are selected or not.
Each column has then one place in all lines.
-/
theorem flush_iff_countsFit (chart : Chart) (selected : List Nat) :
    (Text.Flush chart.draw ↔ chart.CountsFit) ∧
      (Text.Flush (chart.drawProgress selected) ↔ chart.CountsFit) ∧
      (chart.CountsFit → chart.Aligned chart.cell chart.draw ∧
        chart.Aligned (chart.progressCell selected (chart.eliminated selected))
          (chart.drawProgress selected)) :=
  ⟨flush_drawWith_iff chart.cell_ne_newline,
    flush_drawWith_iff (chart.progressCell_ne_newline selected _),
    fun hfit => ⟨aligned_drawWith chart.cell_ne_newline hfit,
      aligned_drawWith (chart.progressCell_ne_newline selected _) hfit⟩⟩

/--
A function of five variables with minterm 0 to cover; the minterms with one or two bits are
don't-cares.
-/
def crowdedTable : TruthTable :=
  ⟨5, #[.one, .dontCare, .dontCare, .dontCare, .dontCare, .dontCare, .dontCare, .zero,
    .dontCare, .dontCare, .dontCare, .zero, .dontCare, .zero, .zero, .zero,
    .dontCare, .dontCare, .dontCare, .zero, .dontCare, .zero, .zero, .zero,
    .dontCare, .zero, .zero, .zero, .zero, .zero, .zero, .zero], rfl, by decide⟩

/-- The chart of its ten prime implicants, all of which cover minterm 0. -/
def crowded : Chart := ofTerms (primes crowdedTable.initialTerms) crowdedTable.required.toList

/-- The number 10 does not fit below the minterm 0. -/
theorem draw_crowded_not_flush : ¬ Text.Flush crowded.draw := by
  intro hflush
  have hfit := (flush_drawWith_iff crowded.cell_ne_newline).1 hflush 0 (by decide +kernel)
  have husage : crowded.usage 0 = 10 := by decide +kernel
  rw [husage] at hfit
  exact absurd hfit (by decide +kernel)

end TwoLevel.Chart
