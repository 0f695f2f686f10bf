import TwoLevel.TruthTable

/-!
# Which texts are tables

A text without its blanks is the list of a table's symbols. It is a table when there are as many
symbols as minterms of some supported width and each stands for an output, and the table is then
the one written in it (**`ofText_eq_ok_iff`**). Every other text has one fault, and that is the
error which reading it gives (**`ofText_eq_error_iff`**): the number of the symbols comes before
the width, the width before the first symbol that is none.
-/

namespace TwoLevel.TruthTable

/-- The symbols of a text: its characters without the blanks. -/
def symbols (text : String) : List Char := text.toList.filter (!Text.isBlank ·)

/-- The symbols of the text stand for the outputs of the table, in order. -/
def WrittenIn (table : TruthTable) (text : String) : Prop :=
  (symbols text).map Output.ofSymbol? = table.outputs.toList.map some

/-- What is wrong with a text that is no table. -/
inductive Fault (text : String) : Error → Prop where
  | length (hlength : ∀ width, (symbols text).length ≠ mintermCount width) :
      Fault text (.tableLength (symbols text).length)
  | width (width : Nat) (hlength : (symbols text).length = mintermCount width)
      (hwidth : maxVariables < width) :
      Fault text (.tooManyVariables width)
  | symbol (width : Nat) (hlength : (symbols text).length = mintermCount width)
      (hwidth : width ≤ maxVariables) (before : List Char) (c : Char) (after : List Char)
      (hsplit : symbols text = before ++ c :: after)
      (hbefore : ∀ d ∈ before, (Output.ofSymbol? d).isSome) (hc : Output.ofSymbol? c = none) :
      Fault text (.tableSymbol c before.length)

/-! ## The first symbol that is none -/

theorem find?_zipIdx_eq_some_iff {cs : List Char} {c : Char} {i : Nat} :
    (cs.zipIdx.find? fun (c, _) => (Output.ofSymbol? c).isNone) = some (c, i) ↔
      ∃ before after, cs = before ++ c :: after ∧ before.length = i ∧
        Output.ofSymbol? c = none ∧ ∀ d ∈ before, (Output.ofSymbol? d).isSome := by
  rw [List.find?_eq_some_iff_append]
  constructor
  · rintro ⟨hc, before, after, hsplit, hbefore⟩
    -- the position found is the number of the characters before
    have hlength : before.length = i := by
      have hget : cs.zipIdx[before.length]? = some (c, i) := by simp [hsplit]
      simp only [List.getElem?_zipIdx, Option.map_eq_some_iff, Prod.mk.injEq] at hget
      omega
    have hcs := congrArg (List.map Prod.fst) hsplit
    rw [List.zipIdx_map_fst, List.map_append, List.map_cons] at hcs
    refine ⟨_, _, hcs, by simpa using hlength, by simpa using hc, fun d hd => ?_⟩
    obtain ⟨y, hy, rfl⟩ := List.mem_map.1 hd
    simpa using hbefore y hy
  · rintro ⟨before, after, rfl, rfl, hc, hbefore⟩
    refine ⟨by simpa using hc, _, _, by rw [List.zipIdx_append, List.zipIdx_cons, Nat.zero_add], ?_⟩
    intro y hy
    simpa using hbefore y.1 (List.fst_mem_of_mem_zipIdx hy)

/-! ## A text has one reading -/

section

variable {text : String} {table other : TruthTable} {e e' : Error}

theorem log2_mintermCount (width : Nat) : (mintermCount width).log2 = width := Nat.log2_two_pow

theorem mintermCount_inj {v w : Nat} (h : mintermCount v = mintermCount w) : v = w := by
  rw [← log2_mintermCount v, h, log2_mintermCount]

theorem WrittenIn.length_symbols (h : table.WrittenIn text) :
    (symbols text).length = mintermCount table.width := by
  rw [← table.size_outputs]
  simpa using congrArg List.length h

theorem WrittenIn.unique (h : table.WrittenIn text) (h' : other.WrittenIn text) :
    table = other := by
  have hwidth : table.width = other.width :=
    mintermCount_inj (h.length_symbols.symm.trans h'.length_symbols)
  have houtputs : table.outputs.toList.map some = other.outputs.toList.map some := h.symm.trans h'
  rw [List.map_inj_right (fun _ _ => Option.some.inj)] at houtputs
  cases table; cases other
  simp_all [Array.toList_inj]

theorem WrittenIn.isSome_ofSymbol? (h : table.WrittenIn text) :
    ∀ c ∈ symbols text, (Output.ofSymbol? c).isSome := by
  intro c hc
  have hmem : Output.ofSymbol? c ∈ (symbols text).map Output.ofSymbol? := List.mem_map_of_mem hc
  rw [h] at hmem
  obtain ⟨o, -, ho⟩ := List.mem_map.1 hmem
  rw [← ho, Option.isSome_some]

theorem WrittenIn.ofSymbol?_eq (h : table.WrittenIn text) {m : Nat} {c : Char}
    (hc : (symbols text)[m]? = some c) : Output.ofSymbol? c = some (table.output m) := by
  have hm := congrArg (·[m]?) h
  simp only [List.getElem?_map, hc, Option.map_some, Array.getElem?_toList] at hm
  cases houtput : table.outputs[m]? with
  | none => simp [houtput] at hm
  | some o => simpa [houtput, output] using hm

theorem WrittenIn.lt_size (h : table.WrittenIn text) {m : Nat} {c : Char}
    (hc : (symbols text)[m]? = some c) : m < table.size := by
  have hlt : m < (symbols text).length := (List.getElem?_eq_some_iff.1 hc).1
  rwa [h.length_symbols] at hlt

theorem WrittenIn.not_fault (h : table.WrittenIn text) : ¬ Fault text e := by
  rintro (hlength | ⟨width, hlength, hwidth⟩ | ⟨width, hlength, hwidth, before, c, after, hsplit,
    hbefore, hc⟩)
  · exact hlength _ h.length_symbols
  · obtain rfl := mintermCount_inj (hlength.symm.trans h.length_symbols)
    exact absurd table.width_le (by omega)
  · have hsome := h.isSome_ofSymbol? c (by simp [hsplit])
    simp [hc] at hsome

theorem Fault.unique (h : Fault text e) (h' : Fault text e') : e = e' := by
  -- the number of the symbols gives the width, and the width decides between the faults
  cases h with
  | length hlength =>
    cases h' with
    | length => rfl
    | width w hw => exact absurd hw (hlength w)
    | symbol w hw => exact absurd hw (hlength w)
  | width w hw hmax =>
    cases h' with
    | length hlength => exact absurd hw (hlength w)
    | width w' hw' => rw [mintermCount_inj (hw.symm.trans hw')]
    | symbol w' hw' hmax' =>
      have := mintermCount_inj (hw.symm.trans hw')
      omega
  | symbol w hw hmax before c after hsplit hbefore hc =>
    cases h' with
    | length hlength => exact absurd hw (hlength w)
    | width w' hw' hmax' =>
      have := mintermCount_inj (hw.symm.trans hw')
      omega
    | symbol w' hw' hmax' before' c' after' hsplit' hbefore' hc' =>
      have hfind := find?_zipIdx_eq_some_iff.2 ⟨before, after, hsplit, rfl, hc, hbefore⟩
      have hfind' := find?_zipIdx_eq_some_iff.2 ⟨before', after', hsplit', rfl, hc', hbefore'⟩
      rw [hfind] at hfind'
      simp only [Option.some.injEq, Prod.mk.injEq] at hfind'
      rw [hfind'.1, hfind'.2]

/-! ## Reading -/

theorem ofText_cases (text : String) :
    (∃ table, ofText text = .ok table ∧ table.WrittenIn text) ∨
      ∃ e, ofText text = .error e ∧ Fault text e := by
  unfold ofText
  simp only
  split
  · rename_i hlength
    split
    · rename_i hwidth
      split
      · rename_i c position hfind
        obtain ⟨before, after, hsplit, rfl, hc, hbefore⟩ := find?_zipIdx_eq_some_iff.1 hfind
        exact .inr ⟨_, rfl, .symbol _ hlength hwidth before c after hsplit hbefore hc⟩
      · rename_i hnone
        refine .inl ⟨_, rfl, ?_⟩
        rw [List.find?_eq_none] at hnone
        unfold WrittenIn symbols
        rw [List.map_map]
        -- each symbol stands for an output, so that the default is never taken
        refine List.map_congr_left fun c hc => ?_
        obtain ⟨i, hi⟩ := List.mem_iff_getElem?.1 hc
        have hsome := hnone (c, i) (List.mem_zipIdx_iff_getElem?.2 hi)
        obtain ⟨o, ho⟩ := Option.ne_none_iff_exists'.1 (by simpa using hsome)
        simp [ho]
    · rename_i hwidth
      exact .inr ⟨_, rfl, .width _ hlength (by omega)⟩
  · rename_i hlength
    refine .inr ⟨_, rfl, .length fun width hwidth => hlength ?_⟩
    rw [show text.toList.filter (!Text.isBlank ·) = symbols text from rfl, hwidth,
      log2_mintermCount]

theorem ofText_eq_ok_iff : ofText text = .ok table ↔ table.WrittenIn text := by
  rcases ofText_cases text with ⟨found, hfound, hwritten⟩ | ⟨e, he, hfault⟩
  · rw [hfound]
    exact ⟨fun h => Except.ok.inj h ▸ hwritten, fun h => by rw [hwritten.unique h]⟩
  · rw [he]
    exact ⟨nofun, fun h => absurd hfault h.not_fault⟩

theorem ofText_eq_error_iff : ofText text = .error e ↔ Fault text e := by
  rcases ofText_cases text with ⟨found, hfound, hwritten⟩ | ⟨e', he, hfault⟩
  · rw [hfound]
    exact ⟨nofun, fun h => absurd h hwritten.not_fault⟩
  · rw [he]
    exact ⟨fun h => Except.error.inj h ▸ hfault, fun h => by rw [hfault.unique h]⟩

end

end TwoLevel.TruthTable
