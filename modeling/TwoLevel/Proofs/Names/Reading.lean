import TwoLevel.Names
import TwoLevel.Proofs.Names.Identifiers

/-!
# Which texts are lists of names

The pieces of a text are its parts between separators. A text is a list of names when its pieces
are distinct identifiers, and the names are then these pieces (**`ofText_eq_ok_iff`**). Every other
text has a first piece that no list of names continues with, and the error tells of that piece
(**`ofText_eq_error_iff`**).
-/

namespace TwoLevel.Names

/-- The pieces of a text between blanks, commas and semicolons. -/
def pieces (text : String) : List String :=
  (Text.words isSeparator text.toList).map String.ofList

/-- The pieces of the text are the names, in order. -/
def WrittenIn (names : Names) (text : String) : Prop := pieces text = names.toList

/-- Why a list of names does not go on with a piece. -/
inductive Refuses (names : Names) (piece : String) : Error → Prop where
  | invalid (hinvalid : ¬ Identifier piece.toList) : Refuses names piece (.invalidName piece)
  | repeated (hvalid : Identifier piece.toList) (hmem : piece ∈ names.toList) :
      Refuses names piece (.repeatedName piece)

/-- What is wrong with a text that is no list of names: its first piece that is refused. -/
inductive Fault (text : String) : Error → Prop where
  | piece (names : Names) (piece : String) (after : List String) (e : Error)
      (hsplit : pieces text = names.toList ++ piece :: after) (hrefuses : Refuses names piece e) :
      Fault text e

/-! ## One name more -/

section

variable {names : Names} {piece : String} {e : Error}

theorem push_cases (names : Names) (piece : String) :
    (∃ more, names.push piece = .ok more ∧ more.toList = names.toList ++ [piece]) ∨
      ∃ e, names.push piece = .error e ∧ Refuses names piece e := by
  unfold push
  split
  · rename_i hid
    split
    · rename_i hmem
      exact .inr ⟨_, rfl, .repeated (isIdentifier_iff.1 hid) hmem⟩
    · exact .inl ⟨_, rfl, rfl⟩
  · rename_i hid
    exact .inr ⟨_, rfl, .invalid fun h => hid (isIdentifier_iff.2 h)⟩

theorem Refuses.unique {e' : Error} (h : Refuses names piece e) (h' : Refuses names piece e') :
    e = e' := by
  cases h with
  | invalid hinvalid =>
    cases h' with
    | invalid => rfl
    | repeated hvalid => exact absurd hvalid hinvalid
  | repeated hvalid =>
    cases h' with
    | invalid hinvalid => exact absurd hvalid hinvalid
    | repeated => rfl

theorem not_refuses {whole : Names} {after : List String}
    (h : whole.toList = names.toList ++ piece :: after) : ¬ Refuses names piece e := by
  -- the piece is one of the names of the whole list, and those before it are others
  have hid : isIdentifier piece.toList = true := whole.isIdentifier_of_mem piece (by simp [h])
  have hnew : piece ∉ names.toList := by
    have hnodup := h ▸ whole.nodup
    intro hmem
    exact (List.nodup_append.1 hnodup).2.2 piece hmem piece (by simp) rfl
  rintro (hinvalid | ⟨-, hmem⟩)
  · exact hinvalid (isIdentifier_iff.1 hid)
  · exact hnew hmem

theorem push_eq_error_iff : names.push piece = .error e ↔ Refuses names piece e := by
  rcases push_cases names piece with ⟨more, hmore, htoList⟩ | ⟨e', he', hrefuses⟩
  · rw [hmore]
    exact ⟨nofun, fun h => absurd h (not_refuses htoList)⟩
  · rw [he']
    exact ⟨fun h => Except.error.inj h ▸ hrefuses, fun h => by rw [hrefuses.unique h]⟩

end

/-! ## All names -/

theorem foldlM_push_cases (ws : List String) (names : Names) :
    (∃ whole, ws.foldlM push names = .ok whole ∧ whole.toList = names.toList ++ ws) ∨
      ∃ e, ws.foldlM push names = .error e ∧ ∃ before piece after,
        names.toList ++ ws = before.toList ++ piece :: after ∧ Refuses before piece e := by
  induction ws generalizing names with
  | nil => exact .inl ⟨names, rfl, by simp⟩
  | cons w ws ih =>
    rw [List.foldlM_cons]
    rcases push_cases names w with ⟨more, hmore, htoList⟩ | ⟨e, he, hrefuses⟩
    · rw [hmore]
      -- a name moves from the pieces to the names, and their concatenation stays as it is
      have happend : names.toList ++ w :: ws = more.toList ++ ws := by simp [htoList]
      rw [happend]
      exact ih more
    · rw [he]
      exact .inr ⟨e, rfl, names, w, ws, rfl, hrefuses⟩

theorem ofList_toList (names : Names) : ofList names.toList = .ok names := by
  rcases foldlM_push_cases names.toList ∅ with
    ⟨whole, hwhole, htoList⟩ | ⟨e, -, before, piece, after, hsplit, hrefuses⟩
  · rw [ofList, hwhole, Names.ext htoList]
  · exact absurd hrefuses (not_refuses hsplit)

variable {text : String} {names : Names} {e : Error}

theorem ofText_eq (text : String) : ofText text = ofList (pieces text) := rfl

theorem ofText_eq_ok_iff : ofText text = .ok names ↔ names.WrittenIn text := by
  constructor
  · intro h
    rcases foldlM_push_cases (pieces text) ∅ with ⟨whole, hwhole, htoList⟩ | ⟨e, he, -⟩
    · obtain rfl := Except.ok.inj (hwhole.symm.trans h)
      exact htoList.symm
    · cases he.symm.trans h
  · intro h
    rw [ofText_eq, h]
    exact ofList_toList names

theorem ofText_eq_error_iff : ofText text = .error e ↔ Fault text e := by
  constructor
  · intro h
    rcases foldlM_push_cases (pieces text) ∅ with
      ⟨whole, hwhole, -⟩ | ⟨e', he', before, piece, after, hsplit, hrefuses⟩
    · cases hwhole.symm.trans h
    · obtain rfl := Except.error.inj (he'.symm.trans h)
      exact .piece before piece after _ hsplit hrefuses
  · rintro ⟨before, piece, after, _, hsplit, hrefuses⟩
    have hbefore : before.toList.foldlM push ∅ = .ok before := ofList_toList before
    have hpush := push_eq_error_iff.2 hrefuses
    rw [ofText_eq, ofList, hsplit, List.foldlM_append, hbefore]
    show (piece :: after).foldlM push before = .error e
    rw [List.foldlM_cons, hpush]
    rfl

end TwoLevel.Names
