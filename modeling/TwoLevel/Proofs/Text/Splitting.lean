/-!
# Splitting a text at a separator

`parts` splits a text at a separator of any length. It undoes joining (**`parts_intercalate`**) when
some character of the separator, its mark, is in none of the parts: an occurrence of the separator
that starts within a part would have its first mark in the part or before the mark of the separator
that follows.
-/

namespace TwoLevel.Text

/-- The parts of a text between its separators, after a number of characters that are skipped. -/
def partsAfter (separator : List Char) : Nat → List Char → List (List Char)
  | _, [] => [[]]
  | skip + 1, _ :: cs => partsAfter separator skip cs
  | 0, c :: cs =>
    if separator.isPrefixOf (c :: cs) then [] :: partsAfter separator (separator.length - 1) cs
    else (partsAfter separator 0 cs).modifyHead (c :: ·)

/-- The parts of a text between the occurrences of a separator, from the left. -/
def parts (separator text : List Char) : List (List Char) := partsAfter separator 0 text

variable {separator : List Char}

@[simp] theorem parts_nil : parts separator [] = [[]] := rfl

theorem partsAfter_append (skipped rest : List Char) :
    partsAfter separator skipped.length (skipped ++ rest) = parts separator rest := by
  induction skipped with
  | nil => rfl
  | cons c skipped ih => exact ih

theorem parts_separator_append (hne : separator ≠ []) (rest : List Char) :
    parts separator (separator ++ rest) = [] :: parts separator rest := by
  cases separator with
  | nil => exact absurd rfl hne
  | cons c separator =>
    have hprefix : (c :: separator).isPrefixOf (c :: (separator ++ rest)) = true := by simp
    show partsAfter (c :: separator) 0 (c :: (separator ++ rest)) = _
    rw [partsAfter, if_pos hprefix]
    exact congrArg ([] :: ·) (partsAfter_append separator rest)

theorem parts_cons {c : Char} {cs : List Char} (h : ¬ separator <+: c :: cs) :
    parts separator (c :: cs) = (parts separator cs).modifyHead (c :: ·) := by
  show partsAfter separator 0 (c :: cs) = _
  rw [partsAfter, if_neg (by simpa using h)]
  rfl

theorem intercalate_cons_eq (separator text : List Char) (texts : List (List Char)) :
    separator.intercalate (text :: texts) = text ++ texts.flatMap (separator ++ ·) := by
  induction texts generalizing text with
  | nil => simp
  | cons next texts ih =>
    rw [List.intercalate_cons_cons, ih, List.flatMap_cons, List.append_assoc, List.append_assoc]

theorem mem_intercalate {texts : List (List Char)} {c : Char}
    (h : c ∈ separator.intercalate texts) : c ∈ separator ∨ ∃ text ∈ texts, c ∈ text := by
  induction texts with
  | nil => cases h
  | cons text texts ih =>
    cases texts with
    | nil => exact .inr ⟨text, by simp, by simpa using h⟩
    | cons next texts =>
      rw [List.intercalate_cons_cons, List.mem_append, List.mem_append] at h
      rcases h with (h | h) | h
      · exact .inr ⟨text, by simp, h⟩
      · exact .inl h
      · exact (ih h).imp_right fun ⟨t, ht, hc⟩ => ⟨t, List.mem_cons_of_mem text ht, hc⟩

/-! ## Parts without a mark -/

section

variable {mark : Char}

theorem decide_ne_of_not_mem {xs : List Char} (h : mark ∉ xs) :
    ∀ c ∈ xs, decide (c ≠ mark) = true := by
  intro c hc
  rw [decide_eq_true_iff]
  rintro rfl
  exact h hc

theorem takeWhile_append_of_mem {xs : List Char} (h : mark ∈ xs) (ys : List Char) :
    (xs ++ ys).takeWhile (· ≠ mark) = xs.takeWhile (· ≠ mark) := by
  obtain ⟨before, after, rfl, hnot⟩ := List.eq_append_cons_of_mem h
  have hbefore := decide_ne_of_not_mem hnot
  rw [List.append_assoc, List.takeWhile_append_of_pos hbefore, List.takeWhile_append_of_pos hbefore]
  simp

/-- No separator starts at a character of a part. -/
theorem not_prefix_append (hmark : mark ∈ separator) {part : List Char} (hne : part ≠ [])
    (hpart : mark ∉ part) (rest : List Char) : ¬ separator <+: part ++ separator ++ rest := by
  rintro ⟨after, hafter⟩
  have hfirst := congrArg (List.takeWhile (· ≠ mark)) hafter
  rw [takeWhile_append_of_mem hmark, List.append_assoc,
    List.takeWhile_append_of_pos (decide_ne_of_not_mem hpart), takeWhile_append_of_mem hmark]
    at hfirst
  have hlength := congrArg List.length hfirst
  have hpos := List.length_pos_iff.2 hne
  rw [List.length_append] at hlength
  omega

theorem parts_of_not_mem (hmark : mark ∈ separator) {part : List Char} (hpart : mark ∉ part) :
    parts separator part = [part] := by
  induction part with
  | nil => rfl
  | cons c cs ih =>
    have hprefix : ¬ separator <+: c :: cs := fun h => hpart (h.subset hmark)
    rw [parts_cons hprefix, ih fun h => hpart (List.mem_cons_of_mem c h)]
    rfl

theorem parts_append (hmark : mark ∈ separator) {part : List Char} (hpart : mark ∉ part)
    (rest : List Char) : parts separator (part ++ separator ++ rest) =
      part :: parts separator rest := by
  induction part with
  | nil => exact parts_separator_append (List.ne_nil_of_mem hmark) rest
  | cons c cs ih =>
    have hprefix : ¬ separator <+: c :: (cs ++ separator ++ rest) :=
      not_prefix_append hmark (List.cons_ne_nil c cs) hpart rest
    show parts separator (c :: (cs ++ separator ++ rest)) = _
    rw [parts_cons hprefix, ih fun h => hpart (List.mem_cons_of_mem c h)]
    rfl

/-- **Splitting undoes joining.** -/
theorem parts_intercalate (hmark : mark ∈ separator) {texts : List (List Char)}
    (htexts : ∀ text ∈ texts, mark ∉ text) (hne : texts ≠ []) :
    parts separator (separator.intercalate texts) = texts := by
  induction texts with
  | nil => exact absurd rfl hne
  | cons text texts ih =>
    obtain ⟨htext, htexts⟩ := List.forall_mem_cons.1 htexts
    cases texts with
    | nil =>
      rw [List.intercalate_singleton]
      exact parts_of_not_mem hmark htext
    | cons next texts =>
      rw [List.intercalate_cons_cons, parts_append hmark htext, ih htexts (List.cons_ne_nil _ _)]

end

end TwoLevel.Text
