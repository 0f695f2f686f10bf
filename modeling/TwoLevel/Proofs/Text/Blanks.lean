import Mathlib.Data.List.TakeWhile
import TwoLevel.Text

/-!
# What trimming takes off

A text is its trimmed form between two runs of blanks (**`exists_toList_eq_append_trim`**). Trimming
is therefore not seen by a reader who leaves blanks out: the characters that are not blank stay the
same (`filter_trim`), and so do the words between separators among which the blanks are
(`words_trim`). What it can do is to make a text empty, and this it does to the blank texts.
-/

namespace TwoLevel.Text

/-- Is every character of the text blank? -/
def IsBlank (text : String) : Prop := ∀ c ∈ text.toList, isBlank c = true

instance (text : String) : Decidable (IsBlank text) :=
  decidable_of_iff (text.toList.all isBlank = true) List.all_eq_true

theorem exists_toList_eq_append_trim (text : String) :
    ∃ before after, text.toList = before ++ (trim text).toList ++ after ∧
      (∀ c ∈ before, isBlank c = true) ∧ ∀ c ∈ after, isBlank c = true := by
  -- what follows the first run of blanks, read from its end
  let rest := (text.toList.dropWhile isBlank).reverse
  refine ⟨text.toList.takeWhile isBlank, (rest.takeWhile isBlank).reverse, ?_,
    fun c hc => List.mem_takeWhile_imp hc,
    fun c hc => List.mem_takeWhile_imp (List.mem_reverse.1 hc)⟩
  calc text.toList
      = text.toList.takeWhile isBlank ++ rest.reverse := by
        rw [List.reverse_reverse, List.takeWhile_append_dropWhile]
    _ = text.toList.takeWhile isBlank ++
          (rest.takeWhile isBlank ++ rest.dropWhile isBlank).reverse := by
        rw [List.takeWhile_append_dropWhile]
    _ = text.toList.takeWhile isBlank ++ (trim text).toList ++
          (rest.takeWhile isBlank).reverse := by
        rw [List.reverse_append, ← List.append_assoc, trim, String.toList_ofList]

theorem trim_eq_empty_iff {text : String} : trim text = "" ↔ IsBlank text := by
  constructor
  · intro htrim
    obtain ⟨before, after, htext, hbefore, hafter⟩ := exists_toList_eq_append_trim text
    rw [htrim, String.toList_empty, List.append_nil] at htext
    intro c hc
    rw [htext] at hc
    exact (List.mem_append.1 hc).elim (hbefore c) (hafter c)
  · intro hblank
    rw [trim, List.dropWhile_eq_nil_iff.2 hblank]
    rfl

theorem filter_trim (text : String) :
    (trim text).toList.filter (!isBlank ·) = text.toList.filter (!isBlank ·) := by
  obtain ⟨before, after, htext, hbefore, hafter⟩ := exists_toList_eq_append_trim text
  have hnone : ∀ {cs : List Char}, (∀ c ∈ cs, isBlank c = true) → cs.filter (!isBlank ·) = [] := by
    intro cs hcs
    rw [List.filter_eq_nil_iff]
    intro c hc
    simp [hcs c hc]
  rw [htext, List.filter_append, List.filter_append, hnone hbefore, hnone hafter, List.nil_append,
    List.append_nil]

/-! ## Words -/

section

variable {isSeparator : Char → Bool}

/-- The words of a text with a separator in it are those before and those after. -/
theorem words_append_cons {c : Char} (h : isSeparator c = true) (before after : List Char) :
    words isSeparator (before ++ c :: after) =
      words isSeparator before ++ words isSeparator after := by
  rw [words, List.splitOnP_append_cons before after h, List.filter_append]
  rfl

theorem words_nil : words isSeparator [] = [] := by
  rw [words, List.splitOnP_nil]
  rfl

theorem words_cons {c : Char} (h : isSeparator c = true) (after : List Char) :
    words isSeparator (c :: after) = words isSeparator after := by
  have hcons := words_append_cons h [] after
  rwa [words_nil, List.nil_append, List.nil_append] at hcons

theorem words_of_not_isSeparator {text : List Char} (hne : text ≠ [])
    (h : ∀ c ∈ text, isSeparator c = false) : words isSeparator text = [text] := by
  rw [words, List.splitOnP_eq_singleton h]
  simp [hne]

/-- The words of a text that is written word by word, with a separator between them. -/
theorem words_intercalate {c : Char} (h : isSeparator c = true) {texts : List (List Char)}
    (hne : ∀ text ∈ texts, text ≠ [])
    (htexts : ∀ text ∈ texts, ∀ d ∈ text, isSeparator d = false) :
    words isSeparator ([c].intercalate texts) = texts := by
  induction texts with
  | nil => exact words_nil
  | cons text texts ih =>
    obtain ⟨hfirst, hrest⟩ := List.forall_mem_cons.1 hne
    obtain ⟨htext, htexts⟩ := List.forall_mem_cons.1 htexts
    cases texts with
    | nil =>
      rw [List.intercalate_singleton]
      exact words_of_not_isSeparator hfirst htext
    | cons next texts =>
      rw [List.intercalate_cons_cons, List.append_assoc, List.singleton_append,
        words_append_cons h, words_of_not_isSeparator hfirst htext, ih hrest htexts]
      rfl

theorem words_append_left {before : List Char} (h : ∀ c ∈ before, isSeparator c = true)
    (text : List Char) : words isSeparator (before ++ text) = words isSeparator text := by
  induction before with
  | nil => rfl
  | cons c before ih =>
    obtain ⟨hc, hbefore⟩ := List.forall_mem_cons.1 h
    rw [List.cons_append, words_cons hc, ih hbefore]

theorem words_eq_nil {text : List Char} (h : ∀ c ∈ text, isSeparator c = true) :
    words isSeparator text = [] := by
  rw [← List.append_nil text, words_append_left h, words_nil]

theorem words_append_right {after : List Char} (h : ∀ c ∈ after, isSeparator c = true)
    (text : List Char) : words isSeparator (text ++ after) = words isSeparator text := by
  cases after with
  | nil => rw [List.append_nil]
  | cons c after =>
    obtain ⟨hc, hafter⟩ := List.forall_mem_cons.1 h
    rw [words_append_cons hc, words_eq_nil hafter, List.append_nil]

theorem words_trim (h : ∀ c, isBlank c = true → isSeparator c = true) (text : String) :
    words isSeparator (trim text).toList = words isSeparator text.toList := by
  obtain ⟨before, after, htext, hbefore, hafter⟩ := exists_toList_eq_append_trim text
  rw [htext, words_append_right fun c hc => h c (hafter c hc),
    words_append_left fun c hc => h c (hbefore c hc)]

end

end TwoLevel.Text
