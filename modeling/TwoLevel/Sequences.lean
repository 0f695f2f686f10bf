/-!
# Lists and arrays

What tables, sets and generations need of lists and arrays.

* **`putAt`** writes one value to several positions of an array. The value is found at these
  positions, and all others keep theirs (`getElem?_putAt`). In the same way the values at several
  positions are changed by a function (`getElem?_foldl_modify`).
* **`pairwise_zipIdx`** — the positions that a list is numbered with ascend.
* **`Ordered.merge`** joins two lists that are in order into one, a first element before a second
  one where they tie. It gives what `List.merge` does (`merge_eq`), from which its laws follow;
  unlike that function it is evaluated step by step in proofs too.
-/

namespace TwoLevel

variable {α : Type}

/-! ## Positions -/

/-- Writes a value to some positions of an array; those beyond its end are left out. -/
def putAt (xs : Array α) (a : α) (positions : List Nat) : Array α :=
  positions.foldl (fun xs i => xs.setIfInBounds i a) xs

@[simp] theorem size_putAt (xs : Array α) (a : α) (positions : List Nat) :
    (putAt xs a positions).size = xs.size := by
  induction positions generalizing xs with
  | nil => rfl
  | cons i positions ih => simpa [putAt] using ih (xs.setIfInBounds i a)

theorem getElem?_putAt {xs : Array α} {a : α} {positions : List Nat} {i : Nat}
    (h : i < xs.size) :
    (putAt xs a positions)[i]? = if i ∈ positions then some a else xs[i]? := by
  induction positions generalizing xs with
  | nil => simp [putAt]
  | cons j positions ih =>
    have hstep := @ih (xs.setIfInBounds j a) (by simpa using h)
    change (putAt (xs.setIfInBounds j a) a positions)[i]? = _
    rw [hstep]
    -- a later write to the same position makes no difference
    by_cases hi : i ∈ positions
    · simp [hi]
    · by_cases hij : i = j
      · subst hij; simp [hi, h]
      · simp [hi, hij, Ne.symm hij]

theorem size_foldl_modify (xs : Array α) (f : α → α) (positions : List Nat) :
    (positions.foldl (fun xs i => xs.modify i f) xs).size = xs.size := by
  induction positions generalizing xs with
  | nil => rfl
  | cons i positions ih => rw [List.foldl_cons, ih, Array.size_modify]

/-- The values at distinct positions are changed once, and no others. -/
theorem getElem?_foldl_modify {xs : Array α} {f : α → α} {positions : List Nat}
    (hnodup : positions.Nodup) (i : Nat) :
    (positions.foldl (fun xs i => xs.modify i f) xs)[i]? =
      if i ∈ positions then xs[i]?.map f else xs[i]? := by
  induction positions generalizing xs with
  | nil => simp
  | cons j positions ih =>
    rw [List.nodup_cons] at hnodup
    rw [List.foldl_cons, ih hnodup.2, Array.getElem?_modify]
    by_cases hi : j = i
    · -- the position comes once, so the rest of the list leaves it alone
      subst hi
      simp [hnodup.1]
    · simp [hi, Ne.symm hi]

theorem pairwise_zipIdx (xs : List α) : xs.zipIdx.Pairwise fun x y => x.2 < y.2 := by
  have hpositions : (xs.zipIdx.map (·.2)).Pairwise (· < ·) := by
    rw [List.zipIdx_map_snd]
    exact List.pairwise_lt_range'
  exact List.pairwise_map.1 hpositions

/-! ## Merging ordered lists -/

namespace Ordered

/-- Merges two lists behind the elements of `done`, which are in reverse. -/
def mergeOnto (le : α → α → Bool) (done : List α) : List α → List α → List α
  | [], ys => done.reverse ++ ys
  | xs, [] => done.reverse ++ xs
  | x :: xs, y :: ys =>
    if le x y then mergeOnto le (x :: done) xs (y :: ys)
    else mergeOnto le (y :: done) (x :: xs) ys
  termination_by xs ys => xs.length + ys.length

/-- Merges two lists. -/
def merge (le : α → α → Bool) (xs ys : List α) : List α := mergeOnto le [] xs ys

theorem mergeOnto_eq (le : α → α → Bool) (done xs ys : List α) :
    mergeOnto le done xs ys = done.reverse ++ xs.merge ys le := by
  fun_induction mergeOnto le done xs ys with
  | case1 => simp
  | case2 => simp
  | case3 done x xs y ys h ih => simp [ih, h]
  | case4 done x xs y ys h ih => simp [ih, h]

theorem merge_eq (le : α → α → Bool) (xs ys : List α) : merge le xs ys = xs.merge ys le := by
  simp [merge, mergeOnto_eq]

@[simp] theorem mem_merge {le : α → α → Bool} {xs ys : List α} {a : α} :
    a ∈ merge le xs ys ↔ a ∈ xs ∨ a ∈ ys := by
  simp [merge_eq, List.mem_merge]

end Ordered

end TwoLevel
