import TwoLevel.Sequences

/-!
# Finite sets of indices

An `IndexSet` is a finite set of natural numbers, held as its strictly ascending list of
members. Covered minterms, rows and columns of a chart, and the support of an expression are all
such sets, and all of them are shown in ascending order.

Each set has exactly one representation, so equality of sets is equality of values
(`IndexSet.ext`); the view of every operation is membership (`mem_ofList`, `mem_union`, …).
-/

namespace TwoLevel

/-- A finite set of natural numbers: the strictly ascending list of its members. -/
structure IndexSet where
  toList : List Nat
  ascending : toList.Pairwise (· < ·)
  deriving DecidableEq

namespace IndexSet

instance : Membership Nat IndexSet := ⟨fun s n => n ∈ s.toList⟩

theorem mem_def {s : IndexSet} {n : Nat} : n ∈ s ↔ n ∈ s.toList := Iff.rfl

instance (s : IndexSet) (n : Nat) : Decidable (n ∈ s) :=
  inferInstanceAs (Decidable (n ∈ s.toList))

theorem nodup_toList (s : IndexSet) : s.toList.Nodup := s.ascending.imp Nat.ne_of_lt

/-- Two sets with the same members are equal. -/
@[ext]
theorem ext {s t : IndexSet} (h : ∀ n, n ∈ s ↔ n ∈ t) : s = t := by
  obtain ⟨xs, hxs⟩ := s
  obtain ⟨ys, hys⟩ := t
  have hperm : xs.Perm ys :=
    (List.perm_ext_iff_of_nodup (hxs.imp Nat.ne_of_lt) (hys.imp Nat.ne_of_lt)).2 h
  have heq : xs = ys :=
    hperm.eq_of_pairwise (fun _ _ _ _ hab hba => absurd hab (Nat.lt_asymm hba)) hxs hys
  subst heq
  rfl

/-! ## Construction -/

instance : EmptyCollection IndexSet := ⟨⟨[], .nil⟩⟩

instance : Inhabited IndexSet := ⟨∅⟩

instance : Singleton Nat IndexSet := ⟨fun n => ⟨[n], by simp⟩⟩

@[simp] theorem toList_empty : (∅ : IndexSet).toList = [] := rfl

@[simp] theorem not_mem_empty (n : Nat) : n ∉ (∅ : IndexSet) := by simp [mem_def]

@[simp] theorem toList_singleton (n : Nat) : ({n} : IndexSet).toList = [n] := rfl

@[simp] theorem mem_singleton {n m : Nat} : n ∈ ({m} : IndexSet) ↔ n = m := by simp [mem_def]

/-- The numbers below `n`. -/
def range (n : Nat) : IndexSet := ⟨List.range n, List.pairwise_lt_range⟩

@[simp] theorem mem_range {n m : Nat} : m ∈ range n ↔ m < n := by simp [mem_def, range]

/-- Puts a number in its place in an ascending list, unless it is there already. -/
def insertInto (n : Nat) : List Nat → List Nat
  | [] => [n]
  | m :: ms => if n < m then n :: m :: ms else if n = m then m :: ms else m :: insertInto n ms

@[simp] theorem mem_insertInto {n x : Nat} {ms : List Nat} :
    x ∈ insertInto n ms ↔ x = n ∨ x ∈ ms := by
  induction ms with
  | nil => simp [insertInto]
  | cons m ms ih =>
    unfold insertInto
    split
    · simp
    · split
      · rename_i h; simp [h]
      · simp only [List.mem_cons, ih]
        exact or_left_comm

theorem pairwise_insertInto {n : Nat} {ms : List Nat} (h : ms.Pairwise (· < ·)) :
    (insertInto n ms).Pairwise (· < ·) := by
  induction ms with
  | nil => simp [insertInto]
  | cons m ms ih =>
    rw [List.pairwise_cons] at h
    unfold insertInto
    split
    · rename_i hnm
      refine List.pairwise_cons.2 ⟨fun x hx => ?_, List.pairwise_cons.2 h⟩
      rcases List.mem_cons.1 hx with rfl | hx
      · exact hnm
      · exact Nat.lt_trans hnm (h.1 x hx)
    · split
      · exact List.pairwise_cons.2 h
      · refine List.pairwise_cons.2 ⟨fun x hx => ?_, ih h.2⟩
        rcases mem_insertInto.1 hx with rfl | hx
        · omega
        · exact h.1 x hx

/-- The set with one more member. -/
def insert (n : Nat) (s : IndexSet) : IndexSet :=
  ⟨insertInto n s.toList, pairwise_insertInto s.ascending⟩

@[simp] theorem mem_insert {n m : Nat} {s : IndexSet} : m ∈ s.insert n ↔ m = n ∨ m ∈ s := by
  simp [mem_def, insert]

/-- The set of the numbers of a list, in any order and with any repetitions. -/
def ofList (ns : List Nat) : IndexSet := ns.foldr (fun n s => s.insert n) ∅

@[simp] theorem mem_ofList {n : Nat} {ns : List Nat} : n ∈ ofList ns ↔ n ∈ ns := by
  induction ns with
  | nil => simp [ofList]
  | cons m ns ih => simp only [ofList, List.foldr_cons, mem_insert, List.mem_cons] at *; rw [ih]

/-! ## Operations -/

/-- Puts `n` in front of a list, unless the list already starts with it. -/
def consNew (n : Nat) : List Nat → List Nat
  | [] => [n]
  | m :: ms => if n = m then m :: ms else n :: m :: ms

@[simp] theorem mem_consNew {n x : Nat} {ms : List Nat} : x ∈ consNew n ms ↔ x = n ∨ x ∈ ms := by
  cases ms with
  | nil => simp [consNew]
  | cons m ms => by_cases h : n = m <;> simp [consNew, h]

/-- Keeps one number of each run of equal neighbours. -/
def dropRepeats (ns : List Nat) : List Nat := ns.foldr consNew []

@[simp] theorem mem_dropRepeats {x : Nat} {ns : List Nat} : x ∈ dropRepeats ns ↔ x ∈ ns := by
  induction ns with
  | nil => simp [dropRepeats]
  | cons n ns ih => simp only [dropRepeats, List.foldr_cons] at *; simp [ih]

theorem pairwise_dropRepeats {ns : List Nat} (h : ns.Pairwise (· ≤ ·)) :
    (dropRepeats ns).Pairwise (· < ·) := by
  induction ns with
  | nil => simp [dropRepeats]
  | cons n ns ih =>
    have hle : ∀ x ∈ dropRepeats ns, n ≤ x := fun x hx =>
      List.rel_of_pairwise_cons h (mem_dropRepeats.1 hx)
    have hrest := ih h.of_cons
    change (consNew n (dropRepeats ns)).Pairwise (· < ·)
    match hd : dropRepeats ns with
    | [] => simp [consNew]
    | m :: ms =>
      rw [hd] at hrest hle
      by_cases hnm : n = m
      · simpa [consNew, hnm] using hrest
      · have hlt : n < m := Nat.lt_of_le_of_ne (hle m (by simp)) hnm
        simp only [consNew, hnm, if_false, List.pairwise_cons]
        refine ⟨fun x hx => ?_, List.pairwise_cons.1 hrest⟩
        rcases List.mem_cons.1 hx with rfl | hx
        · exact hlt
        · exact Nat.lt_trans hlt (List.rel_of_pairwise_cons hrest hx)

/-- The members of either set. -/
def union (s t : IndexSet) : IndexSet :=
  ⟨dropRepeats (Ordered.merge (· ≤ ·) s.toList t.toList), pairwise_dropRepeats <| by
    simpa [Ordered.merge_eq] using @List.pairwise_merge Nat (fun a b => decide (a ≤ b))
      (by simpa using fun _ _ _ => Nat.le_trans) (by simpa using Nat.le_total) s.toList t.toList
      (s.ascending.imp fun h => by simpa using Nat.le_of_lt h)
      (t.ascending.imp fun h => by simpa using Nat.le_of_lt h)⟩

instance : Union IndexSet := ⟨union⟩

@[simp] theorem mem_union {s t : IndexSet} {n : Nat} : n ∈ s ∪ t ↔ n ∈ s ∨ n ∈ t := by
  change n ∈ (union s t).toList ↔ _
  simp [union, mem_def]

protected theorem union_comm (s t : IndexSet) : s ∪ t = t ∪ s := by
  ext n
  rw [mem_union, mem_union, or_comm]

/-- The members that satisfy a test. -/
def filter (s : IndexSet) (p : Nat → Bool) : IndexSet :=
  ⟨s.toList.filter p, s.ascending.filter p⟩

@[simp] theorem mem_filter {s : IndexSet} {p : Nat → Bool} {n : Nat} :
    n ∈ s.filter p ↔ n ∈ s ∧ p n = true := by simp [mem_def, filter]

/-- The members that are not in the other set. -/
def diff (s t : IndexSet) : IndexSet := s.filter (· ∉ t)

instance : SDiff IndexSet := ⟨diff⟩

@[simp] theorem mem_diff {s t : IndexSet} {n : Nat} : n ∈ s \ t ↔ n ∈ s ∧ n ∉ t := by
  change n ∈ diff s t ↔ _
  simp [diff]

/-- The union of a list of sets. -/
def unionAll (sets : List IndexSet) : IndexSet := sets.foldl (· ∪ ·) ∅

theorem mem_foldl_union {sets : List IndexSet} {s : IndexSet} {n : Nat} :
    n ∈ sets.foldl (· ∪ ·) s ↔ n ∈ s ∨ ∃ t ∈ sets, n ∈ t := by
  induction sets generalizing s with
  | nil => simp
  | cons t sets ih => simp [ih, or_assoc]

@[simp] theorem mem_unionAll {sets : List IndexSet} {n : Nat} :
    n ∈ unionAll sets ↔ ∃ s ∈ sets, n ∈ s := by
  simp [unionAll, mem_foldl_union]

/-- The number of members. -/
def size (s : IndexSet) : Nat := s.toList.length

/-- Does the set have no member? -/
def isEmpty (s : IndexSet) : Bool := s.toList.isEmpty

@[simp] theorem isEmpty_iff {s : IndexSet} : s.isEmpty = true ↔ s = ∅ := by
  obtain ⟨xs, hxs⟩ := s
  cases xs with
  | nil => simp only [isEmpty, List.isEmpty_nil, true_iff]; rfl
  | cons x xs =>
    simp only [isEmpty, List.isEmpty_cons, Bool.false_eq_true, false_iff]
    intro h
    have hx : x ∈ (∅ : IndexSet) := h ▸ (by simp [mem_def])
    exact not_mem_empty x hx

theorem exists_mem_of_not_isEmpty {s : IndexSet} (h : ¬ s.isEmpty = true) : ∃ n, n ∈ s := by
  obtain ⟨xs, hxs⟩ := s
  cases xs with
  | nil => exact absurd rfl h
  | cons x xs => exact ⟨x, List.mem_cons_self⟩

end IndexSet

end TwoLevel
