import TwoLevel.Proofs.Cube.Splitting

/-!
# Families of cubes that merging builds up

The implicants of a table are built up by merging, and so are other sets of cubes that the merge
process is run on: a cube that merges with a member is a member itself exactly if the merged cube
is, and every member that is large enough is merged from two. Such a set is a `MergeFamily`.

A family of this kind has members with any smaller number of free digits
(`MergeFamily.exists_eliminated_eq`), and a member merges with no other exactly if none of its
digits can be freed (**`MergeFamily.unmergedIn_iff`**).
-/

namespace TwoLevel.Cube

/--
A family in which a cube that merges with a member is a member exactly if the merged cube is, and in
which all members with more than `least` free digits are merged from members.
-/
structure MergeFamily (family : Cube → Prop) (least : Nat) : Prop where
  merge_iff : ∀ {a b c : Cube}, family a → a.merge? b = some c → (family b ↔ family c)
  exists_merge : ∀ {c : Cube}, family c → least < c.eliminated →
    ∃ a b, family a ∧ family b ∧ a.merge? b = some c

/-- A member of the family that merges with no member. -/
structure UnmergedIn (family : Cube → Prop) (c : Cube) : Prop where
  mem : family c
  merge?_eq_none : ∀ b, family b → c.merge? b = none

variable {family : Cube → Prop} {least k : Nat} {c : Cube}

theorem MergeFamily.exists_eliminated_eq (hfamily : MergeFamily family least) (hc : family c)
    (hk : least ≤ k) (hle : k ≤ c.eliminated) : ∃ b, family b ∧ b.eliminated = k := by
  induction hn : c.eliminated - k generalizing c with
  | zero => exact ⟨c, hc, by omega⟩
  | succ n ih =>
    obtain ⟨a, _, ha, -, hmerge⟩ := hfamily.exists_merge hc (by omega)
    have helim := (eliminated_of_merge? hmerge).1
    exact ih ha (by omega) (by omega)

/--
**A member merges with no member exactly if no digit of it can be freed.** A fixed digit can be
freed exactly if the cube with the other value there is a member as well.
-/
theorem MergeFamily.unmergedIn_iff (hfamily : MergeFamily family least) :
    UnmergedIn family c ↔
      family c ∧ ∀ bit, c.digit bit ≠ .free → ¬ family (c.setDigit bit .free) := by
  constructor
  · intro hunmerged
    refine ⟨hunmerged.mem, fun bit hfixed hfreed => ?_⟩
    obtain ⟨b, hmerge⟩ := exists_merge?_eq_some_iff.2 ⟨bit, hfixed, rfl⟩
    have hb := (hfamily.merge_iff hunmerged.mem hmerge).2 hfreed
    rw [hunmerged.merge?_eq_none b hb] at hmerge
    simp at hmerge
  · rintro ⟨hc, hmaximal⟩
    refine ⟨hc, fun b hb => ?_⟩
    cases hmerge : c.merge? b with
    | none => rfl
    | some d =>
      have hd := (hfamily.merge_iff hc hmerge).1 hb
      obtain ⟨bit, hfixed, rfl⟩ := exists_merge?_eq_some_iff.1 ⟨b, hmerge⟩
      exact absurd hd (hmaximal bit hfixed)

end TwoLevel.Cube
