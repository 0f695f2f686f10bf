import TwoLevel.Proofs.Cube.Containment

/-!
# The bits at which two cubes differ

The distance of two cubes is counted along their digits. It is the number of bits at which they
differ (**`distance_eq_size_differing`**), whatever their widths: where one cube has ended and the
other is still free they do not differ.

Merging counts nothing. It goes along the digits up to the first difference, where both cubes have
to be fixed, and asks that what follows be equal. For cubes of one width this comes to a statement
about all bits at once: the same bits are fixed in both, there is one bit at which the cubes differ,
and the result is either cube with this bit freed (**`merge?_eq_some_iff_differing`**). So whether
two cubes merge can be told from their widths, their supports and their distance
(**`isSome_merge?_iff`**).
-/

namespace TwoLevel

theorem IndexSet.size_eq_one_iff {s : IndexSet} : s.size = 1 ↔ ∃ n, s = {n} := by
  show s.toList.length = 1 ↔ _
  rw [List.length_eq_one_iff]
  refine exists_congr fun n => ⟨fun h => ?_, fun h => ?_⟩
  · ext m
    rw [mem_def, h, List.mem_singleton, mem_singleton]
  · rw [h, toList_singleton]

/-- Of the two values that a digit may ask for, it asks for the other one. -/
theorem Digit.eq_ofBit_not {d : Digit} {value : Bool} (hfixed : d ≠ .free)
    (hne : .ofBit value ≠ d) : d = .ofBit !value := by
  cases d <;> cases value <;> simp_all [ofBit]

namespace Cube

variable {a b c : Cube}

/-- The bits at which two cubes have different digits. -/
def differing (a b : Cube) : IndexSet :=
  (IndexSet.range (max a.width b.width)).filter fun bit => a.digit bit ≠ b.digit bit

theorem mem_differing {bit : Nat} : bit ∈ a.differing b ↔ a.digit bit ≠ b.digit bit := by
  simp only [differing, IndexSet.mem_filter, IndexSet.mem_range, decide_eq_true_eq,
    and_iff_right_iff_imp]
  intro hne
  -- beyond both widths the digits are free in both cubes
  by_contra hle
  have ha : a.width ≤ bit := by omega
  have hb : b.width ≤ bit := by omega
  rw [digit_of_width_le ha, digit_of_width_le hb] at hne
  exact hne rfl

/-! ## Distance -/

theorem differing_nil_left (b : Cube) : differing [] b = b.support := by
  ext bit
  rw [mem_differing, mem_support, digit_nil]
  exact ne_comm

theorem differing_nil_right (a : Cube) : differing a [] = a.support := by
  ext bit
  rw [mem_differing, mem_support, digit_nil]

theorem size_differing_cons (d e : Digit) (a b : Cube) :
    (differing (d :: a) (e :: b)).size = (if d = e then 0 else 1) + (differing a b).size := by
  have hmax : max (d :: a).length (e :: b).length = max a.length b.length + 1 :=
    Nat.succ_max_succ _ _
  show ((List.range (max (d :: a).length (e :: b).length)).filter _).length =
    _ + ((List.range (max a.length b.length)).filter _).length
  rw [hmax, List.range_succ_eq_map, ← List.countP_eq_length_filter, ← List.countP_eq_length_filter,
    List.countP_cons, List.countP_map, Nat.add_comm]
  congr 1
  by_cases hde : d = e
  · simp [hde]
  · simp [hde]

/-- **The distance of two cubes is the number of bits at which they differ.** -/
theorem distance_eq_size_differing (a b : Cube) : a.distance b = (a.differing b).size := by
  fun_induction distance a b with
  | case1 b => rw [differing_nil_left, size_support]
  | case2 a => rw [differing_nil_right, size_support]
  | case3 d a e b ih => rw [size_differing_cons, ih]

theorem distance_eq_one_iff : a.distance b = 1 ↔ ∃ bit, a.differing b = {bit} := by
  rw [distance_eq_size_differing, IndexSet.size_eq_one_iff]

/-! ## Which cubes merge

The two halves of a cube fix the same bits and differ where it was split. The other way round, a
cube that fixes the same bits as another and differs from it at one bit is its other half there, for
at that bit both are fixed. -/

theorem differing_halves {bit : Nat} (hbit : bit < c.width) (value : Bool) :
    (c.setDigit bit (.ofBit value)).differing (c.setDigit bit (.ofBit !value)) = {bit} := by
  ext i
  rw [mem_differing, digit_setDigit hbit, digit_setDigit hbit, IndexSet.mem_singleton]
  by_cases hi : i = bit
  · simp only [hi, if_true, iff_true]
    cases value <;> decide
  · simp [hi]

theorem support_halves {bit : Nat} (hbit : bit < c.width) (value : Bool) :
    (c.setDigit bit (.ofBit value)).support = (c.setDigit bit (.ofBit !value)).support := by
  ext i
  rw [mem_support_setDigit_ofBit hbit, mem_support_setDigit_ofBit hbit]

/-- Where cubes with the same fixed bits differ, both are fixed. -/
theorem ne_free_of_mem_differing {bit : Nat} (hsupport : a.support = b.support)
    (h : bit ∈ a.differing b) : a.digit bit ≠ .free ∧ b.digit bit ≠ .free := by
  rw [mem_differing] at h
  have hfree : a.digit bit = .free ↔ b.digit bit = .free := by
    rw [← not_iff_not, ← Ne, ← Ne, ← mem_support, ← mem_support, hsupport]
  exact ⟨fun ha => h (ha.trans (hfree.1 ha).symm), fun hb => h ((hfree.2 hb).trans hb.symm)⟩

theorem eq_setDigit_not_of_differing {bit : Nat} {value : Bool} (hwidth : a.width = b.width)
    (hsupport : a.support = b.support) (hdiffering : a.differing b = {bit})
    (hvalue : a.digit bit = .ofBit value) : b = a.setDigit bit (.ofBit !value) := by
  have hbit : bit < a.width := lt_width_of_digit_ne (hvalue ▸ Digit.ofBit_ne_free value)
  have hdigit : ∀ i, a.digit i ≠ b.digit i ↔ i = bit := fun i => by
    rw [← mem_differing, hdiffering, IndexSet.mem_singleton]
  apply eq_of_forall_digit_eq (by rw [width_setDigit, hwidth])
  intro i
  rw [digit_setDigit hbit]
  split
  · rename_i heq
    subst heq
    have hne : .ofBit value ≠ b.digit i := hvalue ▸ (hdigit i).2 rfl
    have hfixed := (ne_free_of_mem_differing hsupport (mem_differing.2 ((hdigit i).2 rfl))).2
    exact Digit.eq_ofBit_not hfixed hne
  · rename_i hne
    exact (not_ne_iff.1 (mt (hdigit i).1 hne)).symm

/--
**Two cubes merge exactly if they have one width and the same fixed bits and differ at one bit.**
This bit is free in the result.
-/
theorem merge?_eq_some_iff_differing :
    merge? a b = some c ↔ a.width = b.width ∧ a.support = b.support ∧
      ∃ bit, a.differing b = {bit} ∧ c = a.setDigit bit .free := by
  refine ⟨fun hmerge => ?_, fun ⟨hwidth, hsupport, bit, hdiffering, hc⟩ => ?_⟩
  · obtain ⟨bit, value, hbit, hfree, rfl, rfl⟩ := exists_halves_of_merge? hmerge
    refine ⟨by rw [width_setDigit, width_setDigit], support_halves hbit value, bit,
      differing_halves hbit value, ?_⟩
    rw [setDigit_setDigit, setDigit_eq_self hbit hfree]
  · have hmem : bit ∈ a.differing b := by rw [hdiffering, IndexSet.mem_singleton]
    have hfixed := (ne_free_of_mem_differing hsupport hmem).1
    obtain ⟨value, hvalue⟩ := exists_eq_ofBit hfixed
    rw [eq_setDigit_not_of_differing hwidth hsupport hdiffering hvalue, hc]
    exact merge?_setDigit_not (lt_width_of_digit_ne hfixed) hvalue

/-- **Widths, supports and distance tell which cubes merge.** -/
theorem isSome_merge?_iff :
    (merge? a b).isSome = true ↔
      a.width = b.width ∧ a.sameSupport b = true ∧ a.distance b = 1 := by
  rw [Option.isSome_iff_exists, sameSupport, decide_eq_true_iff, distance_eq_one_iff]
  simp only [merge?_eq_some_iff_differing, exists_and_left]
  refine and_congr_right fun _ => and_congr_right fun _ => ?_
  exact ⟨fun ⟨_, bit, hbit, _⟩ => ⟨bit, hbit⟩, fun ⟨bit, hbit⟩ => ⟨_, bit, hbit, rfl⟩⟩

/-- The widths have to be asked for: `1` and `-0` fix the same bit and differ nowhere else. -/
example : sameSupport [.one] [.zero, .free] = true ∧ distance [.one] [.zero, .free] = 1 ∧
    merge? [.one] [.zero, .free] = none := by decide

end Cube

end TwoLevel
