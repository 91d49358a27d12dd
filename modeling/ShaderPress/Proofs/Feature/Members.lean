import Mathlib.Data.List.Basic
import ShaderPress.Proofs.Feature.Subsets

/-! # Sets of features by their members

A set of features is determined by the indices in it, and so are the operations on sets and
the questions asked of them.  Written with one digit for each index below a width, sets that
lie below this width are told apart.
-/
namespace ShaderPress.FeatureSet
variable {s t : FeatureSet} {i : Nat}

theorem ext_contains (h : ∀ i, s.contains i = t.contains i) : s = t := by
  have hbits : s.bits = t.bits := BitVec.eq_of_getLsbD_eq fun i _ => h i
  cases s
  cases t
  exact congrArg mk hbits

@[simp] theorem contains_empty (i : Nat) : empty.contains i = false := by
  simp [contains, empty]

theorem contains_difference (s t : FeatureSet) (i : Nat) :
    (s.difference t).contains i = (s.contains i && !t.contains i) := by
  by_cases hi : i < 32
  · simp [difference, contains, hi]
  · rw [contains_eq_false_of_le _ (Nat.le_of_not_lt hi),
      contains_eq_false_of_le _ (Nat.le_of_not_lt hi), Bool.false_and]

theorem contains_of_difference (h : (s.difference t).contains i = true) :
    s.contains i = true := by
  rw [contains_difference, Bool.and_eq_true] at h
  exact h.1

theorem contains_foldl_insert (indices : List Nat) (s : FeatureSet) (i : Nat) :
    (indices.foldl insert s).contains i = true ↔
      s.contains i = true ∨ i < maxFeatures ∧ i ∈ indices := by
  induction indices generalizing s with
  | nil => simp
  | cons j js ih =>
    rw [List.foldl_cons, ih, contains_insert, Bool.or_eq_true, Bool.and_eq_true, decide_eq_true_iff,
      decide_eq_true_iff, List.mem_cons]
    constructor
    · rintro ((h | ⟨h, rfl⟩) | ⟨h, hi⟩)
      · exact Or.inl h
      · exact Or.inr ⟨h, Or.inl rfl⟩
      · exact Or.inr ⟨h, Or.inr hi⟩
    · rintro (h | ⟨h, rfl | hi⟩)
      · exact Or.inl (Or.inl h)
      · exact Or.inl (Or.inr ⟨h, rfl⟩)
      · exact Or.inr ⟨h, hi⟩

theorem contains_ofIndices {indices : List Nat} {i : Nat} :
    (ofIndices indices).contains i = true ↔ i < maxFeatures ∧ i ∈ indices := by
  rw [ofIndices, contains_foldl_insert]
  simp [contains, empty]

theorem union_eq_left_iff : s.union t = s ↔ ∀ i, t.contains i = true → s.contains i = true := by
  constructor
  · intro h i hi
    rw [← h, contains_union, hi, Bool.or_true]
  · intro h
    refine ext_contains fun i => ?_
    rw [contains_union, Bool.or_eq_left_iff_imp]
    exact h i

theorem isEmpty_iff : s.isEmpty = true ↔ ∀ i, s.contains i = false := by
  rw [isEmpty, beq_iff_eq]
  constructor
  · intro h i
    simp [contains, h]
  · intro h
    exact BitVec.eq_of_getLsbD_eq fun i _ => by simpa [contains] using h i

theorem intersects_iff :
    s.intersects t = true ↔ ∃ i, s.contains i = true ∧ t.contains i = true := by
  have hand : s.intersects t = !isEmpty ⟨s.bits &&& t.bits⟩ := rfl
  rw [hand, Bool.not_eq_true', ← Bool.not_eq_true, isEmpty_iff, not_forall]
  exact exists_congr fun i => by simp [contains]

theorem intersects_eq_false_iff :
    s.intersects t = false ↔ ∀ i, s.contains i = true → t.contains i = false := by
  rw [← Bool.not_eq_true, intersects_iff]
  simp

theorem bitmask_inj {width : Nat} (hs : ∀ i, s.contains i = true → i < width)
    (ht : ∀ i, t.contains i = true → i < width) (h : s.bitmask width = t.bitmask width) :
    s = t := by
  refine ext_contains fun i => ?_
  by_cases hi : i < width
  · have hdigit := List.map_inj_left.mp h i (List.mem_range.mpr hi)
    cases hsi : s.contains i <;> cases hti : t.contains i <;> simp [hsi, hti] at hdigit ⊢
  · rw [Bool.eq_false_of_not_eq_true (mt (hs i) hi), Bool.eq_false_of_not_eq_true (mt (ht i) hi)]

end ShaderPress.FeatureSet
