import Mathlib
import ShaderPress.Proofs.Feature.Plan

/-! # The full plan covers the canonical one

The canonical plan builds for the same stages, draws and fill rules as the full one.  One of its
variants is therefore in the full plan exactly if it passes the check before its block is
written, and the first one that is not is the one at which writing stops.
-/
namespace ShaderPress.Universe
variable {u : Universe} {v : Variant}

theorem kind_of_mem_tessellation {extra : FeatureSet} (hv : v ∈ u.tessellation extra) :
    (v.stage, v.draw, v.fill) ∈ sweeps := by
  simp only [tessellation, List.mem_cons, List.not_mem_nil, or_false] at hv
  rcases hv with rfl | rfl | rfl <;> simp [sweeps]

theorem kind_of_mem_atlasBlits (hv : v ∈ u.atlasBlits) : (v.stage, v.draw, v.fill) ∈ sweeps := by
  unfold atlasBlits at hv
  split at hv
  · cases hv
  · simp only [List.mem_cons, List.not_mem_nil, or_false] at hv
    rcases hv with rfl | rfl <;> simp [sweeps]

theorem kind_of_mem_canonicalVariants (hv : v ∈ u.canonicalVariants) :
    (v.stage, v.draw, v.fill) ∈ sweeps := by
  simp only [canonicalVariants, List.mem_append, List.mem_cons, List.not_mem_nil, or_false] at hv
  rcases hv with ((hv | hv) | hv) | rfl | rfl
  · exact kind_of_mem_tessellation hv
  · split at hv
    · cases hv
    · exact kind_of_mem_tessellation hv
  · exact kind_of_mem_atlasBlits hv
  · simp [sweeps]
  · simp [sweeps]

theorem mem_allValidVariants_of_canonical (hv : v ∈ u.canonicalVariants) :
    v ∈ u.allValidVariants ↔ u.check v = .ok () :=
  mem_allValidVariants.trans (and_iff_right (kind_of_mem_canonicalVariants hv))

theorem canonicalVariants_subset (hchecks : ∀ v ∈ u.canonicalVariants, u.check v = .ok ()) :
    u.canonicalVariants ⊆ u.allValidVariants :=
  fun v hv => (mem_allValidVariants_of_canonical hv).mpr (hchecks v hv)

/-- The canonical plan can be written exactly if the full plan covers it.  Otherwise the error
names the first of its variants that the full plan does not hold, with the first check that this
variant fails. -/
theorem canonicalVariants_covered (u : Universe) :
    ((∃ source, u.emitVariants u.canonicalVariants = .ok source) ↔
      ∀ v ∈ u.canonicalVariants, v ∈ u.allValidVariants) ∧
    ∀ e, u.emitVariants u.canonicalVariants = .error e ↔
      ∃ v, u.canonicalVariants.find? (fun v => decide (v ∉ u.allValidVariants)) = some v ∧
        e.namespaceName = v.namespaceName u.width ∧
        VariantCheck.all.find? (!VariantCheck.passes u v ·) = some e.check := by
  have hcovered : ∀ v ∈ u.canonicalVariants, (v ∈ u.allValidVariants ↔ u.check v = .ok ()) :=
    fun v => mem_allValidVariants_of_canonical
  constructor
  · simp only [emitVariants_eq_ok_iff, exists_and_left, exists_eq, and_true]
    exact forall₂_congr fun v hv => (hcovered v hv).symm
  · intro e
    rw [emitVariants_eq_error_iff]
    constructor
    · rintro ⟨before, v, after, heq, hbefore, hv⟩
      rw [heq, List.forall_mem_append, List.forall_mem_cons] at hcovered
      obtain ⟨hcheck, hname⟩ := check_eq_error_iff.mp hv
      refine ⟨v, List.find?_eq_some_iff_append.mpr ⟨?_, before, after, heq, ?_⟩, hname, hcheck⟩
      · rw [decide_eq_true_eq, hcovered.2.1, hv]
        exact fun h => by cases h
      · intro w hw
        rw [Bool.not_eq_true', decide_eq_false_iff_not, not_not, hcovered.1 w hw]
        exact hbefore w hw
    · rintro ⟨v, hfind, hname, hcheck⟩
      obtain ⟨-, before, after, heq, hbefore⟩ := List.find?_eq_some_iff_append.mp hfind
      rw [heq, List.forall_mem_append] at hcovered
      refine ⟨before, v, after, heq, fun w hw => ?_, check_eq_error_iff.mpr ⟨hcheck, hname⟩⟩
      have hw' := hbefore w hw
      rw [Bool.not_eq_true', decide_eq_false_iff_not, not_not] at hw'
      exact (hcovered.1 w hw).mp hw'

end ShaderPress.Universe
