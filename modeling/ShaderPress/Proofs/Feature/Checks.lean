import ShaderPress.Feature.Universe
import ShaderPress.Proofs.Feature.Members

/-! # What is asked of a set of features

A set makes a program if its features are declared and it is closed under the dependencies.  The
other questions forbid features: those without effect on the stage, those that the draw cannot
use, and beside the atlas role the other coverage features.  What forbids features holds of every
smaller set as well.
-/
namespace ShaderPress.Universe
variable {u : Universe} {s t : FeatureSet}

theorem isValid_iff : u.isValid s = true ↔ s.isSubset u.declared = true ∧
    ∀ d ∈ u.requires, s.contains d.1 = true → s.contains d.2 = true := by
  rw [isValid, Bool.and_eq_true, List.all_eq_true]
  refine and_congr_right fun _ => forall₂_congr fun d _ => ?_
  rw [Bool.or_eq_true, Bool.not_eq_true', ← Bool.not_eq_true]
  exact imp_iff_not_or.symm

theorem isUniqueVertex_iff : u.isUniqueVertex s = true ↔
    ∀ i, s.contains i = true → u.fragmentOnly.contains i = false := by
  rw [isUniqueVertex, Bool.not_eq_true', FeatureSet.intersects_eq_false_iff]

theorem isImageMeshCompatible_iff : u.isImageMeshCompatible s = true ↔
    ∀ i, s.contains i = true → u.nonImageMesh.contains i = false := by
  rw [isImageMeshCompatible, Bool.not_eq_true', FeatureSet.intersects_eq_false_iff]

theorem isAtlasCompatible_iff : u.isAtlasCompatible s = true ↔
    ∀ a, u.atlasBlit = some a → s.contains a = true →
      ∀ i, s.contains i = true → u.nonAtlasCoverage.contains i = false := by
  rw [isAtlasCompatible, Bool.or_eq_true, Bool.not_eq_true', Bool.not_eq_true',
    ← Bool.not_eq_true, usesAtlasBlit, Option.any_eq_true, FeatureSet.intersects_eq_false_iff,
    ← imp_iff_not_or]
  exact ⟨fun h a ha hs => h ⟨a, ha, hs⟩, fun h ⟨a, ha, hs⟩ => h a ha hs⟩

theorem isImageMeshCompatible_mono (hst : ∀ i, s.contains i = true → t.contains i = true)
    (h : u.isImageMeshCompatible t = true) : u.isImageMeshCompatible s = true := by
  rw [isImageMeshCompatible_iff] at h ⊢
  exact fun i hi => h i (hst i hi)

theorem isAtlasCompatible_mono (hst : ∀ i, s.contains i = true → t.contains i = true)
    (h : u.isAtlasCompatible t = true) : u.isAtlasCompatible s = true := by
  rw [isAtlasCompatible_iff] at h ⊢
  exact fun a ha hs i hi => h a ha (hst a hs) i (hst i hi)

end ShaderPress.Universe
