import Mathlib
import ShaderPress.Proofs.Feature.Checks
import ShaderPress.Proofs.Feature.Plan

/-! # The vertex program of a fragment program

A fragment program is drawn together with the vertex program of the same draw whose features are
its own without the fragment-only ones.  Leaving these out can only help all checks but one: a
feature that is left on may require one that was left out.  The full plan holds the vertex
program exactly where no dependency does that.
-/
namespace ShaderPress

namespace Universe
variable {u : Universe} {s t : FeatureSet}

/-- The vertex program that goes with a fragment program. -/
def vertexProgram (u : Universe) (v : Variant) : Variant :=
  ⟨.vertex, v.draw, .legacy, v.features.difference u.fragmentOnly⟩

theorem isUniqueVertex_difference (u : Universe) (s : FeatureSet) :
    u.isUniqueVertex (s.difference u.fragmentOnly) = true := by
  rw [isUniqueVertex_iff]
  intro i hi
  rw [FeatureSet.contains_difference, Bool.and_eq_true, Bool.not_eq_true'] at hi
  exact hi.2

/-- Of a valid set, the part outside another set is valid if no dependency leads from it into
that set. -/
theorem isValid_difference_iff (h : u.isValid s = true) : u.isValid (s.difference t) = true ↔
    ∀ d ∈ u.requires, s.contains d.1 = true → t.contains d.1 = false → t.contains d.2 = false := by
  obtain ⟨hdeclared, hrequires⟩ := isValid_iff.mp h
  have hsubset : (s.difference t).isSubset u.declared = true :=
    FeatureSet.isSubset_iff.mpr fun i hi =>
      FeatureSet.isSubset_iff.mp hdeclared i (FeatureSet.contains_of_difference hi)
  rw [isValid_iff, and_iff_right hsubset]
  refine forall₂_congr fun d hd => ?_
  have hmet := hrequires d hd
  simp only [FeatureSet.contains_difference, Bool.and_eq_true, Bool.not_eq_true', and_imp]
  exact forall₂_congr fun hs _ => and_iff_right (hmet hs)

theorem vertexProgram_mem_iff_isValid {v : Variant} (hv : v ∈ u.allValidVariants) :
    u.vertexProgram v ∈ u.allValidVariants ↔
      u.isValid (v.features.difference u.fragmentOnly) = true := by
  obtain ⟨-, hcheck⟩ := mem_allValidVariants.mp hv
  obtain ⟨-, -, hpath, hmesh⟩ := admits_iff.mp (check_eq_ok_iff_admits.mp hcheck)
  have hkind : (Stage.vertex, v.draw, FillRule.legacy) ∈ sweeps := by
    cases v.draw <;> decide
  rw [mem_allValidVariants, check_eq_ok_iff_admits, admits_iff]
  constructor
  · rintro ⟨-, hvalid, -⟩
    exact hvalid
  · intro hvalid
    exact ⟨hkind, hvalid, fun _ => isUniqueVertex_difference u v.features,
      fun hd => isAtlasCompatible_mono (fun _ => FeatureSet.contains_of_difference) (hpath hd),
      fun hd => isImageMeshCompatible_mono (fun _ => FeatureSet.contains_of_difference) (hmesh hd)⟩

/-- The full plan holds the vertex program of one of its programs exactly if, of the dependencies
that the manifest declares, none leads from a feature of the program that reaches the vertex
stage to one that does not. -/
theorem vertexProgram_mem_iff {m : Manifest} (h : m.resolve = .ok u) {v : Variant}
    (hv : v ∈ u.allValidVariants) : u.vertexProgram v ∈ u.allValidVariants ↔
      ∀ d ∈ m.requires, d.feature ∈ m.namesIn v.features → d.feature ∉ m.fragmentOnly →
        d.requires ∉ m.fragmentOnly := by
  have hu := Manifest.resolves_of_resolve h
  have hvalid := (admits_iff.mp (check_eq_ok_iff_admits.mp (mem_allValidVariants.mp hv).2)).1
  have hon : ∀ {name i}, m.lookup name = .ok i →
      (v.features.contains i = true ↔ name ∈ m.namesIn v.features) := fun hi =>
    (Manifest.mem_namesIn_iff hu.declarable hi).symm
  have hreaches : ∀ {name i}, m.lookup name = .ok i →
      (u.fragmentOnly.contains i = false ↔ name ∉ m.fragmentOnly) := fun hi => by
    rw [← Bool.not_eq_true, Manifest.contains_of_group hu.declarable hu.fragmentOnly hi]
  rw [vertexProgram_mem_iff_isValid hv, isValid_difference_iff hvalid]
  refine (forall_mem_iff_of_mapM hu.requires fun d p hdep => ?_).symm
  obtain ⟨hfeature, hrequired⟩ := Manifest.dependency_eq_ok_iff.mp hdep
  rw [← hon hfeature, ← hreaches hfeature, ← hreaches hrequired]

/-- A fragment-only feature that requires one of both stages. -/
theorem vertexProgram_mem_of_dependency :
    let m : Manifest := {
      features := [⟨['B'], 31⟩, ⟨['A'], 0⟩], fragmentOnly := [['B']], requires := [⟨['B'], ['A']⟩] }
    let v : Variant := ⟨.fragment, .path, .clockwise, .ofIndices [0, 31]⟩
    ∃ u, m.resolve = .ok u ∧ v ∈ u.allValidVariants ∧ u.vertexProgram v ∈ u.allValidVariants := by
  intro m v
  let u : Universe := {
    features := [⟨['A'], 0⟩, ⟨['B'], 31⟩], declared := .ofIndices [31, 0], wholeProgram := .empty,
    fragmentOnly := .ofIndices [31], requires := [(31, 0)], nonAtlasCoverage := .empty,
    nonImageMesh := .empty, interiorTriangles := none, atlasBlit := none,
    includes := Includes.standard }
  have h : m.resolve = .ok u := by
    simp only [m, u]
    cbv
  have hv : v ∈ u.allValidVariants := by
    refine mem_allValidVariants.mpr ⟨by decide, ?_⟩
    simp only [v, u]
    cbv
  exact ⟨u, h, hv, (vertexProgram_mem_iff h hv).mpr (by decide)⟩

/-- A feature of both stages that requires a fragment-only one: the program with both features is
built, and no vertex program goes with it. -/
theorem not_vertexProgram_mem_of_dependency :
    let m : Manifest := {
      features := [⟨['A'], 0⟩, ⟨['B'], 1⟩], fragmentOnly := [['B']], requires := [⟨['A'], ['B']⟩] }
    let v : Variant := ⟨.fragment, .path, .legacy, .ofIndices [0, 1]⟩
    ∃ u, m.resolve = .ok u ∧ v ∈ u.allValidVariants ∧ u.vertexProgram v ∉ u.allValidVariants := by
  intro m v
  let u : Universe := {
    features := [⟨['A'], 0⟩, ⟨['B'], 1⟩], declared := .ofIndices [0, 1], wholeProgram := .empty,
    fragmentOnly := .ofIndices [1], requires := [(0, 1)], nonAtlasCoverage := .empty,
    nonImageMesh := .empty, interiorTriangles := none, atlasBlit := none,
    includes := Includes.standard }
  have h : m.resolve = .ok u := by
    simp only [m, u]
    cbv
  have hv : v ∈ u.allValidVariants := by
    refine mem_allValidVariants.mpr ⟨by decide, ?_⟩
    simp only [v, u]
    cbv
  have hcheck : u.check (u.vertexProgram v) = .error ⟨.valid, ['p', '1', '0']⟩ := by
    simp only [v, u]
    cbv
  refine ⟨u, h, hv, fun hmem => ?_⟩
  cases hcheck.symm.trans (mem_allValidVariants.mp hmem).2

end Universe

end ShaderPress
