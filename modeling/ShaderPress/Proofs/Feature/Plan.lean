import Mathlib
import ShaderPress.Proofs.Feature.Emission
import ShaderPress.Proofs.Feature.Resolved

/-! # The full plan

A sweep walks all subsets of the declared features and keeps those that make a program, so
it lists these in ascending order and no other set.  What a sweep admits is what the check
before writing a block asks for: the full plan can always be written.
-/
namespace ShaderPress

namespace Universe
variable {u : Universe} {stage : Stage} {draw : Draw} {fill : FillRule} {v : Variant}

theorem admits_iff {s : FeatureSet} : u.admits stage draw s = true ↔
    u.isValid s = true ∧ (stage = .vertex → u.isUniqueVertex s = true) ∧
      (draw = .path → u.isAtlasCompatible s = true) ∧
      (draw = .imageMesh → u.isImageMeshCompatible s = true) := by
  cases stage <;> cases draw <;> simp [admits, and_assoc]

theorem mem_sweep : v ∈ u.sweep stage draw fill ↔
    (v.stage = stage ∧ v.draw = draw ∧ v.fill = fill) ∧
      v.features.isSubset u.declared = true ∧ u.admits stage draw v.features = true := by
  rw [sweep, List.mem_map]
  constructor
  · rintro ⟨s, hs, rfl⟩
    rw [List.mem_filter, FeatureSet.mem_subsets] at hs
    exact ⟨⟨rfl, rfl, rfl⟩, hs⟩
  · rintro ⟨⟨rfl, rfl, rfl⟩, hs⟩
    exact ⟨v.features, List.mem_filter.mpr ⟨FeatureSet.mem_subsets.mpr hs.1, hs.2⟩, rfl⟩

theorem pairwise_sweep (u : Universe) (stage : Stage) (draw : Draw) (fill : FillRule) :
    (u.sweep stage draw fill).Pairwise fun v w => v.features.mask < w.features.mask :=
  List.pairwise_map.mpr ((FeatureSet.pairwise_subsets u.declared).filter _)

/-- What is built: a stage, a draw and a fill rule for each of the five sweeps. -/
def sweeps : List (Stage × Draw × FillRule) :=
  [(.vertex, .path, .legacy), (.fragment, .path, .legacy), (.fragment, .path, .clockwise),
    (.vertex, .imageMesh, .legacy), (.fragment, .imageMesh, .legacy)]

theorem allValidVariants_eq (u : Universe) :
    u.allValidVariants = sweeps.flatMap fun (stage, draw, fill) => u.sweep stage draw fill := by
  simp [allValidVariants, sweeps]

theorem nodup_sweep (u : Universe) (stage : Stage) (draw : Draw) (fill : FillRule) :
    (u.sweep stage draw fill).Nodup := by
  refine (pairwise_sweep u stage draw fill).imp fun hlt heq => ?_
  rw [heq] at hlt
  exact Nat.lt_irrefl _ hlt

theorem nodup_allValidVariants (u : Universe) : u.allValidVariants.Nodup := by
  rw [allValidVariants_eq, List.nodup_flatMap]
  refine ⟨fun p _ => nodup_sweep u p.1 p.2.1 p.2.2, ?_⟩
  -- a variant tells from which sweep it is
  have hdistinct : sweeps.Pairwise (· ≠ ·) := by decide
  refine hdistinct.imp fun {p q} hne v hp hq => hne ?_
  obtain ⟨⟨hs, hd, hf⟩, -⟩ := mem_sweep.mp hp
  obtain ⟨⟨hs', hd', hf'⟩, -⟩ := mem_sweep.mp hq
  exact Prod.ext (hs.symm.trans hs') (Prod.ext (hd.symm.trans hd') (hf.symm.trans hf'))

/-- The check before a block is written asks for what the sweeps go by. -/
theorem check_eq_ok_iff_admits :
    u.check v = .ok () ↔ u.admits v.stage v.draw v.features = true := by
  rw [check_eq_ok_iff, admits_iff]
  constructor
  · intro h
    refine ⟨h .valid, fun hs => ?_, fun hd => ?_, fun hd => ?_⟩
    · simpa [VariantCheck.passes, hs] using h .vertexIsUnique
    · simpa [VariantCheck.passes, hd] using h .atlasCompatible
    · simpa [VariantCheck.passes, hd] using h .imageMeshCompatible
  · rintro ⟨hvalid, hvertex, hpath, hmesh⟩ c
    cases c with
    | valid => exact hvalid
    | vertexIsUnique =>
      rw [VariantCheck.passes, Bool.or_eq_true, bne_iff_ne]
      exact or_iff_not_imp_left.mpr fun hs => hvertex (not_not.mp hs)
    | imageMeshCompatible =>
      rw [VariantCheck.passes, Bool.or_eq_true, bne_iff_ne]
      exact or_iff_not_imp_left.mpr fun hd => hmesh (not_not.mp hd)
    | atlasCompatible =>
      rw [VariantCheck.passes, Bool.or_eq_true, bne_iff_ne]
      exact or_iff_not_imp_left.mpr fun hd => hpath (not_not.mp hd)

theorem isSubset_of_check (h : u.check v = .ok ()) : v.features.isSubset u.declared = true := by
  have hvalid := (admits_iff.mp (check_eq_ok_iff_admits.mp h)).1
  rw [isValid, Bool.and_eq_true] at hvalid
  exact hvalid.1

/-- The full plan holds what can be written, for the five combinations that are swept. -/
theorem mem_allValidVariants :
    v ∈ u.allValidVariants ↔ (v.stage, v.draw, v.fill) ∈ sweeps ∧ u.check v = .ok () := by
  rw [allValidVariants_eq, List.mem_flatMap]
  constructor
  · rintro ⟨p, hp, hv⟩
    obtain ⟨⟨hstage, hdraw, hfill⟩, -, hadmits⟩ := mem_sweep.mp hv
    rw [check_eq_ok_iff_admits, hstage, hdraw, hfill]
    exact ⟨hp, hadmits⟩
  · rintro ⟨hp, hcheck⟩
    exact ⟨_, hp, mem_sweep.mpr
      ⟨⟨rfl, rfl, rfl⟩, isSubset_of_check hcheck, check_eq_ok_iff_admits.mp hcheck⟩⟩

theorem emitVariants_allValidVariants_isOk (u : Universe) :
    ∃ source, u.emitVariants u.allValidVariants = .ok source :=
  ⟨_, emitVariants_of_checks fun _ hv => (mem_allValidVariants.mp hv).2⟩

/-- A sweep lists in ascending order of their masks, and so each once, precisely the sets of
declared features that make a program for its stage and draw.  The full plan is five sweeps in a
row, lists no variant twice and can be written. -/
theorem plan_exact {m : Manifest} {u : Universe} (h : m.resolve = .ok u) :
    (∀ stage draw fill,
      (u.sweep stage draw fill).Pairwise (fun v w => v.features.mask < w.features.mask) ∧
      ∀ v, v ∈ u.sweep stage draw fill ↔
        (v.stage = stage ∧ v.draw = draw ∧ v.fill = fill) ∧
        (∀ i, v.features.contains i = true → ∃ f ∈ m.features, f.index = i) ∧
        u.isValid v.features = true ∧
        (stage = .vertex → u.isUniqueVertex v.features = true) ∧
        (draw = .path → u.isAtlasCompatible v.features = true) ∧
        (draw = .imageMesh → u.isImageMeshCompatible v.features = true)) ∧
    u.allValidVariants = (sweeps.flatMap fun (stage, draw, fill) => u.sweep stage draw fill) ∧
    u.allValidVariants.Nodup ∧
    ∃ source, u.emitVariants u.allValidVariants = .ok source := by
  refine ⟨fun stage draw fill => ⟨pairwise_sweep u stage draw fill, fun v => ?_⟩,
    allValidVariants_eq u, nodup_allValidVariants u, emitVariants_allValidVariants_isOk u⟩
  rw [mem_sweep, admits_iff, FeatureSet.isSubset_iff]
  simp only [Manifest.contains_declared h]

/-- A dependency between the lowest and the highest feature, of which the lower one does not
reach the vertex stage. -/
theorem plan_exact_of_dependency :
    let m : Manifest := {
      features := [⟨['B'], 31⟩, ⟨['A'], 0⟩], fragmentOnly := [['A']], requires := [⟨['A'], ['B']⟩] }
    let u : Universe := {
      features := [⟨['A'], 0⟩, ⟨['B'], 31⟩], declared := .ofIndices [31, 0], wholeProgram := .empty,
      fragmentOnly := .ofIndices [0], requires := [(0, 31)], nonAtlasCoverage := .empty,
      nonImageMesh := .empty, interiorTriangles := none, atlasBlit := none,
      includes := Includes.standard }
    m.resolve = .ok u ∧ u.allValidVariants.Nodup ∧
      ∃ source, u.emitVariants u.allValidVariants = .ok source := by
  intro m u
  have h : m.resolve = .ok u := by
    simp only [m, u]
    cbv
  exact ⟨h, (plan_exact h).2.2⟩

end Universe

end ShaderPress
