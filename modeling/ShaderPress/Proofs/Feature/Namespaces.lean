import Mathlib
import ShaderPress.Proofs.Feature.Coverage
import ShaderPress.Proofs.Feature.Roles

/-! # Namespaces of the blocks

A namespace is named after the draw, the fill rule and the features of its block, so two blocks
of one stage open the same namespace exactly if they are built for the same variant.  The full
plan lists no variant twice.  The canonical plan does so if a role is played by a feature that is
on in any case, and then the file holds a block twice.
-/
namespace ShaderPress

namespace BlockLine

/-- The marker of the stage is the macro that a block defines without a value. -/
def stageMarker? (block : List BlockLine) : Option (List Char) :=
  block.findSome? fun
    | defineMacro name => some name
    | _ => none

def namespaces (block : List BlockLine) : List (List Char) :=
  block.filterMap fun
    | openNamespace name => some name
    | _ => none

/-- No two blocks of one stage open the same namespace. -/
def Separate (blocks : List (List BlockLine)) : Prop :=
  blocks.Pairwise fun b c => stageMarker? b = stageMarker? c →
    ∀ name ∈ namespaces b, name ∉ namespaces c

end BlockLine

theorem Stage.marker_inj {s t : Stage} (h : s.marker = t.marker) : s = t := by
  revert h
  cases s <;> cases t <;> decide

namespace Variant
open BlockLine
variable {u : Universe} {v w : Variant}

theorem stageMarker?_block (u : Universe) (v : Variant) :
    stageMarker? (v.block u) = some v.stage.marker := by
  simp [stageMarker?, block]

theorem namespaces_block (u : Universe) (v : Variant) :
    namespaces (v.block u) = [v.namespaceName u.width] := by
  simp [namespaces, block, List.filterMap_append]

/-- Among the combinations that are built, the letter tells the draw and the fill rule. -/
theorem eq_of_namespaceLetter (hv : (v.stage, v.draw, v.fill) ∈ Universe.sweeps)
    (hw : (w.stage, w.draw, w.fill) ∈ Universe.sweeps) (h : v.namespaceLetter = w.namespaceLetter) :
    v.draw = w.draw ∧ v.fill = w.fill := by
  obtain ⟨stage, draw, fill, s⟩ := v
  obtain ⟨stage', draw', fill', t⟩ := w
  cases draw <;> cases fill <;> cases draw' <;> cases fill' <;>
    simp_all [Universe.sweeps, namespaceLetter]

theorem eq_of_namespaceName {m : Manifest} (h : m.resolve = .ok u)
    (hv : v ∈ u.allValidVariants) (hw : w ∈ u.allValidVariants) (hstage : v.stage = w.stage)
    (hname : v.namespaceName u.width = w.namespaceName u.width) : v = w := by
  obtain ⟨hletter, hmask⟩ := List.cons.inj hname
  obtain ⟨hv, hcheckv⟩ := Universe.mem_allValidVariants.mp hv
  obtain ⟨hw, hcheckw⟩ := Universe.mem_allValidVariants.mp hw
  obtain ⟨hdraw, hfill⟩ := eq_of_namespaceLetter hv hw hletter
  have hbelow : ∀ {v : Variant}, u.check v = .ok () → ∀ i, v.features.contains i = true →
      i < u.width := fun hcheck i hi => Manifest.lt_width h
    (FeatureSet.isSubset_iff.mp (Universe.isSubset_of_check hcheck) i hi)
  have hfeatures := FeatureSet.bitmask_inj (hbelow hcheckv) (hbelow hcheckw) hmask
  cases v
  cases w
  rw [Variant.mk.injEq]
  exact ⟨hstage, hdraw, hfill, hfeatures⟩

theorem separate_block_iff {m : Manifest} (h : m.resolve = .ok u) {vs : List Variant}
    (hvs : vs ⊆ u.allValidVariants) : Separate (vs.map (block u)) ↔ vs.Nodup := by
  rw [Separate, List.pairwise_map]
  refine List.Pairwise.iff_of_mem fun {v w} hv hw => ?_
  simp only [stageMarker?_block, namespaces_block, Option.some.injEq, List.mem_singleton,
    forall_eq]
  constructor
  · rintro hne rfl
    exact hne rfl rfl
  · intro hne hmarker hname
    exact hne (eq_of_namespaceName h (hvs hv) (hvs hw) (Stage.marker_inj hmarker) hname)

end Variant

namespace Universe
variable {m : Manifest} {u : Universe}

/-- The blocks of a file, one for each variant. -/
def blocks (u : Universe) (vs : List Variant) : List (List BlockLine) := vs.map (Variant.block u)

theorem source_eq_of_emitVariants {vs : List Variant} {source : List Char}
    (h : u.emitVariants vs = .ok source) :
    source = generatedHeader ++ BlockLine.render (u.blocks vs).flatten := by
  rw [(emitVariants_eq_ok_iff.mp h).2, List.flatMap_def, blocks]

/-- A file that is written from the full plan has a namespace of its own for each block of a
stage.  One that is written from the canonical plan has so exactly if the roles are apart. -/
theorem namespaces_separate_iff (h : m.resolve = .ok u) :
    (∀ source, u.emitVariants u.allValidVariants = .ok source →
      source = generatedHeader ++ BlockLine.render (u.blocks u.allValidVariants).flatten ∧
        BlockLine.Separate (u.blocks u.allValidVariants)) ∧
    ∀ source, u.emitVariants u.canonicalVariants = .ok source →
      source = generatedHeader ++ BlockLine.render (u.blocks u.canonicalVariants).flatten ∧
        (BlockLine.Separate (u.blocks u.canonicalVariants) ↔ m.RolesApart) := by
  have hu := Manifest.resolves_of_resolve h
  constructor
  · intro source hsource
    refine ⟨source_eq_of_emitVariants hsource, ?_⟩
    rw [blocks, Variant.separate_block_iff h (List.Subset.refl _)]
    exact nodup_allValidVariants u
  · intro source hsource
    refine ⟨source_eq_of_emitVariants hsource, ?_⟩
    have hchecks := (emitVariants_eq_ok_iff.mp hsource).1
    rw [blocks, Variant.separate_block_iff h (canonicalVariants_subset hchecks), rolesApart_iff h]
    exact nodup_canonicalVariants_iff_apart
      (Manifest.lt_of_role hu.declarable hu.interiorTriangles)
      (Manifest.lt_of_role hu.declarable hu.atlasBlit) hchecks

/-- The built-in manifest. -/
theorem namespaces_separate_of_canonical :
    ∃ u source, Manifest.canonical.resolve = .ok u ∧
      u.emitVariants u.canonicalVariants = .ok source ∧
      BlockLine.Separate (u.blocks u.canonicalVariants) := by
  let u : Universe := {
    features := Manifest.canonical.features, declared := .ofIndices (List.range 9),
    wholeProgram := .ofIndices [0, 1, 2, 3], fragmentOnly := .ofIndices [4, 5, 6],
    requires := [(5, 0), (6, 2)], nonAtlasCoverage := .ofIndices [3, 4, 5],
    nonImageMesh := .ofIndices [3, 4, 5, 7, 8], interiorTriangles := some 7, atlasBlit := some 8,
    includes := Includes.standard }
  have h : Manifest.canonical.resolve = .ok u := by
    simp only [u]
    cbv
  have hchecks : ∀ v ∈ u.canonicalVariants, u.check v = .ok () := by
    decide
  have hsource := emitVariants_of_checks hchecks
  exact ⟨u, _, h, hsource, ((namespaces_separate_iff h).2 _ hsource).2.mpr (by decide)⟩

/-- An interior role that a whole-program feature plays: three blocks stand in the file twice. -/
theorem not_namespaces_separate_of_shared_role :
    let m : Manifest := {
      features := [⟨['A'], 0⟩], wholeProgram := [['A']], interiorTriangles := some ['A'] }
    ∃ u source, m.resolve = .ok u ∧ u.emitVariants u.canonicalVariants = .ok source ∧
      ¬ BlockLine.Separate (u.blocks u.canonicalVariants) := by
  intro m
  let u : Universe := {
    features := [⟨['A'], 0⟩], declared := .ofIndices [0], wholeProgram := .ofIndices [0],
    fragmentOnly := .empty, requires := [], nonAtlasCoverage := .empty, nonImageMesh := .empty,
    interiorTriangles := some 0, atlasBlit := none, includes := Includes.standard }
  have h : m.resolve = .ok u := by
    simp only [m, u]
    cbv
  have hchecks : ∀ v ∈ u.canonicalVariants, u.check v = .ok () := by
    decide
  refine ⟨u, _, h, emitVariants_of_checks hchecks, ?_⟩
  rw [blocks, Variant.separate_block_iff h (canonicalVariants_subset hchecks)]
  decide

end Universe

end ShaderPress
