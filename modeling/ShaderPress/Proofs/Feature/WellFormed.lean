import ShaderPress.Proofs.Feature.Resolved
import ShaderPress.Proofs.Token.Shapes

/-! # Which manifests resolve

A manifest is well formed if its features are words with distinct names and distinct indices below
32, and if every name it refers to is one of theirs.  Resolving succeeds exactly then, however many
faults a manifest has: a check fails on one of them, and a name that was not declared is not found.
-/
namespace ShaderPress.Manifest

/-- The names by which a manifest refers to its features. -/
def references (m : Manifest) : List (List Char) :=
  m.wholeProgram ++ m.fragmentOnly ++ m.requires.flatMap (fun d => [d.feature, d.requires]) ++
    m.nonAtlasCoverage ++ m.nonImageMesh ++ m.interiorTriangles.toList ++ m.atlasBlit.toList

structure WellFormed (m : Manifest) : Prop where
  isWord : ∀ f ∈ m.features, Pattern.IsWord f.name
  index_lt : ∀ f ∈ m.features, f.index < 32
  names : (m.features.map (·.name)).Nodup
  indices : (m.features.map (·.index)).Nodup
  declared : ∀ name ∈ m.references, name ∈ m.features.map (·.name)

theorem isMacroName_iff {name : List Char} : isMacroName name = true ↔ Pattern.IsWord name := by
  rw [isMacroName, Bool.and_eq_true, Bool.not_eq_true', List.isEmpty_eq_false_iff, beq_iff_eq]
  constructor
  · rintro ⟨hne, hword⟩
    rw [← hword]
    exact Pattern.isWord_word (by rwa [hword])
  · intro h
    have hword := @Pattern.word_append name [] h nofun
    rw [List.append_nil] at hword
    exact ⟨h.ne_nil, hword⟩

theorem declarable_iff {features : List Feature} : Declarable features ↔
    ((∀ f ∈ features, Pattern.IsWord f.name) ∧ ∀ f ∈ features, f.index < 32) ∧
      (features.map (·.name)).Nodup ∧ (features.map (·.index)).Nodup := by
  simp only [List.Nodup, List.pairwise_map, ← isMacroName_iff, ← List.pairwise_and_iff]
  exact ⟨fun h => ⟨⟨h.isMacroName, h.index_lt⟩, h.distinct⟩, fun h => ⟨h.1.1, h.1.2, h.2⟩⟩

theorem checkFeature_of_apart {before : List Feature} {f : Feature}
    (hname : isMacroName f.name = true) (hindex : f.index < FeatureSet.maxFeatures)
    (hapart : ∀ g ∈ before, g.name ≠ f.name ∧ g.index ≠ f.index) :
    checkFeature before f = .ok () := by
  have hfresh : before.any (·.name == f.name) = false := by
    simpa using fun g hg => (hapart g hg).1
  have hfree : before.find? (·.index == f.index) = none := by
    simpa using fun g hg => (hapart g hg).2
  rw [checkFeature, hname, hfresh, hfree, if_neg (Nat.not_le_of_lt hindex)]
  rfl

theorem checkFeatures_of_declarable {before fs : List Feature} (h : Declarable fs)
    (hapart : ∀ g ∈ before, ∀ f ∈ fs, g.name ≠ f.name ∧ g.index ≠ f.index) :
    checkFeatures before fs = .ok () := by
  induction fs generalizing before with
  | nil => rfl
  | cons f fs ih =>
    obtain ⟨hname, hnames⟩ := List.forall_mem_cons.mp h.isMacroName
    obtain ⟨hindex, hindices⟩ := List.forall_mem_cons.mp h.index_lt
    obtain ⟨hdistinct, hrest⟩ := List.pairwise_cons.mp h.distinct
    have hf : checkFeature before f = .ok () :=
      checkFeature_of_apart hname hindex fun g hg => hapart g hg f List.mem_cons_self
    rw [checkFeatures, hf]
    refine ih ⟨hnames, hindices, hrest⟩ fun g hg f' hf' => ?_
    rcases List.mem_append.mp hg with hg | hg
    · exact hapart g hg f' (List.mem_cons_of_mem f hf')
    · rw [List.mem_singleton.mp hg]
      exact hdistinct f' hf'

theorem checkFeatures_eq_ok_iff {features : List Feature} :
    checkFeatures [] features = .ok () ↔ Declarable features :=
  ⟨fun h => (checkFeatures_eq_ok h).1, fun h => checkFeatures_of_declarable h nofun⟩

theorem exists_find?_name {features : List Feature} {f : Feature} (hf : f ∈ features) :
    ∃ g, features.find? (·.name == f.name) = some g := by
  rw [← Option.isSome_iff_exists, List.find?_isSome]
  exact ⟨f, hf, beq_self_eq_true f.name⟩

section Names
variable {m : Manifest}

theorem exists_lookup_iff {name : List Char} :
    (∃ i, m.lookup name = .ok i) ↔ name ∈ m.features.map (·.name) := by
  rw [List.mem_map]
  constructor
  · rintro ⟨i, hi⟩
    obtain ⟨f, hf, hname, -⟩ := exists_of_lookup hi
    exact ⟨f, hf, hname⟩
  · rintro ⟨f, hf, rfl⟩
    obtain ⟨g, hg⟩ := exists_find?_name hf
    exact ⟨g.index, by rw [lookup, hg]⟩

theorem exists_group_iff {names : List (List Char)} :
    (∃ s, m.group names = .ok s) ↔ ∀ name ∈ names, name ∈ m.features.map (·.name) := by
  simp only [← exists_lookup_iff, ← exists_mapM_eq_ok_iff]
  constructor
  · rintro ⟨s, hs⟩
    obtain ⟨indices, hindices, -⟩ := exists_of_bind_eq_ok hs
    exact ⟨indices, hindices⟩
  · rintro ⟨indices, hindices⟩
    exact exists_bind_eq_ok_iff.mpr ⟨indices, hindices, _, rfl⟩

theorem exists_dependency_iff {d : Dependency} : (∃ p, m.dependency d = .ok p) ↔
    ∀ name ∈ [d.feature, d.requires], name ∈ m.features.map (·.name) := by
  simp only [List.forall_mem_cons, List.not_mem_nil, false_implies, implies_true, and_true,
    ← exists_lookup_iff, Prod.exists, dependency_eq_ok_iff, exists_and_left, exists_and_right]

theorem exists_role_iff {role : Option (List Char)} : (∃ r, m.role role = .ok r) ↔
    ∀ name ∈ role.toList, name ∈ m.features.map (·.name) := by
  cases role with
  | none => exact iff_of_true ⟨none, rfl⟩ nofun
  | some name =>
    simp only [Option.toList_some, List.forall_mem_singleton, ← exists_lookup_iff]
    constructor
    · rintro ⟨r, hr⟩
      rcases role_cases hr with ⟨h, -⟩ | ⟨other, i, hi, ⟨⟩, -⟩
      · cases h
      · exact ⟨i, hi⟩
    · rintro ⟨i, hi⟩
      exact ⟨some i, by rw [role, hi]; rfl⟩

theorem forall_references_iff {p : List Char → Prop} : (∀ name ∈ m.references, p name) ↔
    (((((((∀ name ∈ m.wholeProgram, p name) ∧ ∀ name ∈ m.fragmentOnly, p name) ∧
      ∀ d ∈ m.requires, ∀ name ∈ [d.feature, d.requires], p name) ∧
      ∀ name ∈ m.nonAtlasCoverage, p name) ∧ ∀ name ∈ m.nonImageMesh, p name) ∧
      ∀ name ∈ m.interiorTriangles.toList, p name) ∧ ∀ name ∈ m.atlasBlit.toList, p name) := by
  simp only [references, List.forall_mem_append, List.forall_mem_flatMap]

/-- Resolving succeeds exactly for manifests that are well formed. -/
theorem exists_resolve_iff : (∃ u, m.resolve = .ok u) ↔ m.WellFormed := by
  have hpure : ∀ u : Universe, (∃ u', (pure u : Except ManifestError Universe) = .ok u') ↔ True :=
    fun u => iff_true_intro ⟨u, rfl⟩
  -- whether a step succeeds does not depend on what the steps before it have given
  have hsteps : (∃ u, m.resolve = .ok u) ↔ Declarable m.features ∧
      ∀ name ∈ m.references, name ∈ m.features.map (·.name) := by
    simp only [resolve, exists_bind_eq_ok_iff, hpure, exists_and_right, and_true, Unique.exists_iff,
      PUnit.default_eq_unit, checkFeatures_eq_ok_iff, exists_group_iff, exists_role_iff,
      exists_mapM_eq_ok_iff, exists_dependency_iff, forall_references_iff, and_assoc]
  rw [hsteps, declarable_iff]
  exact ⟨fun ⟨⟨⟨hword, hindex⟩, hnames, hindices⟩, h⟩ => ⟨hword, hindex, hnames, hindices, h⟩,
    fun h => ⟨⟨⟨h.isWord, h.index_lt⟩, h.names, h.indices⟩, h.declared⟩⟩

end Names

end ShaderPress.Manifest
