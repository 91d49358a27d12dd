import Mathlib
import ShaderPress.Proofs.Feature.Checks
import ShaderPress.Proofs.Feature.Plan

/-! # What the roles add

The canonical plan builds path programs for the features that are on in any case, for these with
the interior role, and for the atlas role.  It lists a variant twice if a role adds nothing to
what is on without it.  Where the plan can be written, this is a matter of the vertex programs
alone: the features that fragment programs add to theirs are in no vertex program.
-/
namespace ShaderPress

namespace Universe
variable {u : Universe}

/-- The features of an atlas blit where `on` is what is on in any case. -/
def atlasSet (u : Universe) (on : FeatureSet) (a : Nat) : FeatureSet :=
  (on.union (u.interior.insert a)).difference u.nonAtlasCoverage

/-- The sets of features with which the canonical plan builds path programs of one stage. -/
def pathSets (u : Universe) (on : FeatureSet) : List FeatureSet :=
  on :: (if u.interior.isEmpty then [] else [on.union u.interior]) ++
    u.atlasBlit.toList.map (u.atlasSet on)

theorem nodup_canonicalVariants_iff : u.canonicalVariants.Nodup ↔
    (u.pathSets u.wholeProgram).Nodup ∧ (u.pathSets u.allFeatures).Nodup := by
  have hempty : ∀ s : FeatureSet, s.union .empty = s := fun s =>
    FeatureSet.union_eq_left_iff.mpr (by simp)
  cases hi : u.interior.isEmpty <;> cases ha : u.atlasBlit <;>
    simp [canonicalVariants, tessellation, atlasBlits, pathSets, atlasSet, hi, ha, hempty]
  tauto

section Roles
variable {on : FeatureSet} {a : Nat}
variable (hrole : ∀ i, u.interiorTriangles = some i → i < FeatureSet.maxFeatures)
variable (hlt : a < FeatureSet.maxFeatures)

include hrole in
theorem contains_interior {i : Nat} :
    u.interior.contains i = true ↔ u.interiorTriangles = some i := by
  rw [interior, FeatureSet.contains_ofIndices, Option.mem_toList]
  exact and_iff_right_of_imp (hrole i)

include hrole in
theorem union_interior_eq_iff : on.union u.interior = on ↔
    ∀ i, u.interiorTriangles = some i → on.contains i = true := by
  simp only [FeatureSet.union_eq_left_iff, contains_interior hrole]

include hrole in
theorem nodup_pathSets_iff : (u.pathSets on).Nodup ↔
    (∀ i, u.interiorTriangles = some i → on.contains i = false) ∧
      ∀ a, u.atlasBlit = some a → on ≠ u.atlasSet on a ∧ on.union u.interior ≠ u.atlasSet on a := by
  have hunion : on = on.union u.interior ↔ ∀ i, u.interiorTriangles = some i →
      on.contains i = true := eq_comm.trans (union_interior_eq_iff hrole)
  have hempty : u.interior.isEmpty = true ↔ u.interiorTriangles = none := by
    rw [FeatureSet.isEmpty_iff, Option.eq_none_iff_forall_ne_some]
    simp only [← Bool.not_eq_true, contains_interior hrole, ne_eq]
  cases hi : u.interiorTriangles with
  | none =>
    have hsame : on.union u.interior = on := (union_interior_eq_iff hrole).mpr (by simp [hi])
    cases ha : u.atlasBlit <;> simp [pathSets, hempty, hi, ha, hsame]
  | some i =>
    rw [hi] at hunion hempty
    cases ha : u.atlasBlit <;> simp [pathSets, hempty, ha, hunion]
    exact and_assoc

include hlt in
theorem contains_atlasSet (i : Nat) : (u.atlasSet on a).contains i = true ↔
    ((on.union u.interior).contains i = true ∨ a = i) ∧ u.nonAtlasCoverage.contains i = false := by
  rw [atlasSet, FeatureSet.contains_difference, FeatureSet.contains_union,
    FeatureSet.contains_union, FeatureSet.contains_insert, decide_eq_true (show a < 32 from hlt)]
  simp [or_assoc]

/-- The set for the atlas holds the role's feature and the other sets do not, or it lost a feature
that is on in any case. -/
def AtlasApart (u : Universe) (on : FeatureSet) (a : Nat) : Prop :=
  (u.nonAtlasCoverage.contains a = false ∧ (on.union u.interior).contains a = false) ∨
    ∃ i, on.contains i = true ∧ u.nonAtlasCoverage.contains i = true

include hlt in
theorem atlasSet_ne (h : u.AtlasApart on a) :
    on ≠ u.atlasSet on a ∧ on.union u.interior ≠ u.atlasSet on a := by
  have hsub : ∀ i, on.contains i = true → (on.union u.interior).contains i = true := by
    intro i hi
    rw [FeatureSet.contains_union, hi, Bool.true_or]
  have hne : ∀ s : FeatureSet, (∀ i, on.contains i = true → s.contains i = true) →
      (∀ i, s.contains i = true → (on.union u.interior).contains i = true) →
      s ≠ u.atlasSet on a := by
    rintro s hon hs rfl
    rcases h with ⟨hcoverage, hoff⟩ | ⟨i, hi, hcoverage⟩
    · have hin := hs a ((contains_atlasSet hlt a).mpr ⟨Or.inr rfl, hcoverage⟩)
      rw [hoff] at hin
      cases hin
    · have hout := ((contains_atlasSet hlt i).mp (hon i hi)).2
      rw [hcoverage] at hout
      cases hout
  exact ⟨hne on (fun _ => id) hsub, hne _ hsub fun _ => id⟩

include hlt in
theorem atlasSet_eq_of_contains (ha : u.atlasBlit = some a)
    (hcompatible : u.isAtlasCompatible (on.union u.interior) = true)
    (hon : (on.union u.interior).contains a = true) : u.atlasSet on a = on.union u.interior := by
  refine FeatureSet.ext_contains fun i => Bool.eq_iff_iff.mpr ?_
  rw [contains_atlasSet hlt]
  constructor
  · rintro ⟨hi | rfl, -⟩
    · exact hi
    · exact hon
  · intro hi
    exact ⟨Or.inl hi, isAtlasCompatible_iff.mp hcompatible a ha hon i hi⟩

include hrole hlt in
/-- If the role's feature excludes itself, only the interior role can make a difference. -/
theorem atlasSet_eq_of_coverage (hcoverage : u.nonAtlasCoverage.contains a = true)
    (hclear : ∀ i, on.contains i = true → u.nonAtlasCoverage.contains i = false) :
    u.atlasSet on a = on ∨ u.atlasSet on a = on.union u.interior := by
  have hself : ∀ i, u.nonAtlasCoverage.contains i = false → a ≠ i := by
    rintro i hi rfl
    rw [hcoverage] at hi
    cases hi
  by_cases hkept : ∀ i, u.interior.contains i = true → u.nonAtlasCoverage.contains i = false
  · refine Or.inr (FeatureSet.ext_contains fun i => Bool.eq_iff_iff.mpr ?_)
    rw [contains_atlasSet hlt]
    constructor
    · rintro ⟨hi, hout⟩
      exact hi.resolve_right (hself i hout)
    · intro hi
      refine ⟨Or.inl hi, ?_⟩
      rw [FeatureSet.contains_union, Bool.or_eq_true] at hi
      exact hi.elim (hclear i) (hkept i)
  · push Not at hkept
    obtain ⟨j, hj, hlost⟩ := hkept
    refine Or.inl (FeatureSet.ext_contains fun i => Bool.eq_iff_iff.mpr ?_)
    rw [contains_atlasSet hlt]
    constructor
    · rintro ⟨hi, hout⟩
      replace hi := hi.resolve_right (hself i hout)
      rw [FeatureSet.contains_union, Bool.or_eq_true] at hi
      refine hi.resolve_right fun hi => hlost ?_
      rw [contains_interior hrole] at hi hj
      exact Option.some.inj (hi.symm.trans hj) ▸ hout
    · intro hi
      rw [FeatureSet.contains_union, hi]
      exact ⟨Or.inl rfl, hclear i hi⟩

include hrole hlt in
theorem atlasSet_ne_iff (ha : u.atlasBlit = some a)
    (hcompatible : u.isAtlasCompatible (on.union u.interior) = true) :
    on ≠ u.atlasSet on a ∧ on.union u.interior ≠ u.atlasSet on a ↔ u.AtlasApart on a := by
  refine ⟨fun hne => ?_, atlasSet_ne hlt⟩
  by_contra hnot
  rw [AtlasApart, not_or, not_and, Bool.not_eq_false, not_exists] at hnot
  obtain ⟨hon, hclear⟩ := hnot
  cases hcoverage : u.nonAtlasCoverage.contains a with
  | false => exact hne.2 (atlasSet_eq_of_contains hlt ha hcompatible (hon hcoverage)).symm
  | true =>
    refine (atlasSet_eq_of_coverage hrole hlt hcoverage fun i hi => ?_).elim
      (fun heq => hne.1 heq.symm) fun heq => hne.2 heq.symm
    exact Bool.eq_false_of_not_eq_true fun hi' => hclear i ⟨hi, hi'⟩

theorem vertex_mem_canonicalVariants (u : Universe) :
    ⟨.vertex, .path, .legacy, u.wholeProgram.union u.interior⟩ ∈ u.canonicalVariants := by
  cases hi : u.interior.isEmpty with
  | true =>
    have hempty : u.interior = .empty := FeatureSet.ext_contains fun i => by
      rw [FeatureSet.isEmpty_iff.mp hi i, FeatureSet.contains_empty]
    simp [canonicalVariants, tessellation, hempty]
  | false => simp [canonicalVariants, tessellation, hi]

theorem atlasBlit_mem_canonicalVariants (ha : u.atlasBlit = some a) :
    ⟨.vertex, .path, .legacy, u.atlasSet u.wholeProgram a⟩ ∈ u.canonicalVariants := by
  simp [canonicalVariants, atlasBlits, atlasSet, ha]

include hrole in
/-- Where the canonical plan can be written it lists a variant twice only if a role adds nothing to
the features that are on in any case. -/
theorem nodup_canonicalVariants_iff_apart
    (hblit : ∀ a, u.atlasBlit = some a → a < FeatureSet.maxFeatures)
    (hchecks : ∀ v ∈ u.canonicalVariants, u.check v = .ok ()) : u.canonicalVariants.Nodup ↔
      (∀ i, u.interiorTriangles = some i → u.wholeProgram.contains i = false) ∧
      ∀ a, u.atlasBlit = some a → u.AtlasApart u.wholeProgram a := by
  have hadmits : ∀ s : FeatureSet, ⟨.vertex, .path, .legacy, s⟩ ∈ u.canonicalVariants →
      u.isUniqueVertex s = true ∧ u.isAtlasCompatible s = true := fun s hs => by
    obtain ⟨-, hunique, hcompatible, -⟩ :=
      admits_iff.mp (check_eq_ok_iff_admits.mp (hchecks _ hs))
    exact ⟨hunique rfl, hcompatible rfl⟩
  obtain ⟨hunique, hcompatible⟩ := hadmits _ (vertex_mem_canonicalVariants u)
  rw [isUniqueVertex_iff] at hunique
  have hvertex : (∀ a, u.atlasBlit = some a →
      u.wholeProgram ≠ u.atlasSet u.wholeProgram a ∧
        u.wholeProgram.union u.interior ≠ u.atlasSet u.wholeProgram a) ↔
      ∀ a, u.atlasBlit = some a → u.AtlasApart u.wholeProgram a :=
    forall₂_congr fun a ha => atlasSet_ne_iff hrole (hblit a ha) ha hcompatible
  rw [nodup_canonicalVariants_iff, nodup_pathSets_iff hrole, nodup_pathSets_iff hrole, hvertex]
  refine and_iff_left_of_imp ?_
  -- the fragment stage adds features that no vertex program has, so it is apart as well
  rintro ⟨hinterior, hatlas⟩
  refine ⟨fun i hi => ?_, fun a ha => atlasSet_ne (hblit a ha) ?_⟩
  · have hon : (u.wholeProgram.union u.interior).contains i = true := by
      rw [FeatureSet.contains_union, (contains_interior hrole).mpr hi, Bool.or_true]
    rw [allFeatures, FeatureSet.contains_union, hinterior i hi, hunique i hon, Bool.or_self]
  · rcases hatlas a ha with ⟨hcoverage, hoff⟩ | ⟨i, hi, hcoverage⟩
    · have hin : (u.atlasSet u.wholeProgram a).contains a = true :=
        (contains_atlasSet (hblit a ha) a).mpr ⟨Or.inr rfl, hcoverage⟩
      have hatlasUnique := (hadmits _ (atlasBlit_mem_canonicalVariants ha)).1
      have hfragment := isUniqueVertex_iff.mp hatlasUnique a hin
      rw [FeatureSet.contains_union, Bool.or_eq_false_iff] at hoff
      refine Or.inl ⟨hcoverage, ?_⟩
      rw [allFeatures, FeatureSet.contains_union, FeatureSet.contains_union, hoff.1, hoff.2,
        hfragment]
      rfl
    · refine Or.inr ⟨i, ?_, hcoverage⟩
      rw [allFeatures, FeatureSet.contains_union, hi, Bool.true_or]

end Roles

end Universe

/-- Each role adds something to the features that are on in any case: the interior role's feature
is none of these, and the atlas role either brings a feature of its own or drops one of these. -/
def Manifest.RolesApart (m : Manifest) : Prop :=
  (∀ name ∈ m.interiorTriangles, name ∉ m.wholeProgram) ∧
  ∀ name ∈ m.atlasBlit,
    (name ∉ m.nonAtlasCoverage ∧ name ∉ m.wholeProgram ∧ m.interiorTriangles ≠ some name) ∨
      ∃ other ∈ m.wholeProgram, other ∈ m.nonAtlasCoverage

instance (m : Manifest) : Decidable m.RolesApart := inferInstanceAs (Decidable (_ ∧ _))

namespace Universe
variable {m : Manifest} {u : Universe}

theorem rolesApart_iff (h : m.resolve = .ok u) : m.RolesApart ↔
    (∀ i, u.interiorTriangles = some i → u.wholeProgram.contains i = false) ∧
      ∀ a, u.atlasBlit = some a → u.AtlasApart u.wholeProgram a := by
  have hu := Manifest.resolves_of_resolve h
  have hoff : ∀ {names s}, m.group names = .ok s → ∀ name i, m.lookup name = .ok i →
      (name ∉ names ↔ s.contains i = false) := fun hs name i hi => by
    rw [← Bool.not_eq_true, Manifest.contains_of_group hu.declarable hs hi]
  have hrole := Manifest.lt_of_role hu.declarable hu.interiorTriangles
  refine and_congr (Manifest.forall_role_iff hu.interiorTriangles (hoff hu.wholeProgram))
    (Manifest.forall_role_iff hu.atlasBlit fun name a ha => ?_)
  rw [AtlasApart, FeatureSet.contains_union, Bool.or_eq_false_iff, ← hoff hu.wholeProgram name a ha,
    ← hoff hu.nonAtlasCoverage name a ha, ← Bool.not_eq_true (u.interior.contains a),
    contains_interior hrole, Manifest.role_eq_some_iff hu.declarable hu.interiorTriangles ha,
    ← FeatureSet.intersects_iff,
    Manifest.intersects_of_group hu.declarable hu.wholeProgram hu.nonAtlasCoverage]

end Universe

end ShaderPress
