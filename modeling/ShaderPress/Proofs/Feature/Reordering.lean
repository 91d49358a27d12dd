import ShaderPress.Proofs.Feature.Checks
import ShaderPress.Proofs.Feature.WellFormed

/-! # The order in a manifest

Resolving keeps nothing of the order in which a manifest lists its features and names: the features
are sorted by their indices, which are distinct, and groups become sets.  Only the dependencies stay
in the order in which they were listed, and nothing that is asked of a universe depends on that.
-/
namespace ShaderPress

namespace Universe

/-- What a universe promises: its features stand in order, everything else lies among them, and its
width is a bound of their indices. -/
structure Tidy (u : Universe) : Prop where
  ascending : u.features.Pairwise fun f g => f.index < g.index
  declared : ∀ i, u.declared.contains i = true ↔ ∃ f ∈ u.features, f.index = i
  wholeProgram : u.wholeProgram.isSubset u.declared = true
  fragmentOnly : u.fragmentOnly.isSubset u.declared = true
  nonAtlasCoverage : u.nonAtlasCoverage.isSubset u.declared = true
  nonImageMesh : u.nonImageMesh.isSubset u.declared = true
  interiorTriangles : ∀ i ∈ u.interiorTriangles, u.declared.contains i = true
  atlasBlit : ∀ i ∈ u.atlasBlit, u.declared.contains i = true
  width_le : u.width ≤ 32
  index_lt : ∀ f ∈ u.features, f.index < u.width

/-- Two universes that differ in the order of their dependencies at most, and give the same answers
to all that can be asked. -/
structure Agree (u u' : Universe) : Prop where
  features : u.features = u'.features
  declared : u.declared = u'.declared
  width : u.width = u'.width
  wholeProgram : u.wholeProgram = u'.wholeProgram
  fragmentOnly : u.fragmentOnly = u'.fragmentOnly
  allFeatures : u.allFeatures = u'.allFeatures
  requires : u.requires.Perm u'.requires
  nonAtlasCoverage : u.nonAtlasCoverage = u'.nonAtlasCoverage
  nonImageMesh : u.nonImageMesh = u'.nonImageMesh
  interiorTriangles : u.interiorTriangles = u'.interiorTriangles
  atlasBlit : u.atlasBlit = u'.atlasBlit
  includes : u.includes = u'.includes
  members : u.members = u'.members
  isValid : u.isValid = u'.isValid
  isUniqueVertex : u.isUniqueVertex = u'.isUniqueVertex
  isImageMeshCompatible : u.isImageMeshCompatible = u'.isImageMeshCompatible
  usesAtlasBlit : u.usesAtlasBlit = u'.usesAtlasBlit
  isAtlasCompatible : u.isAtlasCompatible = u'.isAtlasCompatible

/-- Only validity is asked of the dependencies, and it asks for all of them. -/
theorem agree_of_perm {u : Universe} {requires : List (Nat × Nat)}
    (h : u.requires.Perm requires) : u.Agree { u with requires } := by
  have hvalid : u.isValid = ({ u with requires } : Universe).isValid := by
    funext s
    rw [Bool.eq_iff_iff, isValid_iff, isValid_iff]
    exact and_congr_right fun _ => forall_congr' fun d => by rw [h.mem_iff]
  exact ⟨rfl, rfl, rfl, rfl, rfl, rfl, h, rfl, rfl, rfl, rfl, rfl, rfl, hvalid, rfl, rfl, rfl, rfl⟩

end Universe

namespace Manifest

/-- The same manifest with its features, the names in its groups and its dependencies listed in
another order. -/
structure Reordered (m m' : Manifest) : Prop where
  features : m.features.Perm m'.features
  wholeProgram : m.wholeProgram.Perm m'.wholeProgram
  fragmentOnly : m.fragmentOnly.Perm m'.fragmentOnly
  requires : m.requires.Perm m'.requires
  nonAtlasCoverage : m.nonAtlasCoverage.Perm m'.nonAtlasCoverage
  nonImageMesh : m.nonImageMesh.Perm m'.nonImageMesh
  interiorTriangles : m.interiorTriangles = m'.interiorTriangles
  atlasBlit : m.atlasBlit = m'.atlasBlit
  includes : m.includes = m'.includes

section
variable {m m' : Manifest} {u u' : Universe}

theorem Resolves.ascending (h : Resolves m u) :
    u.features.Pairwise fun f g => f.index < g.index := by
  have hdistinct : (u.features.map (·.index)).Nodup :=
    (h.features_perm.map _).nodup_iff.mpr (declarable_iff.mp h.declarable).2.2
  rw [List.Nodup, List.pairwise_map] at hdistinct
  exact (h.features_sorted.and hdistinct).imp fun hle => Nat.lt_of_le_of_ne hle.1 hle.2

theorem tidy_of_resolve (h : m.resolve = .ok u) : u.Tidy := by
  have hu := resolves_of_resolve h
  have found : ∀ {name i}, m.lookup name = .ok i → u.declared.contains i = true := by
    intro name i hi
    obtain ⟨f, hf, -, hindex⟩ := exists_of_lookup hi
    exact (contains_declared h).mpr ⟨f, hf, hindex⟩
  have group : ∀ {names s}, m.group names = .ok s → s.isSubset u.declared = true := by
    intro names s hs
    refine FeatureSet.isSubset_iff.mpr fun i hi => ?_
    obtain ⟨name, -, hname⟩ := exists_of_contains_group hs hi
    exact found hname
  have role : ∀ {role r}, m.role role = .ok r → ∀ i ∈ r, u.declared.contains i = true := by
    rintro role r hr i rfl
    rcases role_cases hr with ⟨-, hnone⟩ | ⟨name, j, hj, -, hsome⟩
    · cases hnone
    · cases hsome
      exact found hj
  have hdeclared : ∀ i, u.declared.contains i = true ↔ ∃ f ∈ u.features, f.index = i := by
    intro i
    simp only [contains_declared h, hu.features_perm.mem_iff]
  refine ⟨hu.ascending, hdeclared, group hu.wholeProgram, group hu.fragmentOnly,
    group hu.nonAtlasCoverage, group hu.nonImageMesh, role hu.interiorTriangles, role hu.atlasBlit,
    ?_, fun f hf => lt_width h ((hdeclared f.index).mpr ⟨f, hf, rfl⟩)⟩
  rw [Universe.width]
  split
  · next f hf =>
    exact hu.declarable.index_lt f (hu.features_perm.mem_iff.mp (List.mem_of_getLast? hf))
  · exact Nat.zero_le _

theorem contains_group_iff (hm : Declarable m.features) {names : List (List Char)} {s : FeatureSet}
    (hs : m.group names = .ok s) {i : Nat} :
    s.contains i = true ↔ ∃ name ∈ names, m.lookup name = .ok i :=
  ⟨exists_of_contains_group hs, fun ⟨_, hname, hi⟩ => (contains_of_group hm hs hi).mpr hname⟩

namespace Reordered

theorem symm (h : Reordered m m') : Reordered m' m :=
  ⟨h.features.symm, h.wholeProgram.symm, h.fragmentOnly.symm, h.requires.symm,
    h.nonAtlasCoverage.symm, h.nonImageMesh.symm, h.interiorTriangles.symm, h.atlasBlit.symm,
    h.includes.symm⟩

theorem references_perm (h : Reordered m m') : m.references.Perm m'.references := by
  have hrequires := h.requires.flatMap_right fun d => [d.feature, d.requires]
  rw [references, references, h.interiorTriangles, h.atlasBlit]
  exact (((((h.wholeProgram.append h.fragmentOnly).append hrequires).append
    h.nonAtlasCoverage).append h.nonImageMesh).append_right _).append_right _

theorem wellFormed (h : Reordered m m') (hm : m.WellFormed) : m'.WellFormed where
  isWord f hf := hm.isWord f (h.features.mem_iff.mpr hf)
  index_lt f hf := hm.index_lt f (h.features.mem_iff.mpr hf)
  names := (h.features.map _).nodup_iff.mp hm.names
  indices := (h.features.map _).nodup_iff.mp hm.indices
  declared name hname := (h.features.map _).mem_iff.mp
    (hm.declared name (h.references_perm.mem_iff.mpr hname))

/-- A name stands for the same index, or for none, wherever its feature is listed. -/
theorem lookup_eq (h : Reordered m m') (hm : Declarable m.features) : m.lookup = m'.lookup := by
  funext name
  have hfind : m.features.find? (·.name == name) = m'.features.find? (·.name == name) := by
    cases hf : m.features.find? (·.name == name) with
    | none =>
      refine (List.find?_eq_none.mpr fun g hg => ?_).symm
      exact List.find?_eq_none.mp hf g (h.features.mem_iff.mpr hg)
    | some f =>
      have hmem := h.features.mem_iff.mp (List.mem_of_find?_eq_some hf)
      have hf := List.find?_some hf
      obtain rfl : f.name = name := beq_iff_eq.mp hf
      obtain ⟨g, hg⟩ := exists_find?_name hmem
      have hname := List.find?_some hg
      have hgm := h.features.mem_iff.mpr (List.mem_of_find?_eq_some hg)
      rw [hg]
      by_contra hne
      have hapart := hm.apart hgm (h.features.mem_iff.mpr hmem)
        fun heq => hne (congrArg some heq.symm)
      exact hapart.1 (beq_iff_eq.mp hname)
  rw [lookup, lookup, hfind]

theorem dependency_eq (h : Reordered m m') (hm : Declarable m.features) :
    m.dependency = m'.dependency := by
  funext d
  rw [dependency, dependency, h.lookup_eq hm]

theorem role_eq (h : Reordered m m') (hm : Declarable m.features) : m.role = m'.role := by
  funext r
  cases r with
  | none => rfl
  | some name => rw [role, role, h.lookup_eq hm]

theorem group_eq (h : Reordered m m') (hm : Declarable m.features) (hm' : Declarable m'.features)
    {names names' : List (List Char)} {s s' : FeatureSet} (hnames : names.Perm names')
    (hs : m.group names = .ok s) (hs' : m'.group names' = .ok s') : s = s' := by
  refine FeatureSet.ext_contains fun i => ?_
  rw [Bool.eq_iff_iff, contains_group_iff hm hs, contains_group_iff hm' hs', h.lookup_eq hm]
  exact exists_congr fun name => by rw [hnames.mem_iff]

theorem features_eq (h : Reordered m m') (hu : Resolves m u) (hu' : Resolves m' u') :
    u.features = u'.features := by
  have hperm : u.features.Perm u'.features :=
    hu.features_perm.trans (h.features.trans hu'.features_perm.symm)
  refine hperm.eq_of_pairwise ?_ hu.ascending hu'.ascending
  exact fun f g _ _ hfg hgf => absurd hfg (Nat.lt_asymm hgf)

/-- The universes of a manifest and of a reordered one are told apart by nothing but the order of
their dependencies. -/
theorem agree (h : Reordered m m') (hm : m.resolve = .ok u) (hm' : m'.resolve = .ok u') :
    u.Agree u' := by
  have hu := resolves_of_resolve hm
  have hu' := resolves_of_resolve hm'
  have hdeclared : u.declared = u'.declared := by
    refine FeatureSet.ext_contains fun i => ?_
    rw [Bool.eq_iff_iff, contains_declared hm, contains_declared hm']
    exact exists_congr fun f => by rw [h.features.mem_iff]
  have hrequires : u.requires.Perm u'.requires := by
    refine perm_of_mapM h.requires hu.requires ?_
    rw [h.dependency_eq hu.declarable]
    exact hu'.requires
  have hrole : ∀ {role r r'}, m.role role = .ok r → m'.role role = .ok r' → r = r' := by
    intro role r r' hr hr'
    rw [h.role_eq hu.declarable] at hr
    exact Except.ok.inj (hr.symm.trans hr')
  have hgroup : ∀ {names names' s s'}, names.Perm names' → m.group names = .ok s →
      m'.group names' = .ok s' → s = s' := h.group_eq hu.declarable hu'.declarable
  have hinterior := hrole hu.interiorTriangles (h.interiorTriangles ▸ hu'.interiorTriangles)
  have hblit := hrole hu.atlasBlit (h.atlasBlit ▸ hu'.atlasBlit)
  have hincludes : u.includes = u'.includes :=
    hu.includes.trans (h.includes.trans hu'.includes.symm)
  have hsame : u' = { u with requires := u'.requires } := by
    rw [h.features_eq hu hu', hdeclared, hgroup h.wholeProgram hu.wholeProgram hu'.wholeProgram,
      hgroup h.fragmentOnly hu.fragmentOnly hu'.fragmentOnly,
      hgroup h.nonAtlasCoverage hu.nonAtlasCoverage hu'.nonAtlasCoverage,
      hgroup h.nonImageMesh hu.nonImageMesh hu'.nonImageMesh, hinterior, hblit, hincludes]
  rw [hsame]
  exact Universe.agree_of_perm hrequires

end Reordered

end

/-- Resolving accepts exactly the manifests that are well formed, gives tidy universes, and does not
depend on the order in which a manifest lists its features, names and dependencies. -/
theorem resolve_spec (m : Manifest) : ((∃ u, m.resolve = .ok u) ↔ m.WellFormed) ∧
    (∀ u, m.resolve = .ok u → u.features.Perm m.features ∧ u.Tidy) ∧
    ∀ m', Reordered m m' → ((∃ u, m.resolve = .ok u) ↔ ∃ u', m'.resolve = .ok u') ∧
      ∀ u u', m.resolve = .ok u → m'.resolve = .ok u' → u.Agree u' := by
  refine ⟨exists_resolve_iff, fun u h => ?_, fun m' h => ⟨?_, fun u u' => h.agree⟩⟩
  · exact ⟨(resolves_of_resolve h).features_perm, tidy_of_resolve h⟩
  · rw [exists_resolve_iff, exists_resolve_iff]
    exact ⟨h.wellFormed, h.symm.wellFormed⟩

/-- Two features and the dependencies between them in either order. -/
theorem resolve_spec_of_swap :
    let a := "A".toList
    let b := "B".toList
    let m : Manifest := {
      features := [⟨b, 1⟩, ⟨a, 0⟩], wholeProgram := [a, b], requires := [⟨a, b⟩, ⟨b, a⟩],
      atlasBlit := some b }
    let m' : Manifest := {
      features := [⟨a, 0⟩, ⟨b, 1⟩], wholeProgram := [b, a], requires := [⟨b, a⟩, ⟨a, b⟩],
      atlasBlit := some b }
    ∃ u u', m.resolve = .ok u ∧ m'.resolve = .ok u' ∧ u.Agree u' := by
  intro a b m m'
  have hnames : ∀ f ∈ m.features, isMacroName f.name = true := by decide
  have hm : m.WellFormed :=
    ⟨fun f hf => isMacroName_iff.mp (hnames f hf), by decide, by decide, by decide, by decide⟩
  have hswap : Reordered m m' :=
    ⟨.swap _ _ _, .swap _ _ _, .nil, .swap _ _ _, .nil, .nil, rfl, rfl, rfl⟩
  obtain ⟨hiff, -, horder⟩ := resolve_spec m
  obtain ⟨u, hu⟩ := hiff.mpr hm
  obtain ⟨u', hu'⟩ := (horder m' hswap).1.mp ⟨u, hu⟩
  exact ⟨u, u', hu, hu', (horder m' hswap).2 u u' hu hu'⟩

end Manifest

end ShaderPress
