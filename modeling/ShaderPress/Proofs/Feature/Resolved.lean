import Mathlib.Data.List.Pairwise
import ShaderPress.Feature.Universe
import ShaderPress.Proofs.Feature.Members
import ShaderPress.Proofs.Outcome

/-! # What resolving a manifest yields

A manifest that resolves declares features under distinct names and distinct indices, all of
which fit into a set.  A name and its index are then the same thing: a group of names and the
set that it resolves to hold the same features, and so do a list of dependencies or a role and
what they resolve to.
-/
namespace ShaderPress

namespace Manifest

/-- Features that can be declared together. -/
structure Declarable (features : List Feature) : Prop where
  isMacroName : ∀ f ∈ features, isMacroName f.name = true
  index_lt : ∀ f ∈ features, f.index < FeatureSet.maxFeatures
  distinct : features.Pairwise fun f g => f.name ≠ g.name ∧ f.index ≠ g.index

theorem Declarable.apart {features : List Feature} (h : Declarable features) {f g : Feature}
    (hf : f ∈ features) (hg : g ∈ features) (hne : f ≠ g) :
    f.name ≠ g.name ∧ f.index ≠ g.index := by
  have hsymm : Std.Symm fun f g : Feature => f.name ≠ g.name ∧ f.index ≠ g.index :=
    ⟨fun _ _ h => ⟨h.1.symm, h.2.symm⟩⟩
  exact h.distinct.forall hf hg hne

theorem checkFeature_eq_ok {before : List Feature} {f : Feature}
    (h : checkFeature before f = .ok ()) :
    isMacroName f.name = true ∧ f.index < FeatureSet.maxFeatures ∧
      ∀ g ∈ before, g.name ≠ f.name ∧ g.index ≠ f.index := by
  unfold checkFeature at h
  split at h
  · cases h
  next hname =>
  split at h
  · cases h
  next hindex =>
  split at h
  · cases h
  next hfresh =>
  split at h
  · cases h
  next hfree =>
  refine ⟨by simpa using hname, Nat.lt_of_not_le hindex, fun g hg => ⟨?_, ?_⟩⟩
  · intro heq
    exact hfresh (List.any_eq_true.mpr ⟨g, hg, beq_iff_eq.mpr heq⟩)
  · intro heq
    exact List.find?_eq_none.mp hfree g hg (beq_iff_eq.mpr heq)

theorem checkFeatures_eq_ok {before fs : List Feature} (h : checkFeatures before fs = .ok ()) :
    Declarable fs ∧ ∀ g ∈ before, ∀ f ∈ fs, g.name ≠ f.name ∧ g.index ≠ f.index := by
  induction fs generalizing before with
  | nil => exact ⟨⟨by simp, by simp, .nil⟩, by simp⟩
  | cons f fs ih =>
    obtain ⟨⟨⟩, hf, hfs⟩ := exists_of_bind_eq_ok h
    obtain ⟨hname, hindex, hbefore⟩ := checkFeature_eq_ok hf
    obtain ⟨hdeclarable, hapart⟩ := ih hfs
    refine ⟨⟨?_, ?_, ?_⟩, ?_⟩
    · exact List.forall_mem_cons.mpr ⟨hname, hdeclarable.isMacroName⟩
    · exact List.forall_mem_cons.mpr ⟨hindex, hdeclarable.index_lt⟩
    · exact List.pairwise_cons.mpr ⟨hapart f (by simp), hdeclarable.distinct⟩
    · intro g hg
      exact List.forall_mem_cons.mpr ⟨hbefore g hg, hapart g (List.mem_append_left _ hg)⟩

/-- A resolved manifest field by field. -/
structure Resolves (m : Manifest) (u : Universe) : Prop where
  declarable : Declarable m.features
  features : u.features = m.features.mergeSort fun f g => decide (f.index ≤ g.index)
  declared : u.declared = .ofIndices (m.features.map (·.index))
  wholeProgram : m.group m.wholeProgram = .ok u.wholeProgram
  fragmentOnly : m.group m.fragmentOnly = .ok u.fragmentOnly
  requires : m.requires.mapM m.dependency = .ok u.requires
  nonAtlasCoverage : m.group m.nonAtlasCoverage = .ok u.nonAtlasCoverage
  nonImageMesh : m.group m.nonImageMesh = .ok u.nonImageMesh
  interiorTriangles : m.role m.interiorTriangles = .ok u.interiorTriangles
  atlasBlit : m.role m.atlasBlit = .ok u.atlasBlit
  includes : u.includes = m.includes

theorem resolves_of_resolve {m : Manifest} {u : Universe} (h : m.resolve = .ok u) :
    Resolves m u := by
  obtain ⟨⟨⟩, hcheck, h⟩ := exists_of_bind_eq_ok h
  obtain ⟨wholeProgram, hwhole, h⟩ := exists_of_bind_eq_ok h
  obtain ⟨fragmentOnly, hfragment, h⟩ := exists_of_bind_eq_ok h
  obtain ⟨requires, hrequires, h⟩ := exists_of_bind_eq_ok h
  obtain ⟨nonAtlasCoverage, hatlas, h⟩ := exists_of_bind_eq_ok h
  obtain ⟨nonImageMesh, hmesh, h⟩ := exists_of_bind_eq_ok h
  obtain ⟨interiorTriangles, hinterior, h⟩ := exists_of_bind_eq_ok h
  obtain ⟨atlasBlit, hblit, h⟩ := exists_of_bind_eq_ok h
  cases h
  exact ⟨(checkFeatures_eq_ok hcheck).1, rfl, rfl, hwhole, hfragment, hrequires, hatlas, hmesh,
    hinterior, hblit, rfl⟩

/-- The names of the features in a set. -/
def namesIn (m : Manifest) (s : FeatureSet) : List (List Char) :=
  (m.features.filter fun f => s.contains f.index).map (·.name)

section Names
variable {m : Manifest} {name : List Char} {i : Nat}

theorem exists_of_lookup (h : m.lookup name = .ok i) :
    ∃ f ∈ m.features, f.name = name ∧ f.index = i := by
  unfold lookup at h
  split at h
  · next f hf =>
    cases h
    exact ⟨f, List.mem_of_find?_eq_some hf, by simpa using List.find?_some hf, rfl⟩
  · cases h

theorem lookup_inj (hm : Declarable m.features) {name' : List Char} (h : m.lookup name = .ok i)
    (h' : m.lookup name' = .ok i) : name = name' := by
  obtain ⟨f, hf, rfl, hfi⟩ := exists_of_lookup h
  obtain ⟨g, hg, rfl, hgi⟩ := exists_of_lookup h'
  by_contra hne
  exact (hm.apart hf hg fun heq => hne (congrArg Feature.name heq)).2 (hfi.trans hgi.symm)

theorem lt_of_lookup (hm : Declarable m.features) (h : m.lookup name = .ok i) :
    i < FeatureSet.maxFeatures := by
  obtain ⟨f, hf, -, rfl⟩ := exists_of_lookup h
  exact hm.index_lt f hf

theorem mem_namesIn_iff (hm : Declarable m.features) (h : m.lookup name = .ok i) {s : FeatureSet} :
    name ∈ m.namesIn s ↔ s.contains i = true := by
  obtain ⟨f, hf, rfl, rfl⟩ := exists_of_lookup h
  simp only [namesIn, List.mem_map, List.mem_filter]
  refine ⟨?_, fun hs => ⟨f, ⟨hf, hs⟩, rfl⟩⟩
  rintro ⟨g, ⟨hg, hs⟩, hname⟩
  by_cases hfg : g = f
  · exact hfg ▸ hs
  · exact absurd hname (hm.apart hg hf hfg).1

theorem contains_of_group (hm : Declarable m.features) {names : List (List Char)} {s : FeatureSet}
    (hs : m.group names = .ok s) (h : m.lookup name = .ok i) :
    s.contains i = true ↔ name ∈ names := by
  obtain ⟨indices, hindices, hs⟩ := exists_of_bind_eq_ok hs
  cases hs
  rw [FeatureSet.contains_ofIndices, and_iff_right (lt_of_lookup hm h), mem_iff_of_mapM hindices]
  refine ⟨?_, fun hname => ⟨name, hname, h⟩⟩
  rintro ⟨other, hother, h'⟩
  exact lookup_inj hm h h' ▸ hother

theorem exists_lookup_of_group {names : List (List Char)} {s : FeatureSet}
    (hs : m.group names = .ok s) : ∀ name ∈ names, ∃ i, m.lookup name = .ok i := by
  obtain ⟨indices, hindices, -⟩ := exists_of_bind_eq_ok hs
  have hall : (∀ name ∈ names, ∃ i, m.lookup name = .ok i) ↔ ∀ i ∈ indices, True :=
    forall_mem_iff_of_mapM hindices fun _ i hi => iff_true_intro ⟨i, hi⟩
  exact hall.mpr fun _ _ => trivial

theorem exists_of_contains_group {names : List (List Char)} {s : FeatureSet}
    (hs : m.group names = .ok s) (hi : s.contains i = true) :
    ∃ name ∈ names, m.lookup name = .ok i := by
  obtain ⟨indices, hindices, hs⟩ := exists_of_bind_eq_ok hs
  cases hs
  exact (mem_iff_of_mapM hindices).mp (FeatureSet.contains_ofIndices.mp hi).2

theorem intersects_of_group (hm : Declarable m.features) {names others : List (List Char)}
    {s t : FeatureSet} (hs : m.group names = .ok s) (ht : m.group others = .ok t) :
    s.intersects t = true ↔ ∃ name ∈ names, name ∈ others := by
  rw [FeatureSet.intersects_iff]
  constructor
  · rintro ⟨i, hsi, hti⟩
    obtain ⟨name, hname, hi⟩ := exists_of_contains_group hs hsi
    exact ⟨name, hname, (contains_of_group hm ht hi).mp hti⟩
  · rintro ⟨name, hname, hother⟩
    obtain ⟨i, hi⟩ := exists_lookup_of_group hs name hname
    exact ⟨i, (contains_of_group hm hs hi).mpr hname, (contains_of_group hm ht hi).mpr hother⟩

theorem dependency_eq_ok_iff {d : Dependency} {i j : Nat} : m.dependency d = .ok (i, j) ↔
    m.lookup d.feature = .ok i ∧ m.lookup d.requires = .ok j := by
  constructor
  · intro hd
    obtain ⟨a, ha, hd⟩ := exists_of_bind_eq_ok hd
    obtain ⟨b, hb, hd⟩ := exists_of_bind_eq_ok hd
    cases hd
    exact ⟨ha, hb⟩
  · rintro ⟨ha, hb⟩
    rw [dependency, ha, hb]
    rfl

theorem role_cases {role : Option (List Char)} {r : Option Nat} (h : m.role role = .ok r) :
    role = none ∧ r = none ∨ ∃ name i, m.lookup name = .ok i ∧ role = some name ∧ r = some i := by
  cases role with
  | none =>
    cases h
    exact Or.inl ⟨rfl, rfl⟩
  | some name =>
    cases hi : m.lookup name with
    | error e =>
      rw [role, hi] at h
      cases h
    | ok i =>
      rw [role, hi] at h
      cases h
      exact Or.inr ⟨name, i, hi, rfl, rfl⟩

theorem forall_role_iff {role : Option (List Char)} {r : Option Nat} (h : m.role role = .ok r)
    {P : List Char → Prop} {Q : Nat → Prop}
    (hsame : ∀ name i, m.lookup name = .ok i → (P name ↔ Q i)) :
    (∀ name ∈ role, P name) ↔ ∀ i, r = some i → Q i := by
  rcases role_cases h with ⟨rfl, rfl⟩ | ⟨name, i, hi, rfl, rfl⟩
  · simp
  · simpa using hsame name i hi

theorem lt_of_role (hm : Declarable m.features) {role : Option (List Char)} {r : Option Nat}
    (h : m.role role = .ok r) : ∀ i, r = some i → i < FeatureSet.maxFeatures :=
  (forall_role_iff h fun _ _ hi => iff_of_true trivial (lt_of_lookup hm hi)).mp fun _ _ => trivial

theorem role_eq_some_iff (hm : Declarable m.features) {role : Option (List Char)} {r : Option Nat}
    (hr : m.role role = .ok r) (h : m.lookup name = .ok i) : r = some i ↔ role = some name := by
  rcases role_cases hr with ⟨rfl, rfl⟩ | ⟨other, j, hj, rfl, rfl⟩
  · simp
  · rw [Option.some.injEq, Option.some.injEq]
    constructor
    · rintro rfl
      exact lookup_inj hm hj h
    · rintro rfl
      exact Except.ok.inj (hj.symm.trans h)

end Names

section Universe
variable {m : Manifest} {u : Universe}

theorem Resolves.features_perm (h : Resolves m u) : u.features.Perm m.features :=
  h.features ▸ List.mergeSort_perm _ _

theorem Resolves.features_sorted (h : Resolves m u) :
    u.features.Pairwise fun f g => f.index ≤ g.index := by
  have htrans : ∀ a b c : Feature, decide (a.index ≤ b.index) = true →
      decide (b.index ≤ c.index) = true → decide (a.index ≤ c.index) = true := by
    intro a b c hab hbc
    exact decide_eq_true (Nat.le_trans (of_decide_eq_true hab) (of_decide_eq_true hbc))
  have htotal : ∀ a b : Feature,
      (decide (a.index ≤ b.index) || decide (b.index ≤ a.index)) = true := by
    intro a b
    simpa using Nat.le_total a.index b.index
  rw [h.features]
  exact (List.pairwise_mergeSort htrans htotal _).imp of_decide_eq_true

/-- The declared set of a manifest that resolves holds the indices of its features. -/
theorem contains_declared (h : m.resolve = .ok u) {i : Nat} :
    u.declared.contains i = true ↔ ∃ f ∈ m.features, f.index = i := by
  have hu := resolves_of_resolve h
  rw [hu.declared, FeatureSet.contains_ofIndices, List.mem_map]
  refine and_iff_right_of_imp ?_
  rintro ⟨f, hf, rfl⟩
  exact hu.declarable.index_lt f hf

/-- The last feature has the highest index, so the width lies above all of them. -/
theorem lt_width (h : m.resolve = .ok u) {i : Nat} (hi : u.declared.contains i = true) :
    i < u.width := by
  have hu := resolves_of_resolve h
  obtain ⟨f, hf, rfl⟩ := (contains_declared h).mp hi
  have hmem : f ∈ u.features := hu.features_perm.mem_iff.mpr hf
  have hlast : f.index ≤ (u.features.getLast (List.ne_nil_of_mem hmem)).index :=
    hu.features_sorted.rel_getLast_of_rel_getLast_getLast hmem (Nat.le_refl _)
  rw [Universe.width, List.getLast?_eq_some_getLast (List.ne_nil_of_mem hmem)]
  exact Nat.lt_succ_of_le hlast

end Universe

end Manifest

end ShaderPress
