import Mathlib.Data.Finset.Powerset
import ShaderPress.Proofs.Feature.Members

/-! # The whole walk over the subsets

The walk stops behind the set itself.  A subset is determined by its members, and every choice of
members is one, so the walk meets as many sets as the members of the set have subsets.
-/
namespace ShaderPress.FeatureSet
variable {s : FeatureSet} {i : Nat}

/-- The mask behind another one in the walk: there is none behind the whole set. -/
def next? (pool current : BitVec 32) : Option (BitVec 32) :=
  if current = pool then none else some (following pool current)

/-- Asked for one set after the other, the walk gives these and then ends. -/
inductive Walks (pool : BitVec 32) : Option (BitVec 32) → List FeatureSet → Prop
  | ended : Walks pool none []
  | gives {current : BitVec 32} {sets : List FeatureSet}
      (rest : Walks pool (next? pool current) sets) : Walks pool (some current) (⟨current⟩ :: sets)

theorem walks_subsetsFrom (pool current : BitVec 32) (h : current &&& ~~~pool = 0) :
    Walks pool (some current) (subsetsFrom pool current h) := by
  induction current, h using subsetsFrom.induct pool with
  | case1 h =>
    rw [subsetsFrom, dif_pos rfl]
    apply Walks.gives
    rw [next?, if_pos rfl]
    exact .ended
  | case2 current h hne ih =>
    rw [subsetsFrom, dif_neg hne]
    apply Walks.gives
    rw [next?, if_neg hne]
    exact ih

theorem Walks.unique {pool : BitVec 32} {state : Option (BitVec 32)} {sets sets' : List FeatureSet}
    (h : Walks pool state sets) (h' : Walks pool state sets') : sets = sets' := by
  induction h generalizing sets' with
  | ended =>
    cases h'
    rfl
  | gives rest ih =>
    cases h' with
    | gives rest' => rw [ih rest']

theorem walks_iff {sets : List FeatureSet} :
    Walks s.bits (some 0) sets ↔ sets = s.subsets := by
  have hwalks : Walks s.bits (some 0) s.subsets := by
    rw [subsets_eq]
    exact walks_subsetsFrom _ _ _
  constructor
  · exact fun h => h.unique hwalks
  · rintro rfl
    exact hwalks

theorem nodup_subsets (s : FeatureSet) : s.subsets.Nodup := by
  apply (pairwise_subsets s).imp
  rintro t t' hlt rfl
  exact Nat.lt_irrefl _ hlt

theorem head?_subsetsFrom (pool current : BitVec 32) (h : current &&& ~~~pool = 0) :
    (subsetsFrom pool current h).head? = some ⟨current⟩ := by
  rw [subsetsFrom]
  split <;> rfl

theorem getLast?_subsetsFrom (pool current : BitVec 32) (h : current &&& ~~~pool = 0) :
    (subsetsFrom pool current h).getLast? = some ⟨pool⟩ := by
  induction current, h using subsetsFrom.induct pool with
  | case1 h => rw [subsetsFrom, dif_pos rfl, List.getLast?_singleton]
  | case2 current h hne ih =>
    rw [subsetsFrom, dif_neg hne, List.getLast?_cons, ih, Option.getD_some]

/-- The indices in a set. -/
def members (s : FeatureSet) : Finset Nat := s.indices.toFinset

theorem lt_maxFeatures (h : s.contains i = true) : i < maxFeatures := by
  by_contra hle
  rw [contains_eq_false_of_le s (Nat.le_of_not_lt hle)] at h
  cases h

theorem mem_members : i ∈ s.members ↔ s.contains i = true := by
  rw [members, List.mem_toFinset, indices, List.mem_filter, List.mem_range]
  exact and_iff_right_of_imp lt_maxFeatures

theorem members_injective : Function.Injective members := by
  intro s t h
  apply ext_contains
  intro i
  rw [Bool.eq_iff_iff, ← mem_members, h, mem_members]

theorem card_members (s : FeatureSet) : s.members.card = s.size :=
  List.toFinset_card_of_nodup (List.nodup_range.filter _)

theorem image_members_subsets (s : FeatureSet) :
    s.subsets.toFinset.image members = s.members.powerset := by
  ext chosen
  rw [Finset.mem_image, Finset.mem_powerset]
  constructor
  · rintro ⟨t, ht, rfl⟩ i hi
    rw [List.mem_toFinset, mem_subsets, isSubset_iff] at ht
    exact mem_members.mpr (ht i (mem_members.mp hi))
  · intro h
    have hmembers : members (ofIndices chosen.toList) = chosen := by
      ext i
      rw [mem_members, contains_ofIndices, Finset.mem_toList]
      exact and_iff_right_of_imp fun hi => lt_maxFeatures (mem_members.mp (h hi))
    refine ⟨ofIndices chosen.toList, ?_, hmembers⟩
    rw [List.mem_toFinset, mem_subsets, isSubset_iff]
    intro i hi
    rw [← mem_members, hmembers] at hi
    exact mem_members.mp (h hi)

theorem length_subsets (s : FeatureSet) : s.subsets.length = 2 ^ s.size := by
  rw [← card_members, ← Finset.card_powerset, ← image_members_subsets,
    Finset.card_image_of_injective _ members_injective,
    List.toFinset_card_of_nodup (nodup_subsets s)]

/-- The walk over the subsets of a set ends.  It gives every subset once and nothing else, in
strictly ascending order of the masks from the empty set to the whole one.  Each index in the set
doubles their number. -/
theorem subsets_enumerate (s : FeatureSet) :
    (∀ sets, Walks s.bits (some 0) sets ↔ sets = s.subsets) ∧
      (∀ t, s.subsets.count t = if t.isSubset s then 1 else 0) ∧
      (s.subsets.Pairwise fun t t' => t.mask < t'.mask) ∧
      s.subsets.head? = some empty ∧ s.subsets.getLast? = some s ∧
      s.subsets.length = 2 ^ s.size := by
  refine ⟨fun sets => walks_iff, fun t => ?_, pairwise_subsets s, ?_, ?_, length_subsets s⟩
  · split
    · next h => exact List.count_eq_one_of_mem (nodup_subsets s) (mem_subsets.mpr h)
    · next h => exact List.count_eq_zero.mpr (mt mem_subsets.mp h)
  · rw [subsets_eq, head?_subsetsFrom]
    rfl
  · rw [subsets_eq, getLast?_subsetsFrom]

end ShaderPress.FeatureSet
