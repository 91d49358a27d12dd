import Mathlib.Data.Nat.Bitwise
import ShaderPress.Feature.Set

/-! # The walk over the subsets of a set

Subtracting the whole set from a subset and keeping the bits of the set leads to the very
next subset, since the carry runs through all bits outside the set.  So the walk is strictly
ascending and misses none: a set is met exactly if it is a subset.
-/
namespace ShaderPress.FeatureSet

theorem exists_eq_bit (n : Nat) : ∃ b m, n = Nat.bit b m :=
  ⟨n.bodd, n.div2, (Nat.bit_bodd_div2 n).symm⟩

theorem bit_land_eq_iff {b e : Bool} {q d : Nat} :
    Nat.bit e d &&& Nat.bit b q = Nat.bit e d ↔ (e = true → b = true) ∧ d &&& q = d := by
  rw [Nat.land_bit, Nat.bit_val, Nat.bit_val]
  cases e <;> cases b <;> simp
  omega

/-- Filling up the bits outside a set does not touch a subset of it. -/
theorem add_rest_land {width pool c : Nat} (hp : pool < 2 ^ width) (hc : c &&& pool = c) :
    (c + (2 ^ width - 1 - pool)) &&& pool = c := by
  induction width generalizing pool c with
  | zero =>
    obtain rfl : pool = 0 := by omega
    simpa using hc
  | succ n ih =>
    obtain ⟨b, q, rfl⟩ := exists_eq_bit pool
    obtain ⟨e, d, rfl⟩ := exists_eq_bit c
    obtain ⟨hbit, hd⟩ := bit_land_eq_iff.mp hc
    rw [Nat.pow_succ', Nat.bit_val] at hp
    have hsum : Nat.bit e d + (2 ^ (n + 1) - 1 - Nat.bit b q) =
        Nat.bit (e || !b) (d + (2 ^ n - 1 - q)) := by
      rw [Nat.pow_succ', Nat.bit_val, Nat.bit_val, Nat.bit_val]
      cases b <;> cases e <;> simp at hbit hp ⊢ <;> omega
    rw [hsum, Nat.land_bit, ih (by omega) hd]
    cases b <;> cases e <;> simp at hbit ⊢

/-- No subset lies between one and the next. -/
theorem sub_land_le {width pool c y : Nat} (hp : pool < 2 ^ width) (hc : c &&& pool = c)
    (hy : y &&& pool = y) (h : c < y) : (c + 2 ^ width - pool) &&& pool ≤ y := by
  induction width generalizing pool c y with
  | zero =>
    obtain rfl : pool = 0 := by omega
    simp
  | succ n ih =>
    obtain ⟨b, q, rfl⟩ := exists_eq_bit pool
    obtain ⟨e, d, rfl⟩ := exists_eq_bit c
    obtain ⟨g, z, rfl⟩ := exists_eq_bit y
    obtain ⟨hbit, hd⟩ := bit_land_eq_iff.mp hc
    obtain ⟨hbit', hz⟩ := bit_land_eq_iff.mp hy
    rw [Nat.pow_succ', Nat.bit_val] at hp
    have hq : q < 2 ^ n := by omega
    rw [Nat.bit_val, Nat.bit_val] at h
    -- the lowest bit of the set takes the carry if it was free, and hands it on otherwise
    by_cases hfree : b = true ∧ e = false
    · obtain ⟨rfl, rfl⟩ := hfree
      have hsum : Nat.bit false d + 2 ^ (n + 1) - Nat.bit true q =
          Nat.bit true (d + (2 ^ n - 1 - q)) := by
        rw [Nat.pow_succ', Nat.bit_val, Nat.bit_val, Nat.bit_val]
        simp
        omega
      rw [hsum, Nat.land_bit, add_rest_land hq hd, Nat.bit_val, Nat.bit_val]
      simp at h ⊢
      omega
    · have hsum : Nat.bit e d + 2 ^ (n + 1) - Nat.bit b q = Nat.bit false (d + 2 ^ n - q) := by
        rw [Nat.pow_succ', Nat.bit_val, Nat.bit_val, Nat.bit_val]
        cases b <;> cases e <;> simp at hbit hfree ⊢ <;> omega
      have hlt : d < z := by
        cases b <;> cases e <;> cases g <;> simp at hbit hbit' hfree h ⊢ <;> omega
      have hle := ih hq hd hz hlt
      rw [hsum, Nat.land_bit, Nat.bit_val, Nat.bit_val]
      simp
      omega

theorem and_not_eq_zero_iff {x pool : BitVec 32} :
    x &&& ~~~pool = 0 ↔ x.toNat &&& pool.toNat = x.toNat := by
  rw [← BitVec.toNat_and, BitVec.toNat_inj]
  constructor
  · intro h
    ext i hi
    have hbit : (x[i] && !pool[i]) = false := by
      rw [← BitVec.getElem_not, ← BitVec.getElem_and, h]
      exact BitVec.getElem_zero hi
    rw [BitVec.getElem_and]
    revert hbit
    cases x[i] <;> cases pool[i] <;> decide
  · intro h
    rw [← h]
    ext i hi
    simp

theorem isSubset_iff {s t : FeatureSet} :
    s.isSubset t = true ↔ ∀ i, s.contains i = true → t.contains i = true := by
  rw [isSubset, beq_iff_eq, and_not_eq_zero_iff, ← BitVec.toNat_and, BitVec.toNat_inj]
  constructor
  · intro h i hi
    rw [contains, ← h, BitVec.getLsbD_and, Bool.and_eq_true] at hi
    exact hi.2
  · intro h
    ext i hi
    have := h i
    simp only [contains, BitVec.getLsbD_eq_getElem hi] at this
    cases hx : s.bits[i] <;> simp_all

/-- Every larger subset is at least the one that the walk takes next. -/
theorem following_le {pool current y : BitVec 32} (hc : current &&& ~~~pool = 0)
    (hy : y &&& ~~~pool = 0) (h : current.toNat < y.toNat) :
    (following pool current).toNat ≤ y.toNat := by
  rw [and_not_eq_zero_iff] at hc hy
  have hle : y.toNat ≤ pool.toNat := hy ▸ Nat.and_le_right
  have hp := pool.isLt
  have hsub : (current - pool).toNat = current.toNat + 2 ^ 32 - pool.toNat := by
    rw [BitVec.toNat_sub, Nat.mod_eq_of_lt (by omega)]
    omega
  rw [following, BitVec.toNat_and, hsub]
  exact sub_land_le hp hc hy h

theorem mask_le_of_mem_subsetsFrom {pool current : BitVec 32} {h : current &&& ~~~pool = 0}
    {s : FeatureSet} (hs : s ∈ subsetsFrom pool current h) : current.toNat ≤ s.mask := by
  induction current, h using subsetsFrom.induct pool with
  | case1 h =>
    rw [subsetsFrom, dif_pos rfl, List.mem_singleton] at hs
    rw [hs, mask]
  | case2 current h hne ih =>
    rw [subsetsFrom, dif_neg hne, List.mem_cons] at hs
    rcases hs with rfl | hs
    · exact Nat.le_refl _
    · exact Nat.le_trans (Nat.le_of_lt (lt_following h hne)) (ih hs)

theorem mem_subsetsFrom {pool current : BitVec 32} {h : current &&& ~~~pool = 0}
    {s : FeatureSet} : s ∈ subsetsFrom pool current h ↔
      s.bits &&& ~~~pool = 0 ∧ current.toNat ≤ s.mask := by
  refine ⟨fun hs => ⟨?_, mask_le_of_mem_subsetsFrom hs⟩, fun hs => ?_⟩
  · induction current, h using subsetsFrom.induct pool with
    | case1 h =>
      rw [subsetsFrom, dif_pos rfl, List.mem_singleton] at hs
      rw [hs]
      exact h
    | case2 current h hne ih =>
      rw [subsetsFrom, dif_neg hne, List.mem_cons] at hs
      rcases hs with rfl | hs
      · exact h
      · exact ih hs
  · obtain ⟨hsub, hle⟩ := hs
    induction current, h using subsetsFrom.induct pool with
    | case1 h =>
      have hpool : s.mask ≤ pool.toNat := by
        rw [mask, ← and_not_eq_zero_iff.mp hsub]
        exact Nat.and_le_right
      have hbits : s.bits = pool := BitVec.toNat_inj.mp (Nat.le_antisymm hpool hle)
      rw [subsetsFrom, dif_pos rfl, List.mem_singleton, ← hbits]
    | case2 current h hne ih =>
      rw [subsetsFrom, dif_neg hne, List.mem_cons]
      rcases Nat.lt_or_eq_of_le hle with hlt | heq
      · exact Or.inr (ih (following_le h hsub hlt))
      · rw [BitVec.toNat_inj.mp heq]
        exact Or.inl rfl

theorem pairwise_subsetsFrom (pool current : BitVec 32) (h : current &&& ~~~pool = 0) :
    (subsetsFrom pool current h).Pairwise fun s t => s.mask < t.mask := by
  induction current, h using subsetsFrom.induct pool with
  | case1 h =>
    rw [subsetsFrom, dif_pos rfl]
    exact List.pairwise_singleton _ _
  | case2 current h hne ih =>
    rw [subsetsFrom, dif_neg hne, List.pairwise_cons]
    exact ⟨fun t ht => Nat.lt_of_lt_of_le (lt_following h hne) (mask_le_of_mem_subsetsFrom ht), ih⟩

theorem mem_subsets {s t : FeatureSet} : t ∈ s.subsets ↔ t.isSubset s = true := by
  rw [subsets_eq, mem_subsetsFrom, isSubset, beq_iff_eq]
  exact and_iff_left (Nat.zero_le _)

theorem pairwise_subsets (s : FeatureSet) :
    s.subsets.Pairwise fun t t' => t.mask < t'.mask := by
  rw [subsets_eq]
  exact pairwise_subsetsFrom _ _ _

end ShaderPress.FeatureSet
