/-! # Sets of features

A set of feature indices below 32 is a mask.  Larger indices cannot be held and are
left out.  The subsets of a set are walked in ascending order of their masks: the
next subset is found by subtracting the whole set, so that carries run through the
bits outside it.
-/
namespace ShaderPress

structure FeatureSet where
  bits : BitVec 32
deriving DecidableEq, Repr

namespace FeatureSet

def maxFeatures : Nat := 32

def empty : FeatureSet := ⟨0⟩

def ofNat (mask : Nat) : FeatureSet := ⟨BitVec.ofNat 32 mask⟩

/-- The set with an index added; an index that cannot be held changes nothing. -/
def insert (s : FeatureSet) (index : Nat) : FeatureSet :=
  if index < maxFeatures then ⟨s.bits ||| BitVec.twoPow 32 index⟩ else s

def ofIndices (indices : List Nat) : FeatureSet := indices.foldl insert empty

def contains (s : FeatureSet) (index : Nat) : Bool := s.bits.getLsbD index

def union (s t : FeatureSet) : FeatureSet := ⟨s.bits ||| t.bits⟩

def difference (s t : FeatureSet) : FeatureSet := ⟨s.bits &&& ~~~t.bits⟩

def intersects (s t : FeatureSet) : Bool := s.bits &&& t.bits != 0

def isSubset (s t : FeatureSet) : Bool := s.bits &&& ~~~t.bits == 0

def isEmpty (s : FeatureSet) : Bool := s.bits == 0

def mask (s : FeatureSet) : Nat := s.bits.toNat

def indices (s : FeatureSet) : List Nat := (List.range maxFeatures).filter s.contains

def size (s : FeatureSet) : Nat := s.indices.length

/-- One digit for every index below the width, the lowest first. -/
def bitmask (s : FeatureSet) (width : Nat) : List Char :=
  (List.range width).map fun index => if s.contains index then '1' else '0'

theorem contains_insert (s : FeatureSet) (i j : Nat) :
    (s.insert i).contains j = (s.contains j || decide (i < 32) && decide (i = j)) := by
  unfold insert maxFeatures
  split
  · next h => simp [contains, h]
  · next h => simp [h]

theorem contains_union (s t : FeatureSet) (i : Nat) :
    (s.union t).contains i = (s.contains i || t.contains i) := by
  simp [union, contains]

theorem contains_eq_false_of_le (s : FeatureSet) {i : Nat} (h : 32 ≤ i) : s.contains i = false :=
  BitVec.getLsbD_of_ge _ _ h

/-- The mask of the subset of `pool` that comes after `current`. -/
def following (pool current : BitVec 32) : BitVec 32 := (current - pool) &&& pool

theorem following_and_not (pool current : BitVec 32) : following pool current &&& ~~~pool = 0 := by
  ext i hi
  simp [following]

/-- Below the whole set, the next subset has a larger mask. -/
theorem lt_following {pool current : BitVec 32} (hs : current &&& ~~~pool = 0)
    (hne : current ≠ pool) : current.toNat < (following pool current).toNat := by
  have hsplit : ∀ x : BitVec 32, x.toNat = (x &&& pool).toNat + (x &&& ~~~pool).toNat := by
    intro x
    have hd : (x &&& pool) &&& (x &&& ~~~pool) = 0 := by
      ext i hi
      cases h : pool[i] <;> simp [h]
    rw [← BitVec.toNat_add_of_and_eq_zero hd, BitVec.add_eq_or_of_and_eq_zero _ _ hd]
    congr 1
    ext i hi
    cases h : pool[i] <;> simp [h]
  have hx : (current + ~~~pool).toNat = current.toNat + (~~~pool).toNat :=
    BitVec.toNat_add_of_and_eq_zero hs
  have hn : (~~~pool).toNat = 2 ^ 32 - 1 - pool.toNat := BitVec.toNat_not
  have hp := pool.isLt
  have hc := current.isLt
  have hne' : current.toNat ≠ pool.toNat := fun h => hne (BitVec.toNat_inj.1 h)
  have hlt := (current + ~~~pool).isLt
  have hstep : (current - pool).toNat = current.toNat + (~~~pool).toNat + 1 := by
    have he : current - pool = current + ~~~pool + 1 := by
      rw [BitVec.sub_eq_add_neg, BitVec.neg_eq_not_add, ← BitVec.add_assoc]
      rfl
    rw [he, BitVec.toNat_add_of_lt, hx]
    · rfl
    · have : (1 : BitVec 32).toNat = 1 := rfl
      omega
  have hle : ((current - pool) &&& ~~~pool).toNat ≤ (~~~pool).toNat := by
    rw [BitVec.toNat_and]
    exact Nat.and_le_right
  have := hsplit (current - pool)
  simp only [following]
  omega

/-- The subsets of `pool` from `current` on. -/
def subsetsFrom (pool current : BitVec 32) (_h : current &&& ~~~pool = 0) : List FeatureSet :=
  if _hp : current = pool then [⟨current⟩]
  else ⟨current⟩ :: subsetsFrom pool (following pool current) (following_and_not pool current)
termination_by (~~~current).toNat
decreasing_by
  have := lt_following _h _hp
  have := (following pool current).isLt
  rw [BitVec.toNat_not, BitVec.toNat_not]
  omega

/-- The subsets of `pool` from `current` on, behind those already walked. -/
def walk (pool current : BitVec 32) (_h : current &&& ~~~pool = 0) (walked : List FeatureSet) :
    List FeatureSet :=
  if _hp : current = pool then (⟨current⟩ :: walked).reverse
  else walk pool (following pool current) (following_and_not pool current) (⟨current⟩ :: walked)
termination_by (~~~current).toNat
decreasing_by
  have := lt_following _h _hp
  have := (following pool current).isLt
  rw [BitVec.toNat_not, BitVec.toNat_not]
  omega

theorem walk_eq (pool current : BitVec 32) (h : current &&& ~~~pool = 0)
    (walked : List FeatureSet) :
    walk pool current h walked = walked.reverse ++ subsetsFrom pool current h := by
  fun_induction walk pool current h walked with
  | case1 => simp [subsetsFrom]
  | case2 current h walked hp ih =>
    rw [ih]
    conv => rhs; rw [subsetsFrom]
    simp [hp]

def subsets (s : FeatureSet) : List FeatureSet := walk s.bits 0 BitVec.zero_and []

theorem subsets_eq (s : FeatureSet) : s.subsets = subsetsFrom s.bits 0 BitVec.zero_and := by
  rw [subsets, walk_eq, List.reverse_nil, List.nil_append]

end FeatureSet

end ShaderPress
