import Mathlib.Data.List.Sort
import ShaderPress.Ident.Order

/-! # Sorted sets of names are determined by their members

Inserting into a strictly ascending list keeps it so.  Hence a sorted set lists every
member once, in ascending order, and two sorted sets with the same members are the same.
-/
namespace ShaderPress.Ident

theorem pairwise_insertSorted {x : Ident} {ys : List Ident} (h : ys.Pairwise (· < ·)) :
    (insertSorted x ys).Pairwise (· < ·) := by
  induction ys with
  | nil => exact List.pairwise_singleton _ x
  | cons y ys ih =>
    obtain ⟨hy, hys⟩ := List.pairwise_cons.mp h
    unfold insertSorted
    split
    · next hxy =>
      refine List.pairwise_cons.mpr ⟨List.forall_mem_cons.mpr ⟨hxy, fun z hz => ?_⟩, h⟩
      exact List.lt_trans hxy (hy z hz)
    · next hxy =>
      split
      · exact h
      · next hne =>
        refine List.pairwise_cons.mpr ⟨fun z hz => ?_, ih hys⟩
        rcases mem_insertSorted.mp hz with rfl | hz
        · exact (List.le_iff_lt_or_eq.mp (List.not_lt.mp hxy)).resolve_right (Ne.symm hne)
        · exact hy z hz

theorem pairwise_sortedSet (names : List Ident) : (sortedSet names).Pairwise (· < ·) := by
  induction names with
  | nil => exact .nil
  | cons x xs ih => exact pairwise_insertSorted ih

theorem sortedSet_congr {xs ys : List Ident} (h : ∀ x, x ∈ xs ↔ x ∈ ys) :
    sortedSet xs = sortedSet ys := by
  refine (pairwise_sortedSet xs).eq_of_mem_iff (pairwise_sortedSet ys) fun x => ?_
  rw [mem_sortedSet, mem_sortedSet]
  exact h x

end ShaderPress.Ident
