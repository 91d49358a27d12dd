import ShaderPress.Token.Basic

/-! # Sorted sets of names

Names are ordered by code point.  A sorted set is a strictly ascending list, built
by inserting one name at a time.
-/
namespace ShaderPress.Ident

/-- Puts a name in its place; a name already there stays single. -/
def insertSorted (x : Ident) : List Ident → List Ident
  | [] => [x]
  | y :: ys =>
    if x < y then x :: y :: ys
    else if x = y then y :: ys
    else y :: insertSorted x ys

def sortedSet (names : List Ident) : List Ident := names.foldr insertSorted []

@[simp] theorem mem_insertSorted {x z : Ident} {ys : List Ident} :
    z ∈ insertSorted x ys ↔ z = x ∨ z ∈ ys := by
  fun_induction insertSorted x ys with
  | case1 => simp
  | case2 => simp
  | case3 => simp
  | case4 y ys _ _ ih => rw [List.mem_cons, ih, List.mem_cons, or_left_comm]

@[simp] theorem mem_sortedSet {z : Ident} {names : List Ident} :
    z ∈ sortedSet names ↔ z ∈ names := by
  induction names with
  | nil => simp [sortedSet]
  | cons x xs ih => simpa [sortedSet] using or_congr_right ih

end ShaderPress.Ident
