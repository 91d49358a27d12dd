/-! # Sets of characters given by their boundaries

A set of code points is written as the ascending list of the points at which
membership flips, starting outside.  A point is inside when an odd number of
boundaries lie at or below it.
-/
namespace ShaderPress.Text

/-- Membership of `n`, where `inside` says whether the points just below the first boundary belong. -/
def flips (n : Nat) : Bool → List Nat → Bool
  | inside, [] => inside
  | inside, b :: bounds => if n < b then inside else flips n (!inside) bounds

def within (bounds : List Nat) (c : Char) : Bool := flips c.toNat false bounds

@[simp] theorem within_nil (c : Char) : within [] c = false := rfl

theorem flips_of_lt {n b : Nat} {inside : Bool} {bounds : List Nat} (h : n < b) :
    flips n inside (b :: bounds) = inside := by simp [flips, h]

theorem flips_of_le {n b : Nat} {inside : Bool} {bounds : List Nat} (h : b ≤ n) :
    flips n inside (b :: bounds) = flips n (!inside) bounds := by
  simp [flips, Nat.not_lt.2 h]

end ShaderPress.Text
