/-! # Generated names

Names are numbered.  The first letter of a name comes from one alphabet and is the
least significant; the others come from a second alphabet, whose first letter is its
zero and never ends a name.  So each number has its own name, and a longer name
never has a smaller number.
-/
namespace ShaderPress

structure NameGenerator where
  first : List Char
  continuation : List Char
deriving DecidableEq, Repr

namespace NameGenerator

def lowerCase : List Char :=
  ['a', 'b', 'c', 'd', 'e', 'f', 'g', 'h', 'i', 'j', 'k', 'l', 'm', 'n', 'o', 'p', 'q', 'r', 's',
   't', 'u', 'v', 'w', 'x', 'y', 'z']

def upperCase : List Char :=
  ['A', 'B', 'C', 'D', 'E', 'F', 'G', 'H', 'I', 'J', 'K', 'L', 'M', 'N', 'O', 'P', 'Q', 'R', 'S',
   'T', 'U', 'V', 'W', 'X', 'Y', 'Z']

def decimalDigits : List Char := ['0', '1', '2', '3', '4', '5', '6', '7', '8', '9']

/-- The digits of a number in the base of the alphabet, the least significant first. -/
def digits (alphabet : List Char) (n : Nat) : List Char :=
  if h : n = 0 ∨ alphabet.length < 2 then []
  else
    have : n % alphabet.length < alphabet.length := Nat.mod_lt _ (by omega)
    have : n / alphabet.length < n := Nat.div_lt_self (by omega) (by omega)
    alphabet[n % alphabet.length] :: digits alphabet (n / alphabet.length)
termination_by n

def nameAt (g : NameGenerator) (index : Nat) : List Char :=
  g.first[index % g.first.length]?.toList ++ digits g.continuation (index / g.first.length)

/-- Alphabets given as text; each byte of its encoding is a letter. -/
def ofText (first continuation : String) : NameGenerator :=
  ⟨letters first, letters continuation⟩
where
  letters (s : String) : List Char := s.toUTF8.toList.map fun b => Char.ofNat b.toNat

theorem lt_pow_of_digits_length_le {alphabet : List Char} (h : 2 ≤ alphabet.length) {n k : Nat}
    (hn : (digits alphabet n).length ≤ k) : n < Nat.pow alphabet.length k := by
  induction k generalizing n with
  | zero =>
    rw [digits] at hn
    split at hn
    · rw [Nat.pow_eq, Nat.pow_zero]; omega
    · simp at hn
  | succ k ih =>
    rw [digits] at hn
    split at hn
    · have := Nat.pow_pos (n := k + 1) (show 0 < alphabet.length by omega)
      rw [Nat.pow_eq]
      omega
    · simp only [List.length_cons, Nat.add_le_add_iff_right] at hn
      rw [Nat.pow_eq, Nat.pow_succ]
      exact Nat.lt_mul_of_div_lt (ih hn) (by omega)

/-- There are only so many names of a given length. -/
theorem lt_of_nameAt_length_le {g : NameGenerator} (hf : g.first ≠ [])
    (hc : 2 ≤ g.continuation.length) {index k : Nat} (h : (g.nameAt index).length ≤ k + 1) :
    index < g.first.length * Nat.pow g.continuation.length k := by
  have hp : 0 < g.first.length := List.length_pos_iff.2 hf
  have hm : index % g.first.length < g.first.length := Nat.mod_lt _ hp
  have hd : (digits g.continuation (index / g.first.length)).length ≤ k := by
    simp only [nameAt, List.getElem?_eq_getElem hm, Option.toList_some, List.singleton_append,
      List.length_cons] at h
    omega
  rw [Nat.mul_comm]
  exact Nat.lt_mul_of_div_lt (lt_pow_of_digits_length_le hc hd) hp

end NameGenerator

inductive NameStyle where
  | general
  | upperCase
deriving DecidableEq, Repr, Inhabited

namespace NameStyle
open NameGenerator

/-- Ordinary names never start with an underscore; upper-case names hold no digit either. -/
def generator : NameStyle → NameGenerator
  | general => ⟨NameGenerator.lowerCase ++ NameGenerator.upperCase,
      '_' :: (decimalDigits ++ NameGenerator.lowerCase ++ NameGenerator.upperCase)⟩
  | upperCase => ⟨NameGenerator.upperCase, NameGenerator.upperCase ++ ['_']⟩

theorem generator_first_ne (style : NameStyle) : style.generator.first ≠ [] := by
  cases style <;> decide

theorem two_le_continuation (style : NameStyle) : 2 ≤ style.generator.continuation.length := by
  cases style <;> decide

def nameAt (style : NameStyle) (index : Nat) : List Char := style.generator.nameAt index

def maxLength : Nat := 6

def capacity (style : NameStyle) : Nat :=
  style.generator.first.length * Nat.pow style.generator.continuation.length (maxLength - 1)

theorem lt_capacity {style : NameStyle} {index : Nat}
    (h : (style.nameAt index).length ≤ maxLength) : index < style.capacity :=
  lt_of_nameAt_length_le style.generator_first_ne style.two_le_continuation h

/-- The first name from a number on that is not taken, while names are short enough. -/
def firstFree? (style : NameStyle) (taken : List Char → Bool) (index : Nat) :
    Option (List Char × Nat) :=
  let name := style.nameAt index
  if h : name.length ≤ maxLength then
    if taken name then firstFree? style taken (index + 1) else some (name, index)
  else none
termination_by style.capacity - index
decreasing_by
  have := lt_capacity h
  omega

end NameStyle

end ShaderPress
