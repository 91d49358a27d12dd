import ShaderPress.Token.Basic

/-! # Accessor spellings

Vector components have two further spellings beside `xyzw`.  An accessor written
wholly in one of them has a canonical spelling, letter by letter.
-/
namespace ShaderPress.Ident

def colourLetter? : Char → Option Char
  | 'r' => some 'x'
  | 'g' => some 'y'
  | 'b' => some 'z'
  | 'a' => some 'w'
  | _ => none

def textureLetter? : Char → Option Char
  | 's' => some 'x'
  | 't' => some 'y'
  | 'p' => some 'z'
  | 'q' => some 'w'
  | _ => none

/-- The `xyzw` spelling of one to four letters of one of the other alphabets. -/
def canonicalSwizzle? (name : Ident) : Option Ident :=
  if 1 ≤ name.length ∧ name.length ≤ 4 then
    (name.mapM colourLetter?).or (name.mapM textureLetter?)
  else none

end ShaderPress.Ident
