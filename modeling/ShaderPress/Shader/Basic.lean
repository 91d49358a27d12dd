import ShaderPress.Token.Lexer
import ShaderPress.Token.Strip
import ShaderPress.Catalog.Recount

/-! # The shaders of a batch

A shader is a file name with the tokens of its source.  Definitions that nothing
refers to are stripped from all shaders of a batch together, since one may be used
in another file.  A round of stripping can leave further definitions unused, so
rounds go on until one drops nothing.
-/
namespace ShaderPress

structure Shader where
  name : List Char
  tokens : List Token
deriving Repr, Inhabited

namespace Shader

/-- A name that nothing refers to, by the counts of a catalog. -/
def isDead (c : Catalog) (name : Ident) : Bool := c.referenceCount name == 0

def strip (c : Catalog) (s : Shader) : Shader := { s with tokens := Token.strip (isDead c) s.tokens }

def removed (c : Catalog) (s : Shader) : Nat := Token.removed (isDead c) s.tokens

def defines (s : Shader) : Nat := Token.defines s.tokens

theorem defines_strip_add_removed_le (c : Catalog) (s : Shader) :
    (s.strip c).defines + s.removed c ≤ s.defines :=
  Token.defines_strip_add_removed_le (isDead c) s.tokens

/-- What stripping a batch leaves, with the number of definitions dropped. -/
structure Stripped where
  shaders : List Shader
  catalog : Catalog
  removed : Nat

def totalDefines (shaders : List Shader) : Nat := (shaders.map defines).foldr (· + ·) 0

def totalRemoved (c : Catalog) (shaders : List Shader) : Nat :=
  (shaders.map (removed c)).foldr (· + ·) 0

def stripAll (c : Catalog) (shaders : List Shader) : List Shader := shaders.map (strip c)

theorem totalDefines_stripAll_add_removed_le (c : Catalog) (shaders : List Shader) :
    totalDefines (stripAll c shaders) + totalRemoved c shaders ≤ totalDefines shaders := by
  induction shaders with
  | nil => simp [totalDefines, totalRemoved, stripAll]
  | cons s ss ih =>
    have := defines_strip_add_removed_le c s
    simp only [totalDefines, totalRemoved, stripAll, List.map_cons, List.foldr_cons] at ih ⊢
    omega

/-- Strips by the counts of `current`, then by recounted ones, until a round drops nothing. -/
def stripFrom (lexed current : Catalog) (shaders : List Shader) : Stripped :=
  let left := stripAll current shaders
  let counted := lexed.recount (left.map tokens)
  if _h : totalRemoved current shaders = 0 then ⟨left, counted, 0⟩
  else
    let rest := stripFrom lexed counted left
    { rest with removed := totalRemoved current shaders + rest.removed }
termination_by totalDefines shaders
decreasing_by
  have := totalDefines_stripAll_add_removed_le current shaders
  omega

def stripBatch (lexed : Catalog) (shaders : List Shader) : Stripped :=
  stripFrom lexed lexed shaders

end Shader

end ShaderPress
