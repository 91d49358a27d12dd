import ShaderPress.Catalog.Basic
import ShaderPress.Ident.Swizzle

/-! # Counting from tokens

The occurrences that a token stream holds when it is written out: an accessor after
a point counts in its canonical spelling, and blanks do not come between a point
and what follows it.  Recounting starts afresh from the streams and keeps the
exports that have vanished, with no occurrence, after all others.
-/
namespace ShaderPress

namespace Token

/-- What the token before leaves behind: whether a point stands directly before the next one. -/
def isPoint (t : Token) : Bool := t.operator? == some ['.']

/-- An identifier as it is written out, canonical where it is an accessor. -/
def written (followsPoint : Bool) (name : Ident) : Ident :=
  if followsPoint then (Ident.canonicalSwizzle? name).getD name else name

mutual

def occurrencesOf (followsPoint : Bool) : Token → List Occurrence
  | define _ _ name arguments body =>
    nestedOccurrences arguments ++ nestedOccurrences body ++ [.defined name]
  | conditional _ _ _ name => [.tested name]
  | definedTest _ _ name => [.tested name]
  | directive _ _ body => nestedOccurrences body
  | lexeme text _ .identifier => [.referenced (written followsPoint text)]
  | lexeme .. => []

def nestedOccurrences : Option (List Token) → List Occurrence
  | none => []
  | some tokens => occurrencesFrom false tokens

def occurrencesFrom (followsPoint : Bool) : List Token → List Occurrence
  | [] => []
  | t :: ts =>
    occurrencesOf followsPoint t ++ occurrencesFrom (if t.isBlank then followsPoint else t.isPoint) ts

end

/-- The occurrences of a stream in the order in which they count. -/
def occurrences (tokens : List Token) : List Occurrence := occurrencesFrom false tokens

end Token

namespace Catalog

/-- Exports of `old` that `new` does not know, in their old order. -/
def vanished (old new : Catalog) : List Entry :=
  (old.names.filter fun name => Ident.isExport name && !new.names.contains name).map (⟨·, 0, 0⟩)

/-- The catalog of the streams as they stand, with the exports of `c` that vanished from them. -/
def recount (c : Catalog) (streams : List (List Token)) : Catalog :=
  let new := empty.replay (streams.flatMap Token.occurrences)
  { new with entries := new.entries ++ c.vanished new }

end Catalog

end ShaderPress
