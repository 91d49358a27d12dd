import ShaderPress.Ident.Reserved

/-! # Sigils

A name that starts with `@` is exported: its output name is published.  One that
starts with `$` is pinned: it keeps its spelling.  Either sigil is dropped on
output, and an export that keeps its spelling is marked, so that it differs from
the same name without a sigil.
-/
namespace ShaderPress.Ident

def isExport (name : Ident) : Bool := name.head? == some '@'

def isPinned (name : Ident) : Bool := name.head? == some '$'

def stripSigil : Ident → List Char
  | [] => []
  | c :: s => if c == '@' || c == '$' then s else c :: s

def exportMark : List Char := "_EXPORTED_".toList

/-- The output spelling of a name that is not changed. -/
def literal (name : Ident) : List Char :=
  if isExport name then exportMark ++ stripSigil name else stripSigil name

def isRenameable (name : Ident) : Bool := !isPinned name && !isReserved (stripSigil name)

end ShaderPress.Ident
