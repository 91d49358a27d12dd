import ShaderPress.Catalog.Basic
import ShaderPress.Ident.Generator

/-! # The rename table of a batch

Every identifier of a catalog gets one output name.  Identifiers that keep their
spelling claim it first, and so do the plain spellings of switches; all others then
take, in order of priority, the first name of their style that is neither reserved
nor used.
-/
namespace ShaderPress

inductive NamingError where
  | nameCollision (identifier : Ident) (name : List Char)
  | nameSpaceExhausted (identifier : Ident) (maxLength : Nat)
  | unnamedIdentifier (identifier : Ident)
deriving DecidableEq, Repr

namespace NamingError

def message : NamingError → List Char
  | nameCollision identifier name =>
    "generated name '".toList ++ name ++ "' for '".toList ++ identifier
      ++ "' is already allocated".toList
  | nameSpaceExhausted identifier maxLength =>
    "no name of at most ".toList ++ decimal maxLength ++ " characters is left for '".toList
      ++ identifier ++ "'".toList
  | unnamedIdentifier identifier =>
    "identifier '".toList ++ identifier ++ "' has no allocated name".toList

end NamingError

structure RenameTable where
  entries : List (Ident × List Char)
deriving DecidableEq, Repr

namespace RenameTable

def empty : RenameTable := ⟨[]⟩

def get? (t : RenameTable) (name : Ident) : Option (List Char) := t.entries.lookup name

def size (t : RenameTable) : Nat := t.entries.length

def isEmpty (t : RenameTable) : Bool := t.entries.isEmpty

def sorted (t : RenameTable) : List (Ident × List Char) :=
  t.entries.mergeSort fun a b => !decide (b.1 < a.1)

/-- Names given so far: the spellings in use and the next number of each style. -/
structure Allocation where
  used : List (List Char)
  general : Nat
  upperCase : Nat
deriving DecidableEq, Repr

namespace Allocation

def next (a : Allocation) : NameStyle → Nat
  | .general => a.general
  | .upperCase => a.upperCase

/-- Takes the name with a number, so that its style goes on behind it. -/
def take (a : Allocation) (style : NameStyle) (name : List Char) (index : Nat) : Allocation :=
  match style with
  | .general => { a with used := name :: a.used, general := index + 1 }
  | .upperCase => { a with used := name :: a.used, upperCase := index + 1 }

/-- A spelling that no generated name may have. -/
def isTaken (a : Allocation) (name : List Char) : Bool :=
  Ident.isReserved name || a.used.contains name

end Allocation

def styleOf (name : Ident) : NameStyle := if Ident.isExport name then .upperCase else .general

def generate (a : Allocation) : List Ident → Except NamingError (List (Ident × List Char))
  | [] => .ok []
  | x :: xs =>
    match (styleOf x).firstFree? a.isTaken (a.next (styleOf x)) with
    | none => .error (.nameSpaceExhausted x NameStyle.maxLength)
    | some (name, index) =>
      if a.used.contains name then .error (.nameCollision x name)
      else do
        let rest ← generate (a.take (styleOf x) name index) xs
        pure ((x, name) :: rest)

def literals (names : List Ident) : List (Ident × List Char) :=
  names.map fun x => (x, Ident.literal x)

/-- The table of a catalog; in human-readable output every identifier keeps its spelling. -/
def allocate (c : Catalog) (humanReadable : Bool) : Except NamingError RenameTable :=
  let names := c.byPriority.map (·.name)
  if humanReadable then .ok ⟨literals names⟩
  else do
    let fixed := literals (names.filter fun x => !Ident.isRenameable x)
    let used := fixed.map (·.2) ++ c.switches.map Ident.stripSigil
    let generated ← generate ⟨used, 0, 0⟩ (names.filter Ident.isRenameable)
    pure ⟨fixed ++ generated⟩

end RenameTable

end ShaderPress
