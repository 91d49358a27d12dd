import ShaderPress.Batch
import ShaderPress.Text.Json

/-! # The rename map

The names of a finished batch as JSON text, indented by two blanks, with the renames
in the order of identifiers.  An empty collection stays on its line.
-/
namespace ShaderPress.RenameMap

/-- A collection of lines between two marks; each line is indented under them. -/
def collection (opening closing : Char) (indent : Nat) (lines : List (List Char)) : List Char :=
  if lines = [] then [opening, closing]
  else
    let blanks := List.replicate indent ' '
    let body := [',', '\n'].intercalate (lines.map fun l => blanks ++ [' ', ' '] ++ l)
    opening :: '\n' :: (body ++ '\n' :: (blanks ++ [closing]))

def entry (key value : List Char) : List Char := Text.jsonString key ++ ':' :: ' ' :: value

def names (ns : List Ident) : List Char := collection '[' ']' 2 (ns.map Text.jsonString)

def renames (t : RenameTable) : List Char :=
  collection '{' '}' 2 (t.sorted.map fun (name, output) => entry name (Text.jsonString output))

def render (m : MinifiedBatch) : List Char :=
  collection '{' '}' 0 [
    entry "renames".toList (renames m.names), entry "exports".toList (names m.exports),
    entry "exported_switches".toList (names m.switches)]

end ShaderPress.RenameMap
