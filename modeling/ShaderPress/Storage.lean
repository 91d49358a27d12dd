/-! # Storage

What the tool asks of the place where its files are: reading a text, making a
directory with all that lead to it, and writing a text.  Each can fail with a fault.
-/
namespace ShaderPress

inductive Fault where
  | notFound
  | exists
  | notDirectory
  | isDirectory
  | notText
  | other (text : List Char)
deriving DecidableEq, Repr

namespace Fault

def message : Fault → List Char
  | notFound => "No such file or directory (os error 2)".toList
  | .exists => "File exists (os error 17)".toList
  | notDirectory => "Not a directory (os error 20)".toList
  | isDirectory => "Is a directory (os error 21)".toList
  | notText => "stream did not contain valid UTF-8".toList
  | other text => text

end Fault

class Storage (m : Type → Type) where
  readText : List Char → m (Except Fault (List Char))
  createDirs : List Char → m (Except Fault Unit)
  writeText : List Char → List Char → m (Except Fault Unit)

end ShaderPress
