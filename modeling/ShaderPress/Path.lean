/-! # Path names

Paths are texts whose parts are divided by slashes.  Empty parts and parts that are
a single point do not count, so a path names the same file with or without them.
-/
namespace ShaderPress.Path

/-- The parts between slashes, empty ones included. -/
def parts (path : List Char) : List (List Char) := path.splitOn '/'

/-- A part that names nothing new. -/
def isTrivial (part : List Char) : Bool := part == [] || part == ['.']

def upwards : List Char := ['.', '.']

/-- The last part that counts, unless it leads upwards. -/
def fileName? (path : List Char) : Option (List Char) :=
  match ((parts path).filter (!isTrivial ·)).getLast? with
  | some part => if part = upwards then none else some part
  | none => none

/-- The text before and after the last point of a name; a point at the start divides nothing. -/
def splitExtension (name : List Char) : List Char × Option (List Char) :=
  let after := (name.reverse.takeWhile (· != '.')).reverse
  let before := name.take (name.length - after.length - 1)
  if name = upwards ∨ before = [] ∨ after.length = name.length then (name, none)
  else (before, some after)

/-- The last part without its extension, or the whole path where there is none. -/
def stem (path : List Char) : List Char :=
  match fileName? path with
  | some name => (splitExtension name).1
  | none => path

def extension? (path : List Char) : Option (List Char) :=
  (fileName? path).bind fun name => (splitExtension name).2

def join (directory name : List Char) : List Char :=
  if name.head? = some '/' then name
  else if directory = [] ∨ directory.getLast? = some '/' then directory ++ name
  else directory ++ '/' :: name

/-- The parts without trailing ones that name nothing new; a point at the very start stays. -/
def dropTrailing (parts : List (List Char)) : List (List Char) :=
  match parts.reverse.dropWhile isTrivial with
  | [] => if parts.head? = some ['.'] then [['.']] else []
  | kept => kept.reverse

/-- The directory that holds the last part; a path without parts has none. -/
def parent? (path : List Char) : Option (List Char) :=
  let rooted := path.head? = some '/'
  match (dropTrailing (parts path)).reverse with
  | [] => none
  | _ :: before =>
    match dropTrailing before.reverse with
    | [] => some (if rooted then ['/'] else [])
    | kept => some (['/'].intercalate kept)

end ShaderPress.Path
