import ShaderPress.Path
import ShaderPress.Storage

/-! # A directory tree

A disk maps places below one directory to directories and files.  Paths are walked
part by part from there; all but the last part must lead through directories.  What
lies above is only known to be directories.
-/
namespace ShaderPress

/-- A file holds a text, or bytes that are none. -/
inductive DiskEntry where
  | directory
  | file (text : Option (List Char))
deriving DecidableEq, Repr

structure Disk where
  entries : List (List (List Char) × DiskEntry)
deriving DecidableEq, Repr

/-- Where a path leads; `slash` says that it asks for a directory by a slash at its end. -/
inductive Place where
  | directory
  | file (path : List (List Char)) (text : Option (List Char)) (slash : Bool)
  /-- Nothing is there yet, but the directory around it is. -/
  | free (path : List (List Char)) (slash : Bool)
deriving DecidableEq, Repr

namespace Disk

def empty : Disk := ⟨[]⟩

def get? (d : Disk) (path : List (List Char)) : Option DiskEntry := d.entries.lookup path

def set (d : Disk) (path : List (List Char)) (entry : DiskEntry) : Disk :=
  ⟨(path, entry) :: d.entries.filter (·.1 != path)⟩

/-- Walks from a place that is `above` levels over the known directory, or inside it. -/
def walk (d : Disk) (above : Nat) (path : List (List Char)) : List (List Char) → Except Fault Place
  | [] => .ok .directory
  | part :: rest =>
    if Path.isTrivial part then walk d above path rest
    else if part = Path.upwards then
      if path = [] then walk d (above + 1) [] rest else walk d above path.dropLast rest
    else if above ≠ 0 then .error .notFound
    else
      let next := path ++ [part]
      match d.get? next with
      | some .directory => walk d above next rest
      | some (.file text) =>
        if rest.all List.isEmpty then .ok (.file next text !rest.isEmpty) else .error .notDirectory
      | none =>
        if rest.all List.isEmpty then .ok (.free next !rest.isEmpty) else .error .notFound

def locate (d : Disk) (path : List Char) : Except Fault Place :=
  if path = [] then .error .notFound
  else d.walk (if path.head? = some '/' then 1 else 0) [] (Path.parts path)

def readText (d : Disk) (path : List Char) : Except Fault (List Char) :=
  match d.locate path with
  | .error fault => .error fault
  | .ok .directory => .error .isDirectory
  | .ok (.file _ _ true) => .error .notDirectory
  | .ok (.file _ (some text) false) => .ok text
  | .ok (.file _ none false) => .error .notText
  | .ok (.free ..) => .error .notFound

/-- A path that asks for a directory is none to write to, whatever it leads to. -/
def writeText (d : Disk) (path text : List Char) : Except Fault Disk :=
  match d.locate path with
  | .error fault => .error fault
  | .ok .directory => .error .isDirectory
  | .ok (.file place _ slash) | .ok (.free place slash) =>
    if slash then .error .isDirectory else .ok (d.set place (.file (some text)))

/-- Makes one directory, whose parent must be there. -/
def makeDir (d : Disk) (path : List Char) : Except Fault Disk :=
  match d.locate ((path.reverse.dropWhile (· == '/')).reverse) with
  | .error fault => .error fault
  | .ok (.free place _) => .ok (d.set place .directory)
  | .ok _ => .error .exists

def isDir (d : Disk) (path : List Char) : Bool :=
  match d.locate path with
  | .ok .directory => true
  | _ => false

/-- An existing directory is as good as a new one. -/
def makeDirIfNew (d : Disk) (path : List Char) : Except Fault Disk :=
  match d.makeDir path with
  | .ok next => .ok next
  | .error fault => if d.isDir path then .ok d else .error fault

/-- Makes a directory and, where they are missing, those around it; the fuel bounds their number. -/
def createDirsWithin : Nat → Disk → List Char → Disk × Except Fault Unit
  | 0, d, _ => (d, .error .notFound)
  | n + 1, d, path =>
    if path = [] then (d, .ok ())
    else
      match d.makeDirIfNew path with
      | .ok next => (next, .ok ())
      | .error .notFound =>
        match Path.parent? path with
        | none => (d, .error .notFound)
        | some parent =>
          match createDirsWithin n d parent with
          | (next, .error fault) => (next, .error fault)
          | (next, .ok ()) =>
            match next.makeDirIfNew path with
            | .ok last => (last, .ok ())
            | .error fault => (next, .error fault)
      | .error fault => (d, .error fault)

def createDirs (d : Disk) (path : List Char) : Disk × Except Fault Unit :=
  createDirsWithin (path.length + 1) d path

instance : Storage (StateM Disk) where
  readText path := fun d => (d.readText path, d)
  createDirs path := fun d => let (next, outcome) := d.createDirs path; (outcome, next)
  writeText path text := fun d =>
    match d.writeText path text with
    | .ok next => (.ok (), next)
    | .error fault => (.error fault, d)

end Disk

end ShaderPress
