import ShaderPress.Path
import ShaderPress.Rename.Table
import ShaderPress.Shader.Basic
import ShaderPress.Shader.Layout

/-! # The artifacts of a shader

Each shader of a batch is written as three files: an export header with the output
names of all exports of the batch, an embedded source that holds the code in a raw
string constant, and an offline source in which switches keep their plain names.
Both sources spell the same layout and differ only in how switches are spelled.

Release builds write every shader whose identifiers have names.  Debug builds also check
the assertion that no argument list of a macro ends a line, and stop where it fails.
-/
namespace ShaderPress

structure MinifyOptions where
  humanReadable : Bool := false
  unknown : UnknownPolicy := .pass
  /-- Namespaces around the embedded constant, outermost first. -/
  namespaces : List (List Char) := ["rive".toList, "gpu".toList, "glsl".toList]
  exportPrefix : List Char := "GLSL_".toList
deriving DecidableEq, Repr

/-- How the program has been built: debug builds check assertions, release builds do not. -/
inductive Build where
  | debug
  | release
deriving DecidableEq, Repr

/-- Why writing a batch stops: a name is missing, or the assertion of a debug build fails that an
argument list does not end a line. -/
inductive Halt where
  | naming (cause : NamingError)
  | listEndsLine
deriving DecidableEq, Repr

/-- The tables of a batch, as writing consults them. -/
structure EmitContext where
  names : RenameTable
  catalog : Catalog
  options : MinifyOptions
deriving Repr

namespace EmitContext

def outputName (cx : EmitContext) (name : Ident) : Except NamingError (List Char) :=
  match cx.names.get? name with
  | some output => .ok output
  | none => .error (.unnamedIdentifier name)

/-- The spelling of an identifier, with switches by their plain names where they are preserved. -/
def spelling (cx : EmitContext) (preserveSwitches : Bool) (name : Ident) :
    Except NamingError (List Char) :=
  if preserveSwitches && cx.catalog.isSwitch name then .ok (Ident.stripSigil name)
  else cx.outputName name

def spellPiece (cx : EmitContext) (preserveSwitches : Bool) : Piece → Except NamingError (List Char)
  | .fixed text => .ok text
  | .name identifier => cx.spelling preserveSwitches identifier

def spell (cx : EmitContext) (preserveSwitches : Bool) :
    List Piece → Except NamingError (List Char)
  | [] => .ok []
  | p :: ps => do
    let text ← cx.spellPiece preserveSwitches p
    let rest ← cx.spell preserveSwitches ps
    pure (text ++ rest)

def exportLines (cx : EmitContext) : List Ident → Except NamingError (List Char)
  | [] => .ok []
  | x :: xs => do
    let name ← cx.outputName x
    let rest ← cx.exportLines xs
    pure ("#define ".toList ++ cx.options.exportPrefix ++ Ident.stripSigil x ++ " \"".toList
      ++ name ++ "\"\n".toList ++ rest)

end EmitContext

def pragmaOnce : List Char := "#pragma once\n\n".toList

namespace Shader

/-- The code of a shader and whether it ends at the start of a line. -/
def emit (s : Shader) (cx : EmitContext) (preserveSwitches : Bool) :
    Except NamingError (List Char × Bool) := do
  let (pieces, newline) := layout cx.options.humanReadable s.tokens
  let code ← cx.spell preserveSwitches pieces
  pure (code, newline)

/-- The assertion on argument lists in the course of `emit`.  A name that is missing before the
list is met first. -/
def checkLists (s : Shader) (build : Build) (cx : EmitContext) (preserveSwitches : Bool) :
    Except Halt Unit :=
  match build, layoutStop? cx.options.humanReadable s.tokens with
  | .debug, some pieces => do
    let _ ← (cx.spell preserveSwitches pieces).mapError .naming
    throw .listEndsLine
  | _, _ => pure ()

def stem (s : Shader) : List Char := Path.stem s.name

def exportsName (s : Shader) : List Char := s.stem ++ ".exports.h".toList

def embeddedName (s : Shader) : List Char := s.name ++ ".hpp".toList

def offlineName (s : Shader) : List Char :=
  match Path.extension? s.name with
  | some extension => s.stem ++ ".minified.".toList ++ extension
  | none => s.stem ++ ".minified".toList

def exportsHeader (_ : Shader) (cx : EmitContext) : Except NamingError (List Char) := do
  let lines ← cx.exportLines cx.catalog.exports
  pure (pragmaOnce ++ lines)

def openNamespace (name : List Char) : List Char :=
  "namespace ".toList ++ name ++ [' ', '{', '\n']

def closeNamespace (name : List Char) : List Char :=
  '}' :: " // namespace ".toList ++ name

def embeddedSource (s : Shader) (cx : EmitContext) : Except NamingError (List Char) := do
  let (code, newline) ← s.emit cx false
  pure (pragmaOnce ++ "#include \"".toList ++ s.exportsName ++ "\"\n\n".toList
    ++ cx.options.namespaces.flatMap openNamespace
    ++ "const char ".toList ++ s.stem ++ "[] = R\"===(".toList
    ++ code ++ (if newline then [] else ['\n']) ++ ")===\";\n".toList
    ++ ['\n'].intercalate (cx.options.namespaces.reverse.map closeNamespace))

def offlineSource (s : Shader) (cx : EmitContext) : Except NamingError (List Char) := do
  let (code, _) ← s.emit cx true
  pure code

end Shader

structure OutputFile where
  name : List Char
  contents : List Char
deriving DecidableEq, Repr

structure Artifacts where
  shader : List Char
  exportsHeader : OutputFile
  embedded : OutputFile
  offline : OutputFile
deriving DecidableEq, Repr

namespace Artifacts

def files (a : Artifacts) : List OutputFile := [a.exportsHeader, a.embedded, a.offline]

def render (cx : EmitContext) (s : Shader) : Except NamingError Artifacts := do
  let header ← s.exportsHeader cx
  let embedded ← s.embeddedSource cx
  let offline ← s.offlineSource cx
  pure ⟨s.name, ⟨s.exportsName, header⟩, ⟨s.embeddedName, embedded⟩, ⟨s.offlineName, offline⟩⟩

/-- What a build makes of a shader; a release build renders it. -/
def renderIn (build : Build) (cx : EmitContext) (s : Shader) : Except Halt Artifacts := do
  let header ← (s.exportsHeader cx).mapError .naming
  s.checkLists build cx false
  let embedded ← (s.embeddedSource cx).mapError .naming
  s.checkLists build cx true
  let offline ← (s.offlineSource cx).mapError .naming
  pure ⟨s.name, ⟨s.exportsName, header⟩, ⟨s.embeddedName, embedded⟩, ⟨s.offlineName, offline⟩⟩

end Artifacts

end ShaderPress
