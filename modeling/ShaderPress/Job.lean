import ShaderPress.Feature.Block
import ShaderPress.Feature.ManifestText
import ShaderPress.Rename.Map
import ShaderPress.Storage

/-! # Jobs on files

The two jobs of the tool, over any storage.  Inputs are read one after the other,
and the first failure ends a job; nothing is written before all of the output is
known, and files written before a failing one stay.
-/
namespace ShaderPress

inductive JobError where
  | source (cause : SourceError)
  | naming (cause : NamingError)
  | variant (cause : VariantError)
  | manifest (cause : ManifestError)
  | readInput (path : List Char) (fault : Fault)
  | createOutputDir (path : List Char) (fault : Fault)
  | writeOutput (path : List Char) (fault : Fault)
deriving DecidableEq, Repr

namespace JobError

def onPath (what path : List Char) (fault : Fault) : List Char :=
  "failed to ".toList ++ what ++ " '".toList ++ path ++ "': ".toList ++ fault.message

def message : JobError → List Char
  | source cause => cause.message
  | naming cause => cause.message
  | variant cause => cause.message
  | manifest cause => cause.message
  | readInput path fault => onPath "read".toList path fault
  | createOutputDir path fault => onPath "create output directory".toList path fault
  | writeOutput path fault => onPath "write".toList path fault

end JobError

abbrev Job (m : Type → Type) := ExceptT JobError m

namespace Job

variable {m : Type → Type} [Monad m] [Storage m] {α ε : Type}

def ofExcept (wrap : ε → JobError) (x : Except ε α) : Job m α :=
  ExceptT.mk (pure (x.mapError wrap))

def onStorage (wrap : Fault → JobError) (x : m (Except Fault α)) : Job m α :=
  ExceptT.mk ((Except.mapError wrap) <$> x)

def readText (path : List Char) : Job m (List Char) :=
  onStorage (.readInput path) (Storage.readText path)

def createDirs (path : List Char) : Job m Unit :=
  onStorage (.createOutputDir path) (Storage.createDirs path)

def writeText (path text : List Char) : Job m Unit :=
  onStorage (.writeOutput path) (Storage.writeText path text)

/-- Reads a source and adds it under the last part of its path. -/
def addFile (b : Batch) (path : List Char) : Job m Batch := do
  let text ← readText path
  let (outcome, next) := b.add ((Path.fileName? path).getD path) text
  ofExcept .source outcome
  pure next

def addFiles (b : Batch) : List (List Char) → Job m Batch
  | [] => pure b
  | path :: paths => do
    let next ← addFile b path
    addFiles next paths

def writeFiles (outdir : List Char) : List OutputFile → Job m Unit
  | [] => pure ()
  | f :: fs => do
    writeText (Path.join outdir f.name) f.contents
    writeFiles outdir fs

def writeTo (outdir : List Char) (b : MinifiedBatch) : Job m Unit := do
  createDirs outdir
  writeFiles outdir (b.artifacts.flatMap Artifacts.files)

def minifyFiles (inputs : List (List Char)) (outdir : List Char) (options : MinifyOptions) :
    Job m MinifiedBatch := do
  let batch ← addFiles (.empty options) inputs
  let minified ← ofExcept .naming batch.finish
  writeTo outdir minified
  pure minified

def writeRenameMap (path : List Char) (b : MinifiedBatch) : Job m Unit :=
  writeText path (RenameMap.render b)

def loadUniverse : Option (List Char) → Job m Universe
  | none => ofExcept .manifest Manifest.canonical.resolve
  | some path => do
    let text ← readText path
    ofExcept .manifest (Manifest.parse text >>= Manifest.resolve)

def createParent (path : List Char) : Job m Unit :=
  match Path.parent? path with
  | none | some [] => pure ()
  | some parent => createDirs parent

def generate (u : Universe) (all : Bool) (output : List Char) : Job m (List Variant) := do
  let variants := if all then u.allValidVariants else u.canonicalVariants
  let source ← ofExcept .variant (u.emitVariants variants)
  createParent output
  writeText output source
  pure variants

end Job

end ShaderPress
