import ShaderPress.Shader.Artifact

/-! # Minifying a batch

All shaders of a batch share one catalog and one rename table.  They are lexed one
after the other; a file that fails to lex stays out of the batch, but the catalog
keeps what had been met in it.  Finishing strips, names and writes all of them; it is
said for release builds, and for either kind of build in `Batch.finishIn`.
-/
namespace ShaderPress

/-- A file does not lex. -/
structure SourceError where
  file : List Char
  cause : LexError
deriving DecidableEq, Repr

namespace SourceError

def message (e : SourceError) : List Char := e.file ++ ": ".toList ++ e.cause.message

end SourceError

/-- Lexes one file and enters what it met into a catalog. -/
def Shader.read (c : Catalog) (policy : UnknownPolicy) (name source : List Char) :
    Except LexError Shader × Catalog :=
  let scan := lex policy source
  (scan.outcome.map (Shader.mk name), c.replay scan.trail)

structure Batch where
  options : MinifyOptions
  catalog : Catalog
  shaders : List Shader
deriving Repr

structure MinifiedBatch where
  artifacts : List Artifacts
  names : RenameTable
  exports : List Ident
  switches : List Ident
deriving DecidableEq, Repr

namespace Batch

def empty (options : MinifyOptions) : Batch := ⟨options, .empty, []⟩

/-- Adds one source; a failure leaves its trail in the catalog. -/
def add (b : Batch) (name source : List Char) : Except SourceError Unit × Batch :=
  match Shader.read b.catalog b.options.unknown name source with
  | (.ok shader, catalog) => (.ok (), { b with catalog, shaders := b.shaders ++ [shader] })
  | (.error cause, catalog) => (.error ⟨name, cause⟩, { b with catalog })

def size (b : Batch) : Nat := b.shaders.length

def isEmpty (b : Batch) : Bool := b.shaders.isEmpty

/-- The shaders and the catalog that are written; human-readable output strips nothing. -/
def settled (b : Batch) : List Shader × Catalog :=
  if b.options.humanReadable then (b.shaders, b.catalog)
  else
    let stripped := Shader.stripBatch b.catalog b.shaders
    (stripped.shaders, stripped.catalog)

def finish (b : Batch) : Except NamingError MinifiedBatch := do
  let (shaders, catalog) := b.settled
  let names ← RenameTable.allocate catalog b.options.humanReadable
  let artifacts ← shaders.mapM (Artifacts.render ⟨names, catalog, b.options⟩)
  pure ⟨artifacts, names, catalog.exports, catalog.switches⟩

/-- What a build makes of finishing; a release build does what `finish` says. -/
def finishIn (build : Build) (b : Batch) : Except Halt MinifiedBatch := do
  let (shaders, catalog) := b.settled
  let names ← (RenameTable.allocate catalog b.options.humanReadable).mapError .naming
  let artifacts ← shaders.mapM (Artifacts.renderIn build ⟨names, catalog, b.options⟩)
  pure ⟨artifacts, names, catalog.exports, catalog.switches⟩

end Batch

end ShaderPress
