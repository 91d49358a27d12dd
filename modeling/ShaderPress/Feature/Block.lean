import ShaderPress.Feature.Plan

/-! # The source of the combinations

Each variant becomes a block of lines: its macros are defined, its namespace wraps
the shaders it includes, and the macros are undefined again.  A variant that makes
no program has no block.
-/
namespace ShaderPress

/-- What a variant must satisfy to have a block. -/
inductive VariantCheck where
  | valid
  | vertexIsUnique
  | imageMeshCompatible
  | atlasCompatible
deriving DecidableEq, Repr

namespace VariantCheck

def all : List VariantCheck := [valid, vertexIsUnique, imageMeshCompatible, atlasCompatible]

def name : VariantCheck → List Char
  | valid => "valid".toList
  | vertexIsUnique => "vertex_is_unique".toList
  | imageMeshCompatible => "image_mesh_compatible".toList
  | atlasCompatible => "atlas_compatible".toList

def passes (u : Universe) (v : Variant) : VariantCheck → Bool
  | valid => u.isValid v.features
  | vertexIsUnique => v.stage != .vertex || u.isUniqueVertex v.features
  | imageMeshCompatible => v.draw != .imageMesh || u.isImageMeshCompatible v.features
  | atlasCompatible => v.draw != .path || u.isAtlasCompatible v.features

end VariantCheck

structure VariantError where
  check : VariantCheck
  namespaceName : List Char
deriving DecidableEq, Repr

namespace VariantError

def message (e : VariantError) : List Char :=
  "variant ".toList ++ e.namespaceName ++ " fails the ".toList ++ e.check.name ++ " check".toList

end VariantError

namespace Universe

def check (u : Universe) (v : Variant) : Except VariantError Unit :=
  match VariantCheck.all.find? (!VariantCheck.passes u v ·) with
  | some failed => .error ⟨failed, v.namespaceName u.width⟩
  | none => .ok ()

end Universe

inductive BlockLine where
  | defineMacro (name : List Char)
  | defineOne (name : List Char)
  | undefMacro (name : List Char)
  | openNamespace (name : List Char)
  | openBrace
  | includeFile (name : List Char)
  | closeBrace
  | blank
deriving DecidableEq, Repr

namespace BlockLine

def text : BlockLine → List Char
  | defineMacro name => "#define ".toList ++ name
  | defineOne name => "#define ".toList ++ name ++ " 1".toList
  | undefMacro name => "#undef ".toList ++ name
  | openNamespace name => "namespace ".toList ++ name
  | openBrace => ['{']
  | includeFile name => "#include \"".toList ++ name ++ ['"']
  | closeBrace => ['}']
  | blank => []

def render (lines : List BlockLine) : List Char := lines.flatMap fun l => l.text ++ ['\n']

end BlockLine

namespace Variant
open BlockLine

def clockwiseMacro : List Char := "CLOCKWISE_FILL".toList

def drawMacros : Draw → List (List Char)
  | .path => ["DRAW_PATH".toList]
  | .imageMesh => ["DRAW_IMAGE".toList, "DRAW_IMAGE_MESH".toList]

def fillMacros : FillRule → List (List Char)
  | .clockwise => [clockwiseMacro]
  | .legacy => []

def includedFiles (u : Universe) (v : Variant) : List (List Char) :=
  match v.draw with
  | .path =>
    [u.includes.pathVertex,
     if u.usesAtlasBlit v.features then u.includes.atlasFragment else u.includes.pathFragment]
  | .imageMesh => [u.includes.imageMeshVertex, u.includes.imageMeshFragment]

def block (u : Universe) (v : Variant) : List BlockLine :=
  let features := (u.members v.features).map (·.name)
  defineMacro v.stage.marker :: features.map defineOne ++ (fillMacros v.fill).map defineOne
    ++ (drawMacros v.draw).map defineOne
    ++ openNamespace (v.namespaceName u.width) :: openBrace
    :: (includedFiles u v).map includeFile ++ closeBrace
    :: (drawMacros v.draw).reverse.map undefMacro
    ++ features.map undefMacro ++ undefMacro v.stage.marker
    :: (fillMacros v.fill).map undefMacro ++ [blank]

end Variant

namespace Universe

def emitVariant (u : Universe) (v : Variant) : Except VariantError (List Char) := do
  u.check v
  pure (BlockLine.render (v.block u))

def generatedHeader : List Char :=
  "// Generated by generate_draw_combinations. Do not edit.\n\n".toList

def emitBlocks (u : Universe) : List Variant → Except VariantError (List Char)
  | [] => .ok []
  | v :: vs => do
    let own ← u.emitVariant v
    let rest ← u.emitBlocks vs
    pure (own ++ rest)

def emitVariants (u : Universe) (variants : List Variant) : Except VariantError (List Char) := do
  let blocks ← u.emitBlocks variants
  pure (generatedHeader ++ blocks)

end Universe

end ShaderPress
