import ShaderPress.Feature.Variant

/-! # Feature manifests

A manifest names the features with their indices, the groups and roles in which the
planner uses them, the dependencies between them, and the files each draw includes.
Features are referred to by name.
-/
namespace ShaderPress

/-- A feature that may be on only together with another one. -/
structure Dependency where
  feature : List Char
  requires : List Char
deriving DecidableEq, Repr

structure Includes where
  pathVertex : List Char
  pathFragment : List Char
  atlasFragment : List Char
  imageMeshVertex : List Char
  imageMeshFragment : List Char
deriving DecidableEq, Repr

namespace Includes

def standard : Includes where
  pathVertex := "draw_path.minified.vert".toList
  pathFragment := "draw_raster_order_path.minified.frag".toList
  atlasFragment := "draw_mesh.minified.frag".toList
  imageMeshVertex := "draw_image_mesh.minified.vert".toList
  imageMeshFragment := "draw_mesh.minified.frag".toList

end Includes

structure Manifest where
  features : List Feature
  /-- Features that change both stages. -/
  wholeProgram : List (List Char) := []
  /-- Features without effect on the vertex stage. -/
  fragmentOnly : List (List Char) := []
  requires : List Dependency := []
  nonAtlasCoverage : List (List Char) := []
  nonImageMesh : List (List Char) := []
  interiorTriangles : Option (List Char) := none
  atlasBlit : Option (List Char) := none
  includes : Includes := Includes.standard
deriving DecidableEq, Repr

namespace Manifest

/-- The built-in manifest; its indices are those by which the renderer finds its programs. -/
def canonical : Manifest where
  features := [
    ⟨"ENABLE_CLIPPING".toList, 0⟩, ⟨"ENABLE_CLIP_RECT".toList, 1⟩,
    ⟨"ENABLE_ADVANCED_BLEND".toList, 2⟩, ⟨"ENABLE_FEATHER".toList, 3⟩,
    ⟨"ENABLE_EVEN_ODD".toList, 4⟩, ⟨"ENABLE_NESTED_CLIPPING".toList, 5⟩,
    ⟨"ENABLE_HSL_BLEND_MODES".toList, 6⟩, ⟨"DRAW_INTERIOR_TRIANGLES".toList, 7⟩,
    ⟨"ATLAS_BLIT".toList, 8⟩]
  wholeProgram := [
    "ENABLE_CLIPPING".toList, "ENABLE_CLIP_RECT".toList, "ENABLE_ADVANCED_BLEND".toList,
    "ENABLE_FEATHER".toList]
  fragmentOnly := [
    "ENABLE_EVEN_ODD".toList, "ENABLE_NESTED_CLIPPING".toList, "ENABLE_HSL_BLEND_MODES".toList]
  requires := [
    ⟨"ENABLE_NESTED_CLIPPING".toList, "ENABLE_CLIPPING".toList⟩,
    ⟨"ENABLE_HSL_BLEND_MODES".toList, "ENABLE_ADVANCED_BLEND".toList⟩]
  nonAtlasCoverage := [
    "ENABLE_FEATHER".toList, "ENABLE_EVEN_ODD".toList, "ENABLE_NESTED_CLIPPING".toList]
  nonImageMesh := [
    "ENABLE_FEATHER".toList, "ENABLE_EVEN_ODD".toList, "ENABLE_NESTED_CLIPPING".toList,
    "DRAW_INTERIOR_TRIANGLES".toList, "ATLAS_BLIT".toList]
  interiorTriangles := some "DRAW_INTERIOR_TRIANGLES".toList
  atlasBlit := some "ATLAS_BLIT".toList

end Manifest

end ShaderPress
