import ShaderPress.Feature.Universe
import ShaderPress.Yaml.Document
import ShaderPress.Yaml.Reading

/-! # Manifests as text

A manifest is written as a YAML mapping with the names of its fields as keys.  Any
scalar is a text, whatever it looks like; only a role can be left open, by an empty
or null value.  An index is a plain unsigned number.  Unknown keys are passed over;
a known one must not come twice, and a field without a default must be there.
-/
namespace ShaderPress
open Yaml

def Feature.ofNode (node : Node) : Reading Feature := do
  let fields ← node.fields
  pure ⟨← fields.required "name" Node.text, ← fields.required "index" Node.index⟩

def Dependency.ofNode (node : Node) : Reading Dependency := do
  let fields ← node.fields
  pure ⟨← fields.required "feature" Node.text, ← fields.required "requires" Node.text⟩

def Includes.ofNode (node : Node) : Reading Includes := do
  let fields ← node.fields
  let d := Includes.standard
  pure {
    pathVertex := ← fields.withDefault "path_vertex" d.pathVertex Node.text
    pathFragment := ← fields.withDefault "path_fragment" d.pathFragment Node.text
    atlasFragment := ← fields.withDefault "atlas_fragment" d.atlasFragment Node.text
    imageMeshVertex := ← fields.withDefault "image_mesh_vertex" d.imageMeshVertex Node.text
    imageMeshFragment := ← fields.withDefault "image_mesh_fragment" d.imageMeshFragment Node.text }

namespace Manifest

def ofNode (node : Node) : Reading Manifest := do
  let fields ← node.fields
  pure {
    features := ← fields.required "features" (Node.listOf Feature.ofNode)
    wholeProgram := ← fields.withDefault "whole_program" [] Node.texts
    fragmentOnly := ← fields.withDefault "fragment_only" [] Node.texts
    requires := ← fields.withDefault "requires" [] (Node.listOf Dependency.ofNode)
    nonAtlasCoverage := ← fields.withDefault "non_atlas_coverage" [] Node.texts
    nonImageMesh := ← fields.withDefault "non_image_mesh" [] Node.texts
    interiorTriangles := ← fields.withDefault "interior_triangles" none Node.optionalText
    atlasBlit := ← fields.withDefault "atlas_blit" none Node.optionalText
    includes := ← fields.withDefault "includes" Includes.standard Includes.ofNode }

def parse (s : List Char) : Except ManifestError Manifest :=
  match Yaml.parse? s >>= Reading.run? ofNode with
  | some m => .ok m
  | none => .error .malformed

end Manifest

end ShaderPress
