import ShaderPress.Feature.Universe

/-! # Which variants are built

The canonical plan holds the least that is needed to draw everything.  A sweep
lists every set of features that makes a program for one stage, draw and fill rule;
the full plan is five sweeps in a row.
-/
namespace ShaderPress.Universe

/-- The three programs of a tessellated path with some features added. -/
def tessellation (u : Universe) (extra : FeatureSet) : List Variant :=
  [⟨.vertex, .path, .legacy, u.wholeProgram.union extra⟩,
   ⟨.fragment, .path, .legacy, u.allFeatures.union extra⟩,
   ⟨.fragment, .path, .clockwise, u.allFeatures.union extra⟩]

def interior (u : Universe) : FeatureSet := .ofIndices u.interiorTriangles.toList

/-- The two programs that blit from the atlas, where the universe has that role. -/
def atlasBlits (u : Universe) : List Variant :=
  match u.atlasBlit with
  | none => []
  | some atlas =>
    let extra := u.interior.insert atlas
    [⟨.vertex, .path, .legacy, (u.wholeProgram.union extra).difference u.nonAtlasCoverage⟩,
     ⟨.fragment, .path, .legacy, (u.allFeatures.union extra).difference u.nonAtlasCoverage⟩]

/-- The least set of variants that covers all draws. -/
def canonicalVariants (u : Universe) : List Variant :=
  u.tessellation .empty
    ++ (if u.interior.isEmpty then [] else u.tessellation u.interior)
    ++ u.atlasBlits
    ++ [⟨.vertex, .imageMesh, .legacy, u.wholeProgram.difference u.nonImageMesh⟩,
        ⟨.fragment, .imageMesh, .legacy, u.allFeatures.difference u.nonImageMesh⟩]

/-- A set makes a program for this stage and draw that no other set makes. -/
def admits (u : Universe) (stage : Stage) (draw : Draw) (s : FeatureSet) : Bool :=
  u.isValid s
    && (stage != .vertex || u.isUniqueVertex s)
    && match draw with
      | .path => u.isAtlasCompatible s
      | .imageMesh => u.isImageMeshCompatible s

def sweep (u : Universe) (stage : Stage) (draw : Draw) (fill : FillRule) : List Variant :=
  (u.declared.subsets.filter (u.admits stage draw)).map fun s => ⟨stage, draw, fill, s⟩

/-- Vertex programs and image meshes are only built for the legacy fill rule. -/
def allValidVariants (u : Universe) : List Variant :=
  u.sweep .vertex .path .legacy ++ u.sweep .fragment .path .legacy
    ++ u.sweep .fragment .path .clockwise ++ u.sweep .vertex .imageMesh .legacy
    ++ u.sweep .fragment .imageMesh .legacy

end ShaderPress.Universe
