import ShaderPress.Feature.Manifest
import ShaderPress.Token.Pattern
import ShaderPress.Token.Scan

/-! # Resolved universes

Resolving a manifest checks its features one after the other and then looks up
every name it uses.  The result keeps sets of indices in place of names, and
answers which sets of features make a program.
-/
namespace ShaderPress

inductive ManifestError where
  | malformed
  | unknownFeature (name : List Char)
  | invalidFeatureName (name : List Char)
  | featureIndexOutOfRange (name : List Char) (index max : Nat)
  | duplicateFeatureName (name : List Char)
  | duplicateFeatureIndex (first second : List Char) (index : Nat)
deriving DecidableEq, Repr

namespace ManifestError

def message : ManifestError → List Char
  | malformed => "invalid draw combinations manifest".toList
  | unknownFeature name => "unknown feature '".toList ++ name ++ "'".toList
  | invalidFeatureName name => '\'' :: name ++ "' is not a valid macro name".toList
  | featureIndexOutOfRange name index max =>
    "feature '".toList ++ name ++ "' has index ".toList ++ decimal index
      ++ ", but at most ".toList ++ decimal max ++ " features are supported".toList
  | duplicateFeatureName name =>
    "feature '".toList ++ name ++ "' is declared more than once".toList
  | duplicateFeatureIndex first second index =>
    "features '".toList ++ first ++ "' and '".toList ++ second ++ "' share index ".toList
      ++ decimal index

end ManifestError

structure Universe where
  features : List Feature
  declared : FeatureSet
  wholeProgram : FeatureSet
  fragmentOnly : FeatureSet
  /-- Each feature with the one it requires. -/
  requires : List (Nat × Nat)
  nonAtlasCoverage : FeatureSet
  nonImageMesh : FeatureSet
  interiorTriangles : Option Nat
  atlasBlit : Option Nat
  includes : Includes
deriving DecidableEq, Repr

namespace Manifest

def isMacroName (name : List Char) : Bool := !name.isEmpty && Pattern.word name == name

/-- Checks one feature against those declared before it. -/
def checkFeature (before : List Feature) (f : Feature) : Except ManifestError Unit :=
  if !isMacroName f.name then .error (.invalidFeatureName f.name)
  else if FeatureSet.maxFeatures ≤ f.index then
    .error (.featureIndexOutOfRange f.name f.index (FeatureSet.maxFeatures - 1))
  else if before.any (·.name == f.name) then .error (.duplicateFeatureName f.name)
  else match before.find? (·.index == f.index) with
    | some first => .error (.duplicateFeatureIndex first.name f.name f.index)
    | none => .ok ()

def checkFeatures (before : List Feature) : List Feature → Except ManifestError Unit
  | [] => .ok ()
  | f :: fs => do
    checkFeature before f
    checkFeatures (before ++ [f]) fs

def lookup (m : Manifest) (name : List Char) : Except ManifestError Nat :=
  match m.features.find? (·.name == name) with
  | some f => .ok f.index
  | none => .error (.unknownFeature name)

def group (m : Manifest) (names : List (List Char)) : Except ManifestError FeatureSet := do
  let indices ← names.mapM m.lookup
  pure (.ofIndices indices)

def dependency (m : Manifest) (d : Dependency) : Except ManifestError (Nat × Nat) := do
  let feature ← m.lookup d.feature
  let required ← m.lookup d.requires
  pure (feature, required)

def role (m : Manifest) : Option (List Char) → Except ManifestError (Option Nat)
  | none => .ok none
  | some name => some <$> m.lookup name

/-- Checks a manifest and looks up all names in it. -/
def resolve (m : Manifest) : Except ManifestError Universe := do
  checkFeatures [] m.features
  let wholeProgram ← m.group m.wholeProgram
  let fragmentOnly ← m.group m.fragmentOnly
  let requires ← m.requires.mapM m.dependency
  let nonAtlasCoverage ← m.group m.nonAtlasCoverage
  let nonImageMesh ← m.group m.nonImageMesh
  let interiorTriangles ← m.role m.interiorTriangles
  let atlasBlit ← m.role m.atlasBlit
  pure {
    features := m.features.mergeSort fun f g => decide (f.index ≤ g.index)
    declared := .ofIndices (m.features.map (·.index))
    wholeProgram, fragmentOnly, requires, nonAtlasCoverage, nonImageMesh, interiorTriangles,
    atlasBlit
    includes := m.includes }

end Manifest

namespace Universe

def width (u : Universe) : Nat :=
  match u.features.getLast? with
  | some f => f.index + 1
  | none => 0

def allFeatures (u : Universe) : FeatureSet := u.wholeProgram.union u.fragmentOnly

def members (u : Universe) (s : FeatureSet) : List Feature :=
  u.features.filter fun f => s.contains f.index

def isValid (u : Universe) (s : FeatureSet) : Bool :=
  s.isSubset u.declared
    && u.requires.all fun (feature, required) => !s.contains feature || s.contains required

/-- No smaller set has the same vertex program. -/
def isUniqueVertex (u : Universe) (s : FeatureSet) : Bool := !s.intersects u.fragmentOnly

def isImageMeshCompatible (u : Universe) (s : FeatureSet) : Bool := !s.intersects u.nonImageMesh

def usesAtlasBlit (u : Universe) (s : FeatureSet) : Bool := u.atlasBlit.any s.contains

/-- An atlas blit takes its coverage from the atlas and excludes the other coverage features. -/
def isAtlasCompatible (u : Universe) (s : FeatureSet) : Bool :=
  !u.usesAtlasBlit s || !s.intersects u.nonAtlasCoverage

end Universe

end ShaderPress
