import ShaderPress.Feature.Set

/-! # Variants

A variant is one compilation unit: a stage, a kind of draw and a fill rule with the
features that are on.  Its namespace is named after the draw, the fill rule and the
feature mask.
-/
namespace ShaderPress

/-- A compile-time switch with a fixed bit position. -/
structure Feature where
  name : List Char
  index : Nat
deriving DecidableEq, Repr

inductive Stage where
  | vertex
  | fragment
deriving DecidableEq, Repr, Inhabited

inductive Draw where
  | path
  | imageMesh
deriving DecidableEq, Repr, Inhabited

inductive FillRule where
  | clockwise
  | legacy
deriving DecidableEq, Repr, Inhabited

namespace Stage

def marker : Stage → List Char
  | vertex => "VERTEX".toList
  | fragment => "FRAGMENT".toList

def label : Stage → List Char
  | vertex => "Vertex".toList
  | fragment => "Fragment".toList

end Stage

namespace Draw

def label : Draw → List Char
  | path => "Path".toList
  | imageMesh => "ImageMesh".toList

end Draw

namespace FillRule

def label : FillRule → List Char
  | clockwise => "Clockwise".toList
  | legacy => "Legacy".toList

end FillRule

structure Variant where
  stage : Stage
  draw : Draw
  fill : FillRule
  features : FeatureSet
deriving DecidableEq, Repr

namespace Variant

def namespaceLetter (v : Variant) : Char :=
  match v.draw, v.fill with
  | .imageMesh, _ => 'm'
  | .path, .clockwise => 'c'
  | .path, .legacy => 'p'

def namespaceName (v : Variant) (width : Nat) : List Char :=
  v.namespaceLetter :: v.features.bitmask width

def display (v : Variant) : List Char :=
  v.stage.label ++ ' ' :: v.draw.label ++ ' ' :: v.fill.label ++ " 0b".toList
    ++ Nat.toDigits 2 v.features.mask

end Variant

end ShaderPress
