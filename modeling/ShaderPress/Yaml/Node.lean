import ShaderPress.Yaml.Tag

/-! # Nodes of a YAML document

A node may be anchored, and an alias stands for an anchored node elsewhere in the
document.  Anchors and aliases carry numbers instead of names.  An alias means the last
anchored node of its number, wherever that stands, so a node may lie inside itself.
-/
namespace ShaderPress.Yaml

inductive Node where
  | scalar (tag : Option Tag) (style : ScalarStyle) (text : List Char)
  | sequence (items : List Node)
  | mapping (pairs : List (Node × Node))
  | anchored (number : Nat) (node : Node)
  | aliasOf (number : Nat)
deriving Repr

namespace Node

/-- What stands where a node is left out. -/
def absent : Node := scalar none .plain []

/-- A value left empty stands for an empty collection. -/
def isEmptyPlain : Node → Bool
  | scalar _ .plain [] => true
  | _ => false

mutual

/-- Puts the anchored nodes of a document in front of those found before, the last one first.  A
node comes before its own parts. -/
def anchors (found : List (Nat × Node)) : Node → List (Nat × Node)
  | scalar .. | aliasOf _ => found
  | sequence items => itemAnchors found items
  | mapping pairs => pairAnchors found pairs
  | anchored number node => anchors ((number, node) :: found) node

def itemAnchors (found : List (Nat × Node)) : List Node → List (Nat × Node)
  | [] => found
  | node :: nodes => itemAnchors (anchors found node) nodes

def pairAnchors (found : List (Nat × Node)) : List (Node × Node) → List (Nat × Node)
  | [] => found
  | (key, value) :: pairs => pairAnchors (anchors (anchors found key) value) pairs

end

mutual

/-- Adds the size of a node to `n`: one for a scalar or an alias, two for a collection with the
sizes of its parts. -/
def addSize (n : Nat) : Node → Nat
  | scalar .. | aliasOf _ => n + 1
  | sequence items => addItemSizes (n + 2) items
  | mapping pairs => addPairSizes (n + 2) pairs
  | anchored _ node => addSize n node

def addItemSizes (n : Nat) : List Node → Nat
  | [] => n
  | node :: nodes => addItemSizes (addSize n node) nodes

def addPairSizes (n : Nat) : List (Node × Node) → Nat
  | [] => n
  | (key, value) :: pairs => addPairSizes (addSize (addSize n key) value) pairs

end

def size (node : Node) : Nat := node.addSize 0

end Node

end ShaderPress.Yaml
