import ShaderPress.Yaml.Node

/-! # Reading values from a document

What a node means is found out while a value is read from it: an alias is followed when
it is met, and stays unread where nothing is asked of it.  Each alias that is followed
takes one of a number of steps, which keeps short documents from growing without bound.
-/
namespace ShaderPress.Yaml

/-- Reading with a table of anchored nodes, and a number of aliases that may still be followed. -/
abbrev Reading (α : Type) := ReaderT (List (Nat × Node)) (StateT Nat Option) α

def aliasesPerPart : Nat := 100

def Reading.run? (read : Node → Reading α) (root : Node) : Option α :=
  ((read root).run (root.anchors [])).run' (aliasesPerPart * root.size)

/-- The values of a mapping under the texts of their keys. -/
abbrev Fields := List (List Char × Node)

namespace Fields

/-- The value under a key, which must not come twice. -/
def value (fields : Fields) (key : String) : Reading (Option Node) :=
  match fields.filter (·.1 == key.toList) with
  | [] => pure none
  | [(_, node)] => pure (some node)
  | _ => failure

def required (fields : Fields) (key : String) (read : Node → Reading α) : Reading α := do
  match ← fields.value key with
  | none => failure
  | some node => read node

def withDefault (fields : Fields) (key : String) (fallback : α) (read : Node → Reading α) :
    Reading α := do
  match ← fields.value key with
  | none => pure fallback
  | some node => read node

end Fields

namespace Node

/-- The node that is meant, without its anchor. -/
def resolve : Node → Reading Node
  | aliasOf number => fun named left =>
    match left, named.lookup number with
    | left + 1, some node => some (node, left)
    | _, _ => none
  | anchored _ node => pure node
  | node => pure node

def text (node : Node) : Reading (List Char) := do
  match ← node.resolve with
  | scalar _ _ text => pure text
  | _ => failure

def items (node : Node) : Reading (List Node) := do
  match ← node.resolve with
  | sequence items => pure items
  | node => if node.isEmptyPlain then pure [] else failure

def listOf (read : Node → Reading α) (node : Node) : Reading (List α) := do
  (← node.items).mapM read

def texts : Node → Reading (List (List Char)) := listOf text

def fields (node : Node) : Reading Fields := do
  match ← node.resolve with
  | mapping pairs => pairs.mapM fun (key, value) => do pure (← key.text, value)
  | node => if node.isEmptyPlain then pure [] else failure

def nullTexts : List (List Char) :=
  [['n', 'u', 'l', 'l'], ['N', 'u', 'l', 'l'], ['N', 'U', 'L', 'L'], ['~']]

/-- A text that may be left open. -/
def optionalText (node : Node) : Reading (Option (List Char)) := do
  match ← node.resolve with
  | scalar none .plain text => pure (if text = [] ∨ nullTexts.contains text then none else some text)
  | scalar (some tag) .plain text =>
    if tag ≠ Tag.null then pure (some text)
    else if nullTexts.contains text then pure none
    else failure
  | scalar _ _ text => pure (some text)
  | _ => failure

def numeral? (base : Nat) (ds : List Char) : Option Nat :=
  if ds.isEmpty then none
  else
    ds.foldlM (fun n c => (hexDigit? c).bind fun d => if d < base then some (base * n + d) else none) 0

/-- Zeros before a decimal number make it a text. -/
def hasLeadingZero : List Char → Bool
  | '0' :: c :: s => (c :: s).all Char.isDigit
  | _ => false

def unsigned? (text : List Char) : Option Nat :=
  match if text.head? == some '+' then text.drop 1 else text with
  | '0' :: 'x' :: ds => numeral? 16 ds
  | '0' :: 'o' :: ds => numeral? 8 ds
  | '0' :: 'b' :: ds => numeral? 2 ds
  | ds => if hasLeadingZero ds then none else numeral? 10 ds

/-- An index of 32 bits, written plainly. -/
def index (node : Node) : Reading Nat := do
  match ← node.resolve with
  | scalar tag style text =>
    if style = .plain ∨ style = .literal ∧ tag = some Tag.int then
      match unsigned? text with
      | some n => if n < UInt32.size then pure n else failure
      | none => failure
    else failure
  | _ => failure

end Node

end ShaderPress.Yaml
