import ShaderPress.Yaml.Lexer
import ShaderPress.Yaml.Node

/-! # The document of a YAML stream

A stream that is of use holds exactly one document.  Its anchors are numbered: each gets
the count of the names before it, so that an anchor under a name used before and the
next one share a number.  An alias takes the number that its name has where it stands.
-/
namespace ShaderPress.Yaml

/-- The tokens still to be read, the anchor names met with their numbers, and the tag handles in
force. -/
structure Reader where
  tokens : List YamlToken
  names : List (List Char × Nat)
  handles : List (List Char × Tag)
deriving Repr

namespace Reader

def standardHandles : List (List Char × Tag) :=
  [(['!'], Tag.nonSpecific), (['!', '!'], Tag.standardStart)]

def nextNumber (r : Reader) : Nat := r.names.length

/-- Gives the next number to a name, which may have had another one before. -/
def announce (r : Reader) (name : List Char) : Reader :=
  { r with names := (name, r.nextNumber) :: r.names.filter (·.1 != name) }

/-- The full tag; a handle must be known. -/
def fullTag? (r : Reader) (handle : List Char) (rest : Tag) : Option Tag :=
  if handle = [] then some rest else (r.handles.lookup handle).map (·.append rest)

structure Properties where
  anchor : Option (List Char)
  tag : Option Tag
deriving Repr

def properties? (r : Reader) : Option (Properties × Reader) := do
  match r.tokens with
  | .anchor name :: .tag handle rest :: ts | .tag handle rest :: .anchor name :: ts =>
    let tag ← r.fullTag? handle rest
    some (⟨some name, some tag⟩, { r with tokens := ts })
  | .anchor name :: ts => some (⟨some name, none⟩, { r with tokens := ts })
  | .tag handle rest :: ts =>
    let tag ← r.fullTag? handle rest
    some (⟨none, some tag⟩, { r with tokens := ts })
  | _ => some (⟨none, none⟩, r)

/-- An entry of a block sequence is left out before these tokens. -/
def endsBlockEntry : List YamlToken → Bool
  | .blockEntry :: _ | .blockEnd :: _ => true
  | _ => false

/-- A key or value of a block mapping is left out before these tokens. -/
def endsBlockPart : List YamlToken → Bool
  | .key :: _ | .value :: _ | .blockEnd :: _ => true
  | _ => false

def endsIndentlessEntry (ts : List YamlToken) : Bool := endsBlockEntry ts || endsBlockPart ts

/-- A value in a flow collection is left out before these tokens. -/
def endsFlowValue (close : YamlToken) : List YamlToken → Bool
  | t :: _ => t == .flowEntry || t == close
  | [] => false

def endsFlowKey (close : YamlToken) (ts : List YamlToken) : Bool :=
  endsFlowValue close ts || ts.head? == some .value

mutual

/-- Reads a node; `block` allows block collections, `indentless` a sequence without its own indentation. -/
def node? (block indentless : Bool) : Nat → Reader → Option (Node × Reader)
  | 0, _ => none
  | n + 1, r =>
    match r.tokens with
    | .aliasOf name :: ts =>
      (r.names.lookup name).map fun number => (.aliasOf number, { r with tokens := ts })
    | _ => do
      let (p, r) ← r.properties?
      match p.anchor with
      | none => content? block indentless p n r
      | some name => do
        let (node, next) ← content? block indentless p n (r.announce name)
        some (.anchored r.nextNumber node, next)

def content? (block indentless : Bool) (p : Properties) : Nat → Reader → Option (Node × Reader)
  | 0, _ => none
  | n + 1, r =>
    match r.tokens, block, indentless with
    | .blockEntry :: _, _, true => indentlessItems? [] n r
    | .scalar text style :: ts, _, _ => some (.scalar p.tag style text, { r with tokens := ts })
    | .flowSequenceStart :: ts, _, _ => flowItems? true [] n { r with tokens := ts }
    | .flowMappingStart :: ts, _, _ => flowPairs? true [] n { r with tokens := ts }
    | .blockSequenceStart :: ts, true, _ => blockItems? [] n { r with tokens := ts }
    | .blockMappingStart :: ts, true, _ => blockPairs? [] n { r with tokens := ts }
    | _, _, _ =>
      if p.anchor.isSome || p.tag.isSome then some (.scalar p.tag .plain [], r) else none

def blockItems? (items : List Node) : Nat → Reader → Option (Node × Reader)
  | 0, _ => none
  | n + 1, r =>
    match r.tokens with
    | .blockEntry :: ts => do
      let r := { r with tokens := ts }
      let (node, r) ← if endsBlockEntry ts then some (Node.absent, r) else node? true false n r
      blockItems? (node :: items) n r
    | .blockEnd :: ts => some (.sequence items.reverse, { r with tokens := ts })
    | _ => none

def indentlessItems? (items : List Node) : Nat → Reader → Option (Node × Reader)
  | 0, _ => none
  | n + 1, r =>
    match r.tokens with
    | .blockEntry :: ts => do
      let r := { r with tokens := ts }
      let (node, r) ← if endsIndentlessEntry ts then some (Node.absent, r) else node? true false n r
      indentlessItems? (node :: items) n r
    | _ => some (.sequence items.reverse, r)

def blockPairs? (pairs : List (Node × Node)) : Nat → Reader → Option (Node × Reader)
  | 0, _ => none
  | n + 1, r =>
    match r.tokens with
    | .key :: ts => do
      let r := { r with tokens := ts }
      let (key, r) ← if endsBlockPart ts then some (Node.absent, r) else node? true true n r
      let (value, r) ← blockValue? n r
      blockPairs? ((key, value) :: pairs) n r
    | .blockEnd :: ts => some (.mapping pairs.reverse, { r with tokens := ts })
    | _ => none

def blockValue? : Nat → Reader → Option (Node × Reader)
  | 0, _ => none
  | n + 1, r =>
    match r.tokens with
    | .value :: ts =>
      let r := { r with tokens := ts }
      if endsBlockPart ts then some (.absent, r) else node? true true n r
    | _ => some (.absent, r)

/-- Reads the items of a flow sequence; all but the first follow a comma. -/
def flowItems? (first : Bool) (items : List Node) : Nat → Reader → Option (Node × Reader)
  | 0, _ => none
  | n + 1, r => do
    let ts ←
      match r.tokens, first with
      | .flowSequenceEnd :: ts, _ => some (.flowSequenceEnd :: ts)
      | .flowEntry :: ts, false => some ts
      | ts, true => some ts
      | _, false => none
    match ts with
    | .flowSequenceEnd :: ts => some (.sequence items.reverse, { r with tokens := ts })
    | .key :: ts =>
      let (key, r) ←
        if endsFlowKey .flowSequenceEnd ts then some (Node.absent, { r with tokens := ts.drop 1 })
        else node? false false n { r with tokens := ts }
      let (value, r) ← flowValue? .flowSequenceEnd n r
      flowItems? false (.mapping [(key, value)] :: items) n r
    | ts =>
      let (node, r) ← node? false false n { r with tokens := ts }
      flowItems? false (node :: items) n r

/-- Reads the pairs of a flow mapping; a key without a key mark has no value. -/
def flowPairs? (first : Bool) (pairs : List (Node × Node)) : Nat → Reader → Option (Node × Reader)
  | 0, _ => none
  | n + 1, r => do
    let ts ←
      match r.tokens, first with
      | .flowMappingEnd :: ts, _ => some (.flowMappingEnd :: ts)
      | .flowEntry :: ts, false => some ts
      | ts, true => some ts
      | _, false => none
    match ts with
    | .flowMappingEnd :: ts => some (.mapping pairs.reverse, { r with tokens := ts })
    | .key :: ts =>
      let (key, r) ←
        if endsFlowKey .flowMappingEnd ts then some (Node.absent, { r with tokens := ts })
        else node? false false n { r with tokens := ts }
      let (value, r) ← flowValue? .flowMappingEnd n r
      flowPairs? false ((key, value) :: pairs) n r
    | ts =>
      let (key, r) ← node? false false n { r with tokens := ts }
      flowPairs? false ((key, .absent) :: pairs) n r

def flowValue? (close : YamlToken) : Nat → Reader → Option (Node × Reader)
  | 0, _ => none
  | n + 1, r =>
    match r.tokens with
    | .value :: ts =>
      let r := { r with tokens := ts }
      if endsFlowValue close ts then some (.absent, r) else node? false false n r
    | _ => some (.absent, r)

end

/-- Reads the directives before a document, each kind of version or handle once. -/
def directives? (version : Bool) (own : List (List Char × Tag)) :
    List YamlToken → Option (List (List Char × Tag) × List YamlToken)
  | .versionDirective major minor :: ts =>
    if version || major != 1 || minor != 1 && minor != 2 then none else directives? true own ts
  | .tagDirective handle start :: ts =>
    if (own.lookup handle).isSome then none
    else directives? version ((handle, start) :: own) ts
  | ts => some (own, ts)

/-- No node stands between the start of a document and these tokens. -/
def endsContent : List YamlToken → Bool
  | [] => true
  | .versionDirective .. :: _ | .tagDirective .. :: _ | .documentStart :: _
  | .documentEnd :: _ => true
  | _ => false

/-- Enough steps for any document of this many tokens. -/
def steps (ts : List YamlToken) : Nat := 3 * ts.length + 8

end Reader

open Reader in
def document? (ts : List YamlToken) : Option Node := do
  let (own, rest) ← directives? false [] ts
  let explicit := rest.length < ts.length || rest.head? == some .documentStart
  let (node, r) ←
    match explicit, rest with
    | true, .documentStart :: content =>
      let r : Reader := ⟨content, [], own ++ standardHandles⟩
      if endsContent content then some (Node.absent, r)
      else node? true false (steps content) r
    | true, _ => none
    | false, [] => none
    | false, content => node? true false (steps content) ⟨content, [], standardHandles⟩
  match r.tokens.dropWhile (· == .documentEnd) with
  | [] => some node
  | _ => none

def parse? (s : List Char) : Option Node := tokens? s >>= document?

end ShaderPress.Yaml
