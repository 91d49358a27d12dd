import ShaderPress.Yaml.Tag

/-! # Tokens of a YAML stream

Indentation is made explicit: block collections have start and end tokens, and a
simple key is marked by a key token put in front of it.
-/
namespace ShaderPress.Yaml

inductive YamlToken where
  | versionDirective (major minor : Nat)
  | tagDirective (handle : List Char) (start : Tag)
  | documentStart
  | documentEnd
  | blockSequenceStart
  | blockMappingStart
  | blockEnd
  | flowSequenceStart
  | flowSequenceEnd
  | flowMappingStart
  | flowMappingEnd
  | blockEntry
  | flowEntry
  | key
  | value
  | aliasOf (name : List Char)
  | anchor (name : List Char)
  | tag (handle : List Char) (rest : Tag)
  | scalar (text : List Char) (style : ScalarStyle)
deriving DecidableEq, Repr

/-- The name of an anchor or alias behind its mark. -/
def anchorName? (s : List Char) : Option (List Char) :=
  let name := s.takeWhile isWordChar
  let rest := s.drop name.length
  let ended := atBlank rest ||
    match rest with
    | c :: _ => ['?', ':', ',', ']', '}', '%', '@', '\x60'].contains c
    | [] => true
  if name.isEmpty || !ended then none else some name

def versionNumber? (s : List Char) : Option (Nat × List Char) :=
  let ds := s.takeWhile Char.isDigit
  if ds.isEmpty || 9 < ds.length then none
  else some (ds.foldl (fun n c => 10 * n + (c.toNat - '0'.toNat)) 0, s.drop ds.length)

/-- A directive behind its mark, up to the end of its line. -/
def directive? (s : List Char) : Option (YamlToken × List Char) := do
  let name := s.takeWhile isWordChar
  let rest := s.drop name.length
  if !atBlank rest then none
  else
    let (directive, rest) ←
      if name = "YAML".toList then do
        let (major, rest) ← versionNumber? (rest.dropWhile isSpace)
        match rest with
        | '.' :: rest => do
          let (minor, rest) ← versionNumber? rest
          some (YamlToken.versionDirective major minor, rest)
        | _ => none
      else if name = "TAG".toList then do
        let (handle, rest) ← tagHandle? (rest.dropWhile isSpace)
        if handle != ['!'] && !isClosedHandle handle then none
        else
          match rest with
          | c :: t =>
            if !isSpace c then none
            else do
              let (start, rest) ← tagText? true (t.dropWhile isSpace)
              if atBlank rest then some (YamlToken.tagDirective handle start, rest) else none
          | [] => none
      else none
    let rest ← restOfLine? rest
    some (directive, rest)

end ShaderPress.Yaml
