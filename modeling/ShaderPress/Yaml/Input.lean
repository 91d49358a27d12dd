/-! # The characters of a YAML stream

A stream holds printable characters only.  All line ends but the two Unicode
separators read as a line feed.
-/
namespace ShaderPress.Yaml

def isPrintable (c : Char) : Bool :=
  c == '\t' || c == '\n' || c == '\r' || c == '\u0085' || (' ' ≤ c && c ≤ '~')
    || ('\u00a0' ≤ c && c ≤ '\ufffd') || 0x10000 ≤ c.toNat

def isBreak (c : Char) : Bool := c == '\n' || c == '\u2028' || c == '\u2029'

def isSpace (c : Char) : Bool := c == ' ' || c == '\t'

def unifyLineEnds : List Char → List Char
  | [] => []
  | '\r' :: '\n' :: s => '\n' :: unifyLineEnds s
  | c :: s => (if c == '\r' || c == '\u0085' then '\n' else c) :: unifyLineEnds s

/-- The stream with its line ends unified, if it holds no forbidden character. -/
def normalise? (s : List Char) : Option (List Char) :=
  if s.all isPrintable then some (unifyLineEnds s) else none

def atBreak : List Char → Bool
  | [] => true
  | c :: _ => isBreak c

/-- The text ends here or goes on with a space, a tab or a line end. -/
def atBlank : List Char → Bool
  | [] => true
  | c :: _ => isSpace c || isBreak c

def isWordChar (c : Char) : Bool := c.isAlphanum || c == '_' || c == '-'

def startsDocument : List Char → Bool
  | '-' :: '-' :: '-' :: s => atBlank s
  | _ => false

def endsDocument : List Char → Bool
  | '.' :: '.' :: '.' :: s => atBlank s
  | _ => false

def isDocumentMark (s : List Char) : Bool := startsDocument s || endsDocument s

end ShaderPress.Yaml
