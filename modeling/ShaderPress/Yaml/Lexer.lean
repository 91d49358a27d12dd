import ShaderPress.Yaml.Token

/-! # From a YAML stream to tokens

A lexer keeps the position, the indentations that are open, and for each level of
flow collections the place where a simple key may have begun.  A colon turns that
place into a key.  Such a place is given up at the end of its line, and after 1024
octets of it; where a key is required this is an error.
-/
namespace ShaderPress.Yaml

/-- A place where a simple key may begin. -/
structure KeyPlace where
  required : Bool
  /-- How many tokens stand before it. -/
  position : Nat
  /-- How many octets of text stand before it. -/
  index : Nat
  line : Nat
  column : Nat
deriving DecidableEq, Repr

structure Lexer where
  rest : List Char
  /-- How many octets were read. -/
  index : Nat
  line : Nat
  column : Nat
  /-- The column of the block collection around, one more; zero outside all of them. -/
  indent : Nat
  outer : List Nat
  keyAllowed : Bool
  /-- The place of the current flow level, then those of the levels around. -/
  place : Option KeyPlace
  places : List (Option KeyPlace)
  /-- The tokens so far, the last one first, and their number. -/
  tokens : List YamlToken
  count : Nat
  finished : Bool
deriving Repr

namespace Lexer

def start (s : List Char) : Lexer :=
  { rest := s, index := 0, line := 0, column := 0, indent := 0, outer := [], keyAllowed := true,
    place := none, places := [], tokens := [], count := 0, finished := false }

def inFlow (l : Lexer) : Bool := !l.places.isEmpty

def step (l : Lexer) : Lexer :=
  match l.rest with
  | [] => l
  | c :: s =>
    let index := l.index + c.utf8Size
    if isBreak c then { l with rest := s, index, line := l.line + 1, column := 0 }
    else { l with rest := s, index, column := l.column + 1 }

def advance : Nat → Lexer → Lexer
  | 0, l => l
  | n + 1, l => advance n l.step

def goto (l : Lexer) (rest : List Char) : Lexer := advance (l.rest.length - rest.length) l

def push (l : Lexer) (t : YamlToken) : Lexer :=
  { l with tokens := t :: l.tokens, count := l.count + 1 }

/-- Puts a token behind the first `position` ones. -/
def insertAt (l : Lexer) (position : Nat) (t : YamlToken) : Lexer :=
  let later := l.count - position
  { l with tokens := l.tokens.take later ++ t :: l.tokens.drop later, count := l.count + 1 }

/-- Skips blanks, comments and line ends; a line end outside flow collections allows a key.  A
line may start with a byte order mark.  Gives the number of characters, after `n` before. -/
def skipBlanks (flow lineStart keyAllowed comment : Bool) (n : Nat) : List Char → Nat × Bool
  | [] => (n, keyAllowed)
  | c :: s =>
    if isBreak c then skipBlanks flow true (keyAllowed || !flow) false (n + 1) s
    else if comment then skipBlanks flow false keyAllowed true (n + 1) s
    else if lineStart && c == '\ufeff' then skipBlanks flow false keyAllowed false (n + 1) s
    else if c == ' ' || c == '\t' && (flow || !keyAllowed) then
      skipBlanks flow false keyAllowed false (n + 1) s
    else if c == '#' then skipBlanks flow false keyAllowed true (n + 1) s
    else (n, keyAllowed)

def toNextToken (l : Lexer) : Lexer :=
  let (n, keyAllowed) := skipBlanks l.inFlow (l.column == 0) l.keyAllowed false 0 l.rest
  { advance n l with keyAllowed }

def isStale (l : Lexer) (p : KeyPlace) : Bool := p.line < l.line || p.index + 1024 < l.index

/-- Gives up a stale place.  Those of the levels around are looked at when their level is
current again. -/
def dropStale? (l : Lexer) : Option Lexer :=
  match l.place with
  | none => some l
  | some p =>
    if l.isStale p then if p.required then none else some { l with place := none }
    else some l

/-- Gives up the place of a key; a required key must not be given up. -/
def dropPlace? (l : Lexer) : Option Lexer :=
  match l.place with
  | some p => if p.required then none else some { l with place := none }
  | none => some l

def savePlace? (l : Lexer) : Option Lexer :=
  if l.keyAllowed then do
    let l ← l.dropPlace?
    let required := !l.inFlow && l.indent == l.column + 1
    some { l with place := some ⟨required, l.count, l.index, l.line, l.column⟩ }
  else some l

/-- How many block collections start right of `column`, given one more, with the indentations
that are left when they are closed. -/
def closing (column : Nat) : List Nat → Nat → Nat × List Nat × Nat
  | [], indent => if indent ≤ column then (0, [], indent) else (1, [], 0)
  | next :: outer, indent =>
    if indent ≤ column then (0, next :: outer, indent)
    else
      let (n, left) := closing column outer next
      (n + 1, left)

def unroll (l : Lexer) (column : Nat) : Lexer :=
  if l.inFlow then l
  else
    let (n, outer, indent) := closing column l.outer l.indent
    { l with outer, indent, tokens := List.replicate n .blockEnd ++ l.tokens, count := l.count + n }

/-- Opens a block collection at a column, unless one is open there. -/
def roll (l : Lexer) (column position : Nat) (t : YamlToken) : Lexer :=
  if l.inFlow || column + 1 ≤ l.indent then l
  else { l.insertAt position t with outer := l.indent :: l.outer, indent := column + 1 }

def finish? (l : Lexer) : Option Lexer := do
  let l := l.unroll 0
  let l ← l.dropPlace?
  some { l with keyAllowed := false, finished := true }

def directive? (l : Lexer) : Option Lexer := do
  let l := l.unroll 0
  let l ← l.dropPlace?
  let (t, rest) ← Yaml.directive? (l.rest.drop 1)
  some ({ l.goto rest with keyAllowed := false }.push t)

def documentMark? (l : Lexer) (t : YamlToken) : Option Lexer := do
  let l := l.unroll 0
  let l ← l.dropPlace?
  some ({ advance 3 l with keyAllowed := false }.push t)

def openFlow? (l : Lexer) (t : YamlToken) : Option Lexer := do
  let l ← l.savePlace?
  some ({ l.step with places := l.place :: l.places, place := none, keyAllowed := true }.push t)

def closeFlow? (l : Lexer) (t : YamlToken) : Option Lexer := do
  let l ← l.dropPlace?
  let next := { l.step with keyAllowed := false }
  match l.places with
  | [] => some (next.push t)
  | place :: places => some ({ next with place, places }.push t)

def flowEntry? (l : Lexer) : Option Lexer := do
  let l ← l.dropPlace?
  some ({ l.step with keyAllowed := true }.push .flowEntry)

/-- Opens a block collection here, where a key is allowed. -/
def rollHere? (l : Lexer) (t : YamlToken) : Option Lexer :=
  if l.inFlow then some l
  else if l.keyAllowed then some (l.roll l.column l.count t)
  else none

def blockEntry? (l : Lexer) : Option Lexer := do
  let l ← l.rollHere? .blockSequenceStart
  let l ← l.dropPlace?
  some ({ l.step with keyAllowed := true }.push .blockEntry)

def key? (l : Lexer) : Option Lexer := do
  let l ← l.rollHere? .blockMappingStart
  let l ← l.dropPlace?
  some ({ l.step with keyAllowed := !l.inFlow }.push .key)

def value? (l : Lexer) : Option Lexer :=
  match l.place with
  | some p =>
    let l := (l.insertAt p.position .key).roll p.column p.position .blockMappingStart
    some ({ l.step with place := none, keyAllowed := false }.push .value)
  | none => do
    let l ← l.rollHere? .blockMappingStart
    some ({ l.step with keyAllowed := !l.inFlow }.push .value)

def named? (l : Lexer) (t : List Char → YamlToken) : Option Lexer := do
  let l ← l.savePlace?
  let name ← anchorName? (l.rest.drop 1)
  some ({ advance (name.length + 1) l with keyAllowed := false }.push (t name))

def tag? (l : Lexer) : Option Lexer := do
  let l ← l.savePlace?
  let ((handle, text), rest) ← Yaml.tag? l.inFlow l.rest
  some ({ l.goto rest with keyAllowed := false }.push (.tag handle text))

def blockScalar? (l : Lexer) (style : ScalarStyle) : Option Lexer := do
  let l ← l.dropPlace?
  let (text, rest) ← block? (style == .folded) l.indent (l.rest.drop 1)
  some ({ l.goto rest with keyAllowed := true }.push (.scalar text style))

def flowScalar? (l : Lexer) (s : Option FlowScalar) (style : ScalarStyle) : Option Lexer := do
  let l ← l.savePlace?
  let s ← s
  some ({ advance s.length l with keyAllowed := s.crossedLine }.push (.scalar s.text style))

/-- Marks with which no plain scalar begins. -/
def indicators : List Char :=
  ['-', '?', ':', ',', '[', ']', '{', '}', '#', '&', '*', '!', '|', '>', '\'', '"', '%', '@', '\x60']

/-- A plain scalar starts here.  A tab is left standing only where indentation may be meant, and
then it starts nothing. -/
def startsPlain (flow : Bool) : List Char → Bool
  | [] => false
  | c :: s =>
    !isSpace c && !indicators.contains c
      || c == '-' && (match s with | d :: _ => !isSpace d | [] => true)
      || !flow && (c == '?' || c == ':') && !atBlank s

def next? (l : Lexer) : Option Lexer := do
  let l := l.toNextToken
  let l ← l.dropStale?
  let l := l.unroll (l.column + 1)
  match l.rest with
  | [] => l.finish?
  | c :: s =>
    if l.column == 0 && c == '%' then l.directive?
    else if l.column == 0 && startsDocument l.rest then l.documentMark? .documentStart
    else if l.column == 0 && endsDocument l.rest then l.documentMark? .documentEnd
    else if c == '[' then l.openFlow? .flowSequenceStart
    else if c == '{' then l.openFlow? .flowMappingStart
    else if c == ']' then l.closeFlow? .flowSequenceEnd
    else if c == '}' then l.closeFlow? .flowMappingEnd
    else if c == ',' then l.flowEntry?
    else if c == '-' && atBlank s then l.blockEntry?
    else if c == '?' && (l.inFlow || atBlank s) then l.key?
    else if c == ':' && (l.inFlow || atBlank s) then l.value?
    else if c == '*' then l.named? .aliasOf
    else if c == '&' then l.named? .anchor
    else if c == '!' then l.tag?
    else if c == '|' && !l.inFlow then l.blockScalar? .literal
    else if c == '>' && !l.inFlow then l.blockScalar? .folded
    else if c == '\'' then l.flowScalar? (singleQuotedFrom [] none false 1 s) .quoted
    else if c == '"' then l.flowScalar? (doubleQuotedFrom [] none false 1 s) .quoted
    else if startsPlain l.inFlow l.rest then
      l.flowScalar? (plainFrom l.inFlow l.indent [] none l.column 0 l.rest) .plain
    else none

/-- Reads to the end of the stream; every token takes at least one character. -/
def run? : Nat → Lexer → Option (List YamlToken)
  | 0, _ => none
  | n + 1, l =>
    match l.next? with
    | none => none
    | some next => if next.finished then some next.tokens.reverse else run? n next

end Lexer

def tokens? (s : List Char) : Option (List YamlToken) := do
  let s ← normalise? s
  (Lexer.start s).run? (s.length + 1)

end ShaderPress.Yaml
