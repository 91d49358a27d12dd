import ShaderPress.Text.Blank

/-! # Lexical patterns

Each pattern maps a text to the stretch at its start that it covers, and to the
empty text where it covers nothing.  What a pattern covers is always a prefix of
the text it was given, so lexing loses no character.
-/
namespace ShaderPress.Pattern

def isGap (c : Char) : Bool := c == ' ' || c == '\t'

def gap (s : List Char) : List Char := s.takeWhile isGap

def digits (s : List Char) : List Char := s.takeWhile Char.isDigit

def isHexDigit (c : Char) : Bool :=
  c.isDigit || ('a' ≤ c && c ≤ 'f') || ('A' ≤ c && c ≤ 'F')

def isIdentStart (c : Char) : Bool := c.isAlpha || c == '_'

def isIdentPart (c : Char) : Bool := c.isAlphanum || c == '_'

def word : List Char → List Char
  | c :: s => if isIdentStart c then c :: s.takeWhile isIdentPart else []
  | [] => []

/-- A word with an optional sigil before it; a sigil alone is none. -/
def identifier : List Char → List Char
  | [] => []
  | c :: s =>
    if c == '@' || c == '$' then
      match word s with
      | [] => []
      | w => c :: w
    else word (c :: s)

def tokenPaste : List Char → List Char
  | '#' :: '#' :: _ => ['#', '#']
  | _ => []

/-- The rest of a line; a line feed after a backslash does not end it. -/
def lineRest : List Char → List Char
  | [] => []
  | '\\' :: '\n' :: s => '\\' :: '\n' :: lineRest s
  | c :: s => if c = '\n' then [] else c :: lineRest s

def lineComment : List Char → List Char
  | '/' :: '/' :: s => '/' :: '/' :: lineRest s
  | _ => []

/-- Up to and with the first end mark of a block comment, if there is one. -/
def commentRest? : List Char → Option (List Char)
  | [] => none
  | '*' :: '/' :: _ => some ['*', '/']
  | c :: s => (commentRest? s).map (c :: ·)

def blockComment : List Char → List Char
  | '/' :: '*' :: s => match commentRest? s with
    | some t => '/' :: '*' :: t
    | none => []
  | _ => []

def whitespace : List Char → List Char
  | [] => []
  | '\\' :: '\n' :: s => '\\' :: '\n' :: whitespace s
  | '\\' :: '\r' :: '\n' :: s => '\\' :: '\r' :: '\n' :: whitespace s
  | c :: s => if Text.isBlank c then c :: whitespace s else []

def operators : List Char :=
  ['~', '!', '%', '^', '&', '*', '(', ')', '-', '=', '+', '/', '[', ']', '{', '}', '?', ':',
   '<', '>', '.', ',', '|', ';']

def operator : List Char → List Char
  | [] => []
  | c :: _ => if c ∈ operators then [c] else []

def sign : List Char → List Char
  | [] => []
  | c :: _ => if c == '+' || c == '-' then [c] else []

def exponent : List Char → List Char
  | [] => []
  | c :: s =>
    if c == 'e' || c == 'E' then
      match digits (s.drop (sign s).length) with
      | [] => []
      | d => c :: (sign s ++ d)
    else []

/-- Digits with a point among or beside them and an optional exponent, or digits with an exponent. -/
def floatLiteral (s : List Char) : List Char :=
  let whole := digits s
  match s.drop whole.length with
  | '.' :: t =>
    let fraction := digits t
    if whole.isEmpty && fraction.isEmpty then []
    else whole ++ '.' :: (fraction ++ exponent (t.drop fraction.length))
  | t =>
    match whole, exponent t with
    | [], _ | _, [] => []
    | w, e => w ++ e

def unsignedMark : List Char → List Char
  | 'u' :: _ => ['u']
  | _ => []

def hexLiteral : List Char → List Char
  | '0' :: 'x' :: s =>
    match s.takeWhile isHexDigit with
    | [] => []
    | d => '0' :: 'x' :: (d ++ unsignedMark (s.drop d.length))
  | _ => []

def intLiteral (s : List Char) : List Char :=
  match digits s with
  | [] => []
  | d => d ++ unsignedMark (s.drop d.length)

/-- An argument list: from a parenthesis directly at the start to the first one that closes. -/
def arguments : List Char → List Char
  | '(' :: s =>
    let inner := s.takeWhile (· != ')')
    match s.drop inner.length with
    | [] => []
    | c :: _ => '(' :: (inner ++ [c])
  | _ => []

/-- The body of a directive: the rest of the logical line, as far as the first comment. -/
def directiveBody : List Char → List Char
  | [] => []
  | '\\' :: '\n' :: s => '\\' :: '\n' :: directiveBody s
  | '/' :: '/' :: _ => []
  | '/' :: '*' :: _ => []
  | c :: s => if c = '\n' then [] else c :: directiveBody s

end ShaderPress.Pattern
