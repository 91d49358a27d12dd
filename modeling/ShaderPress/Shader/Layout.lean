import ShaderPress.Token.Basic
import ShaderPress.Ident.Swizzle

/-! # Laying out tokens as text

Writing a stream fixes every character of the output but the spelling of
identifiers.  The layout is the list of fixed texts and identifiers in order,
together with whether the text ends at the start of a line.  A directive stands on a
line of its own; two words are kept apart by a space, and so are two operators that
were apart and would read as one.  Human-readable layout keeps the source's own
whitespace instead.

The argument list of a macro is asserted not to end a line.  It does where a directive
stands last in it, as in `#define F(a #b) 1`, whose parenthesis belongs to the directive.
Debug builds stop at such a list; others go on with the body in the next line.
-/
namespace ShaderPress

/-- A stretch of output: fixed text, or an identifier still to be spelled. -/
inductive Piece where
  | fixed (text : List Char)
  | name (identifier : Ident)
deriving DecidableEq, Repr

namespace Layout

/-- What has been written of a stream so far, as far as the next token depends on it. -/
structure Cursor where
  /-- The last token that is not whitespace, if it was an operator. -/
  operator : Option (List Char)
  needsSpacing : Bool
  newline : Bool
  separated : Bool
deriving DecidableEq, Repr

def start : Cursor := ⟨none, false, true, false⟩

/-- Two operators that would read as another token side by side. -/
def merges : List Char → List Char → Bool
  | [a], [b] =>
    match a, b with
    | '+', '+' | '-', '-' | '/', '/' | '/', '*' | '&', '&' | '|', '|' | '^', '^' | '<', '<'
    | '>', '>' | '<', '=' | '>', '=' | '=', '=' | '!', '=' => true
    | _, _ => false
  | _, _ => false

def mergesWith (previous next : Option (List Char)) : Bool :=
  match previous, next with
  | some a, some b => merges a b
  | _, _ => false

/-- What stands between a token and what was written before it. -/
def separator (c : Cursor) (t : Token) : List Piece :=
  if t.isDirective && !c.newline then [.fixed ['\n']]
  else if t.needsSpacing && c.needsSpacing then [.fixed [' ']]
  else if c.separated && mergesWith c.operator t.operator? then [.fixed [' ']]
  else []

/-- An accessor after a point has a fixed spelling; any other identifier is a name. -/
def identifier (c : Cursor) (name : Ident) : Piece :=
  if c.operator = some ['.'] then
    match Ident.canonicalSwizzle? name with
    | some swizzle => .fixed swizzle
    | none => .name name
  else .name name

def startsWithWhitespace : Option (List Token) → Bool
  | some (t :: _) => t.isWhitespace
  | _ => false

def bodySeparator (humanReadable : Bool) (body : Option (List Token)) : List Piece :=
  if body.isNone || humanReadable && startsWithWhitespace body then [] else [.fixed [' ']]

def lineEnd (humanReadable newline : Bool) : List Piece :=
  if humanReadable || newline then [] else [.fixed ['\n']]

def afterToken (humanReadable newline : Bool) (t : Token) : Cursor :=
  ⟨t.operator?, t.needsSpacing, newline || t.isDirective && !humanReadable, false⟩

mutual

/-- The pieces of a token that is not whitespace, and whether they end at the start of a line.
An argument list that ends a line is laid out like any other; `tokenStop?` says what has been
written when the assertion against it fails. -/
def tokenPieces (humanReadable : Bool) (c : Cursor) : Token → List Piece × Bool
  | .define _ _ name arguments body =>
    let (argumentPieces, afterArguments) := nestedPieces humanReadable false arguments
    let (bodyPieces, afterBody) := nestedPieces humanReadable afterArguments body
    (.fixed ['#', 'd', 'e', 'f', 'i', 'n', 'e', ' '] :: .name name ::
      (argumentPieces ++ bodySeparator humanReadable body ++ bodyPieces
        ++ lineEnd humanReadable afterBody), afterBody)
  | .conditional _ _ test name =>
    (.fixed ('#' :: (test.keyword ++ [' '])) :: .name name :: lineEnd humanReadable false, false)
  | .definedTest _ _ name =>
    ([.fixed ['d', 'e', 'f', 'i', 'n', 'e', 'd', '('], .name name, .fixed [')']], false)
  | .directive _ _ body =>
    let (bodyPieces, afterBody) := nestedPieces humanReadable false body
    (.fixed ['#'] :: (bodyPieces ++ lineEnd humanReadable afterBody), afterBody)
  | .lexeme text _ .identifier => ([identifier c text], false)
  | .lexeme text _ _ => ([.fixed text], false)

/-- The pieces of a part; an absent part leaves the line as it was. -/
def nestedPieces (humanReadable newline : Bool) : Option (List Token) → List Piece × Bool
  | none => ([], newline)
  | some tokens => streamPieces humanReadable start tokens

def streamPieces (humanReadable : Bool) (c : Cursor) : List Token → List Piece × Bool
  | [] => ([], c.newline)
  | t :: ts =>
    if t.isWhitespace then
      if humanReadable then
        let (rest, newline) := streamPieces humanReadable
          ⟨c.operator, false, t.text.getLast? == some '\n', c.separated⟩ ts
        (.fixed t.text :: rest, newline)
      else streamPieces humanReadable { c with separated := true } ts
    else
      let (own, ended) := tokenPieces humanReadable c t
      let (rest, newline) := streamPieces humanReadable (afterToken humanReadable ended t) ts
      (separator c t ++ own ++ rest, newline)

end

mutual

/-- The pieces of a token up to the first argument list in it that ends a line, if there is one:
what a debug build has written of the token when its assertion fails. -/
def tokenStop? (humanReadable : Bool) : Token → Option (List Piece)
  | .define _ _ name arguments body =>
    let (argumentPieces, afterArguments) := nestedPieces humanReadable false arguments
    let behind :=
      if afterArguments then some []
      else (nestedStop? humanReadable body).map (bodySeparator humanReadable body ++ ·)
    ((nestedStop? humanReadable arguments).or (behind.map (argumentPieces ++ ·))).map fun pieces =>
      .fixed ['#', 'd', 'e', 'f', 'i', 'n', 'e', ' '] :: .name name :: pieces
  | .directive _ _ body => (nestedStop? humanReadable body).map (.fixed ['#'] :: ·)
  | .conditional .. | .definedTest .. | .lexeme .. => none

def nestedStop? (humanReadable : Bool) : Option (List Token) → Option (List Piece)
  | none => none
  | some tokens => streamStop? humanReadable start tokens

def streamStop? (humanReadable : Bool) (c : Cursor) : List Token → Option (List Piece)
  | [] => none
  | t :: ts =>
    if t.isWhitespace then
      if humanReadable then
        (streamStop? humanReadable
          ⟨c.operator, false, t.text.getLast? == some '\n', c.separated⟩ ts).map (.fixed t.text :: ·)
      else streamStop? humanReadable { c with separated := true } ts
    else
      let (own, ended) := tokenPieces humanReadable c t
      let behind := streamStop? humanReadable (afterToken humanReadable ended t) ts
      ((tokenStop? humanReadable t).or (behind.map (own ++ ·))).map (separator c t ++ ·)

end

end Layout

def layout (humanReadable : Bool) (tokens : List Token) : List Piece × Bool :=
  Layout.streamPieces humanReadable Layout.start tokens

/-- What a debug build has written of a stream when the assertion on an argument list fails. -/
def layoutStop? (humanReadable : Bool) (tokens : List Token) : Option (List Piece) :=
  Layout.streamStop? humanReadable Layout.start tokens

end ShaderPress
