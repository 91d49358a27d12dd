/-! # Tokens of a shader source

A token covers a stretch of source text and knows the line it starts on.  The
preprocessor forms carry their parts: a macro definition its argument list and
body, any other directive its body, each a token stream of its own.  An absent
part is told from an empty one, because stripping can empty a part.
-/
namespace ShaderPress

/-- An identifier as the source spells it, sigil included. -/
abbrev Ident := List Char

/-- The tokens without parts. -/
inductive Lexeme where
  | tokenPaste
  | lineComment
  | blockComment
  | whitespace
  | operator
  | floatLiteral
  | hexLiteral
  | intLiteral
  | identifier
  | unknown
deriving DecidableEq, Repr, Inhabited

/-- The two conditionals that test a single name. -/
inductive Conditional where
  | ifdef
  | ifndef
deriving DecidableEq, Repr, Inhabited

namespace Conditional

def keyword : Conditional → List Char
  | .ifdef => ['i', 'f', 'd', 'e', 'f']
  | .ifndef => ['i', 'f', 'n', 'd', 'e', 'f']

end Conditional

inductive Token where
  | define (text : List Char) (line : Nat) (name : Ident) (arguments body : Option (List Token))
  | conditional (text : List Char) (line : Nat) (test : Conditional) (name : Ident)
  | definedTest (text : List Char) (line : Nat) (name : Ident)
  | directive (text : List Char) (line : Nat) (body : Option (List Token))
  | lexeme (text : List Char) (line : Nat) (kind : Lexeme)
deriving Repr, Inhabited

namespace Token

def text : Token → List Char
  | define text .. | conditional text .. | definedTest text .. | directive text ..
  | lexeme text .. => text

def line : Token → Nat
  | define _ line .. | conditional _ line .. | definedTest _ line .. | directive _ line ..
  | lexeme _ line .. => line

def isComment : Token → Bool
  | lexeme _ _ .lineComment | lexeme _ _ .blockComment => true
  | _ => false

def isWhitespace : Token → Bool
  | lexeme _ _ .whitespace => true
  | _ => false

/-- Nothing that counts: whitespace or a comment. -/
def isBlank (t : Token) : Bool := t.isWhitespace || t.isComment

/-- A preprocessor line, which must start on a line of its own. -/
def isDirective : Token → Bool
  | define .. | conditional .. | directive .. => true
  | _ => false

/-- A token that would merge with a neighbour of this class if nothing stood between them. -/
def needsSpacing : Token → Bool
  | lexeme _ _ .floatLiteral | lexeme _ _ .intLiteral | lexeme _ _ .hexLiteral
  | lexeme _ _ .identifier | definedTest .. => true
  | _ => false

def operator? : Token → Option (List Char)
  | lexeme text _ .operator => some text
  | _ => none

/-- Induction over a token stream and, at once, over the streams inside its tokens. -/
theorem stream_induction {motive : List Token → Prop} (nil : motive [])
    (define : ∀ text line name arguments body rest, (∀ s, arguments = some s → motive s) →
      (∀ s, body = some s → motive s) → motive rest →
      motive (define text line name arguments body :: rest))
    (conditional : ∀ text line test name rest, motive rest →
      motive (conditional text line test name :: rest))
    (definedTest : ∀ text line name rest, motive rest →
      motive (definedTest text line name :: rest))
    (directive : ∀ text line body rest, (∀ s, body = some s → motive s) → motive rest →
      motive (directive text line body :: rest))
    (lexeme : ∀ text line kind rest, motive rest → motive (lexeme text line kind :: rest)) :
    ∀ tokens, motive tokens :=
  Token.rec_2 (motive_1 := fun t => ∀ rest, motive rest → motive (t :: rest))
    (motive_2 := fun o => ∀ s, o = some s → motive s) (motive_3 := motive)
    (fun text line name arguments body ha hb rest hr =>
      define text line name arguments body rest ha hb hr)
    (fun text line test name rest hr => conditional text line test name rest hr)
    (fun text line name rest hr => definedTest text line name rest hr)
    (fun text line body hb rest hr => directive text line body rest hb hr)
    (fun text line kind rest hr => lexeme text line kind rest hr)
    (fun s h => by cases h) (fun s hs t h => by cases h; exact hs) nil
    (fun t rest ht hr => ht rest hr)

end Token

end ShaderPress
