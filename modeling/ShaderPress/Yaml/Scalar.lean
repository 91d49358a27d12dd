import ShaderPress.Yaml.Input

/-! # Scalar texts

How the text of a scalar is read in each of its styles.  Line ends inside plain and
quoted scalars fold: one becomes a space, and of several all but the first are kept.
Block scalars keep the lines of their indentation, folded or as they are.
-/
namespace ShaderPress.Yaml

inductive ScalarStyle where
  | plain
  | quoted
  | literal
  | folded
deriving DecidableEq, Repr

/-- Blanks between two pieces of text, not yet known to belong to it.  All parts are reversed. -/
inductive Gap where
  | spaces (taken : List Char)
  | lines (first : List Char) (others : List Char)
deriving DecidableEq, Repr

namespace Gap

def isLines : Gap → Bool
  | spaces _ => false
  | lines .. => true

/-- What a gap inside a scalar stands for, reversed. -/
def folded : Gap → List Char
  | spaces taken => taken
  | lines first others =>
    if first = ['\n'] then if others = [] then [' '] else others
    else others ++ first

/-- The gap with one more line end. -/
def breakLine (c : Char) : Option Gap → Gap
  | some (lines first others) => lines first (c :: others)
  | _ => lines [c] []

/-- The gap with one more space or tab; those at the start of a line are dropped. -/
def addSpace (c : Char) : Option Gap → Gap
  | some (lines first others) => lines first others
  | some (spaces taken) => spaces (c :: taken)
  | none => spaces [c]

end Gap

/-- Text read so far, reversed, with a gap that turned out to lie inside it. -/
def joinGap (text : List Char) : Option Gap → List Char
  | none => text
  | some gap => gap.folded ++ text

/-- A plain or quoted scalar: its text, the number of characters up to what follows, and whether
lines were crossed after it. -/
structure FlowScalar where
  text : List Char
  length : Nat
  crossedLine : Bool := false
deriving DecidableEq, Repr

def flowMarks : List Char := [',', '[', ']', '{', '}']

/-- A colon in a flow collection that neither divides nor belongs to the text. -/
def isStrayColon : List Char → Bool
  | ':' :: c :: _ => c == '?' || flowMarks.contains c
  | _ => false

def endsPlain (flow : Bool) : List Char → Bool
  | [] => true
  | ':' :: s => atBlank s
  | c :: _ => flow && flowMarks.contains c

/-- After a gap a plain scalar also ends where the indentation falls back, and at some marks. -/
def endsAfterGap (flow : Bool) (indent column : Nat) (s : List Char) : Bool :=
  (!flow && column < indent) || (column == 0 && isDocumentMark s) || s.head? == some '#'

/-- Reads a plain scalar; `text` is what was read before, reversed, `n` the number of characters. -/
def plainFrom (flow : Bool) (indent : Nat) (text : List Char) (gap : Option Gap) (column n : Nat) :
    List Char → Option FlowScalar
  | [] => some ⟨text.reverse, n, gap.any Gap.isLines⟩
  | c :: s =>
    if isBreak c then plainFrom flow indent text (some (Gap.breakLine c gap)) 0 (n + 1) s
    else if isSpace c then
      if gap.any Gap.isLines && column < indent && c == '\t' then none
      else plainFrom flow indent text (some (Gap.addSpace c gap)) (column + 1) (n + 1) s
    else if gap.isSome && endsAfterGap flow indent column (c :: s) then
      some ⟨text.reverse, n, gap.any Gap.isLines⟩
    else if flow && isStrayColon (c :: s) then none
    else if endsPlain flow (c :: s) then some ⟨text.reverse, n, gap.any Gap.isLines⟩
    else plainFrom flow indent (c :: joinGap text gap) none (column + 1) (n + 1) s

/-- Reads a scalar in single quotes, behind the first of them. -/
def singleQuotedFrom (text : List Char) (gap : Option Gap) (lineStart : Bool) (n : Nat) :
    List Char → Option FlowScalar
  | [] => none
  | c :: s =>
    if isBreak c then singleQuotedFrom text (some (Gap.breakLine c gap)) true (n + 1) s
    else if isSpace c then singleQuotedFrom text (some (Gap.addSpace c gap)) false (n + 1) s
    else if lineStart && isDocumentMark (c :: s) then none
    else
      match c, s with
      | '\'', '\'' :: s => singleQuotedFrom ('\'' :: joinGap text gap) none false (n + 2) s
      | '\'', _ => some { text := (joinGap text gap).reverse, length := n + 1 }
      | c, s => singleQuotedFrom (c :: joinGap text gap) none false (n + 1) s

def shortEscape? : Char → Option Char
  | '0' => some '\x00'
  | 'a' => some '\x07'
  | 'b' => some '\x08'
  | 't' | '\t' => some '\t'
  | 'n' => some '\n'
  | 'v' => some '\x0b'
  | 'f' => some '\x0c'
  | 'r' => some '\r'
  | 'e' => some '\x1b'
  | ' ' => some ' '
  | '"' => some '"'
  | '/' => some '/'
  | '\\' => some '\\'
  | 'N' => some '\u0085'
  | '_' => some '\u00a0'
  | 'L' => some '\u2028'
  | 'P' => some '\u2029'
  | _ => none

def hexDigit? (c : Char) : Option Nat :=
  if c.isDigit then some (c.toNat - '0'.toNat)
  else if 'a' ≤ c && c ≤ 'f' then some (c.toNat - 'a'.toNat + 10)
  else if 'A' ≤ c && c ≤ 'F' then some (c.toNat - 'A'.toNat + 10)
  else none

def hexNumber? (ds : List Char) : Option Nat :=
  ds.foldlM (fun n c => (hexDigit? c).map (16 * n + ·)) 0

def numberedChar? (ds : List Char) : Option Char := do
  let n ← hexNumber? ds
  if h : n.isValidChar then some (Char.ofNatAux n h) else none

/-- Reads a scalar in double quotes, behind the first of them. -/
def doubleQuotedFrom (text : List Char) (gap : Option Gap) (lineStart : Bool) (n : Nat) :
    List Char → Option FlowScalar
  | [] => none
  | '\\' :: [] => none
  | '\\' :: 'x' :: a :: b :: s =>
    match numberedChar? [a, b] with
    | none => none
    | some c => doubleQuotedFrom (c :: joinGap text gap) none false (n + 4) s
  | '\\' :: 'u' :: a :: b :: c :: d :: s =>
    match numberedChar? [a, b, c, d] with
    | none => none
    | some c => doubleQuotedFrom (c :: joinGap text gap) none false (n + 6) s
  | '\\' :: 'U' :: a :: b :: c :: d :: e :: f :: g :: h :: s =>
    match numberedChar? [a, b, c, d, e, f, g, h] with
    | none => none
    | some c => doubleQuotedFrom (c :: joinGap text gap) none false (n + 10) s
  | '\\' :: c :: s =>
    if isBreak c then doubleQuotedFrom (joinGap text gap) (some (.lines [] [])) true (n + 2) s
    else
      match shortEscape? c with
      | none => none
      | some c => doubleQuotedFrom (c :: joinGap text gap) none false (n + 2) s
  | c :: s =>
    if isBreak c then doubleQuotedFrom text (some (Gap.breakLine c gap)) true (n + 1) s
    else if isSpace c then doubleQuotedFrom text (some (Gap.addSpace c gap)) false (n + 1) s
    else if lineStart && isDocumentMark (c :: s) then none
    else if c == '"' then some { text := (joinGap text gap).reverse, length := n + 1 }
    else doubleQuotedFrom (c :: joinGap text gap) none false (n + 1) s

/-- What becomes of the line ends at the end of a block scalar. -/
inductive Chomping where
  | strip
  | clip
  | keep
deriving DecidableEq, Repr

/-- The head of a block scalar: chomping, and the indentation if it is given. -/
structure BlockHead where
  chomping : Chomping
  increment : Option Nat
  rest : List Char
deriving DecidableEq, Repr

def chomping? : List Char → Option (Chomping × List Char)
  | '-' :: s => some (.strip, s)
  | '+' :: s => some (.keep, s)
  | _ => none

/-- An indentation digit; zero is none. -/
def increment? : List Char → Option (Nat × List Char)
  | c :: s => if c.isDigit then some (c.toNat - '0'.toNat, s) else none
  | [] => none

/-- The rest of a line that may hold only blanks and a comment. -/
def restOfLine? (s : List Char) : Option (List Char) :=
  let s := s.dropWhile isSpace
  let s := if s.head? == some '#' then s.dropWhile (!isBreak ·) else s
  if atBreak s then some (s.drop 1) else none

def blockHead? (s : List Char) : Option BlockHead := do
  let (chomping, increment, s) :=
    match chomping? s with
    | some (chomping, s) =>
      match increment? s with
      | some (n, s) => (chomping, some n, s)
      | none => (chomping, none, s)
    | none =>
      match increment? s with
      | some (n, s) =>
        match chomping? s with
        | some (chomping, s) => (chomping, some n, s)
        | none => (.clip, some n, s)
      | none => (.clip, none, s)
  if increment = some 0 then none
  else
    let rest ← restOfLine? s
    some ⟨chomping, increment, rest⟩

/-- The empty lines at the start of a block scalar, reversed, and the deepest indentation seen. -/
structure BlockStart where
  breaks : List Char
  deepest : Nat
  column : Nat
  rest : List Char
deriving DecidableEq, Repr

/-- Skips empty lines and the indentation of the first other line. -/
def blockStart? (column deepest : Nat) (breaks : List Char) : List Char → Option BlockStart
  | [] => some ⟨breaks, deepest, column, []⟩
  | c :: s =>
    if c == ' ' then blockStart? (column + 1) (max deepest (column + 1)) breaks s
    else if c == '\t' then none
    else if isBreak c then blockStart? 0 deepest (c :: breaks) s
    else some ⟨breaks, deepest, column, c :: s⟩

/-- Text of a block scalar so far, reversed, with the line ends that may still fold. -/
structure BlockText where
  text : List Char
  lineEnd : List Char
  emptyLines : List Char
  /-- The last line started with a blank. -/
  indented : Bool
deriving DecidableEq, Repr

namespace BlockText

/-- Starts a line with its first character; the line end before it folds between two plain lines. -/
def startLine (folded : Bool) (b : BlockText) (c : Char) : BlockText :=
  let joined :=
    if folded && b.lineEnd == ['\n'] && !b.indented && !isSpace c then
      if b.emptyLines = [] then ' ' :: b.text else b.text
    else b.lineEnd ++ b.text
  ⟨c :: (b.emptyLines ++ joined), [], [], isSpace c⟩

def finish (chomping : Chomping) (b : BlockText) : List Char :=
  match chomping with
  | .strip => b.text.reverse
  | .clip => (b.lineEnd ++ b.text).reverse
  | .keep => (b.emptyLines ++ (b.lineEnd ++ b.text)).reverse

end BlockText

/-- Reads the lines of a block scalar; `inside` says that a line has begun.  Gives the text with
what follows it. -/
def blockFrom (folded : Bool) (chomping : Chomping) (indent : Nat) (b : BlockText) (inside : Bool)
    (column : Nat) : List Char → Option (List Char × List Char)
  | [] => some (b.finish chomping, [])
  | c :: s =>
    if inside then
      if isBreak c then blockFrom folded chomping indent { b with lineEnd := [c] } false 0 s
      else blockFrom folded chomping indent { b with text := c :: b.text } true (column + 1) s
    else if column < indent && c == ' ' then
      blockFrom folded chomping indent b false (column + 1) s
    else if column < indent && c == '\t' then none
    else if isBreak c then
      blockFrom folded chomping indent { b with emptyLines := c :: b.emptyLines } false 0 s
    else if column == indent then
      blockFrom folded chomping indent (b.startLine folded c) true (column + 1) s
    else some (b.finish chomping, c :: s)

/-- Reads a block scalar behind its mark, inside a collection that starts at `parent` columns less one. -/
def block? (folded : Bool) (parent : Nat) (s : List Char) : Option (List Char × List Char) := do
  let head ← blockHead? s
  match head.increment with
  | some n => blockFrom folded head.chomping (parent - 1 + n) ⟨[], [], [], false⟩ false 0 head.rest
  | none =>
    let start ← blockStart? 0 0 [] head.rest
    let indent := max start.deepest (max parent 1)
    blockFrom folded head.chomping indent ⟨[], [], start.breaks, false⟩ false start.column start.rest

end ShaderPress.Yaml
