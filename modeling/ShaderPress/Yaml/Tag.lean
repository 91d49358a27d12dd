import ShaderPress.Yaml.Scalar

/-! # Tags

The text of a tag is a row of octets.  Characters of a small set stand for their own
octet, and any octet can be written by its number behind a percent sign.  Numbers come
in groups: the first of them tells how many have to follow, as in UTF-8, but what the
group spells is not looked at.  A zero octet ends the text wherever it stands.
-/
namespace ShaderPress.Yaml

structure Tag where
  octets : List UInt8
deriving DecidableEq, Repr

namespace Tag

/-- The octets up to the first zero. -/
def ofOctets (octets : List UInt8) : Tag := ⟨octets.takeWhile (· != 0)⟩

def ofAscii (s : List Char) : Tag := ofOctets (s.map fun c => UInt8.ofNat c.toNat)

def append (a b : Tag) : Tag := ⟨a.octets ++ b.octets⟩

/-- The tag that only says that a node is none of the standard kinds. -/
def nonSpecific : Tag := ofAscii ['!']

def standardStart : Tag := ofAscii "tag:yaml.org,2002:".toList

def null : Tag := standardStart.append (ofAscii ['n', 'u', 'l', 'l'])

def int : Tag := standardStart.append (ofAscii ['i', 'n', 't'])

end Tag

def isUriChar (c : Char) : Bool :=
  isWordChar c
    || [';', '/', '?', ':', '@', '&', '=', '+', '$', '.', '!', '~', '*', '\'', '(', ')'].contains c

/-- How many octets have to follow the first one of a group. -/
def followers? (n : Nat) : Option Nat :=
  if n < 0x80 then some 0
  else if 0xc0 ≤ n && n < 0xe0 then some 1
  else if 0xe0 ≤ n && n < 0xf0 then some 2
  else if 0xf0 ≤ n && n < 0xf8 then some 3
  else none

/-- How many octets of a group are due after one more. -/
def nextDue? (n : Nat) : Nat → Option Nat
  | 0 => followers? n
  | due + 1 => if 0x80 ≤ n && n < 0xc0 then some due else none

/-- The longest stretch of a tag text, with `due` octets of a group still to come; commas and
brackets belong to it only where flow marks are allowed. -/
def tagOctets? (flowAllowed : Bool) (due : Nat) (taken : List UInt8) :
    List Char → Option (List UInt8 × List Char)
  | [] => if due = 0 then some (taken.reverse, []) else none
  | '%' :: a :: b :: s =>
    match hexNumber? [a, b] with
    | none => none
    | some n =>
      match nextDue? n due with
      | none => none
      | some due => tagOctets? flowAllowed due (UInt8.ofNat n :: taken) s
  | c :: s =>
    if due ≠ 0 || c == '%' then none
    else if isUriChar c || flowAllowed && [',', '[', ']'].contains c then
      tagOctets? flowAllowed 0 (UInt8.ofNat c.toNat :: taken) s
    else some (taken.reverse, c :: s)

def tagText? (flowAllowed : Bool) (s : List Char) : Option (Tag × List Char) :=
  match tagOctets? flowAllowed 0 [] s with
  | none | some ([], _) => none
  | some (octets, rest) => some (Tag.ofOctets octets, rest)

/-- The handle of a tag: a mark, letters, and a second mark if there is one. -/
def tagHandle? : List Char → Option (List Char × List Char)
  | '!' :: s =>
    let name := s.takeWhile isWordChar
    match s.drop name.length with
    | '!' :: rest => some ('!' :: (name ++ ['!']), rest)
    | rest => some ('!' :: name, rest)
  | _ => none

/-- A handle between two marks. -/
def isClosedHandle (handle : List Char) : Bool :=
  2 ≤ handle.length && handle.getLast? == some '!'

/-- The handle and the rest of a tag, from its mark on.  A full tag has no handle. -/
def tag? (flow : Bool) (s : List Char) : Option ((List Char × Tag) × List Char) := do
  let (tag, rest) ←
    match s with
    | '!' :: '<' :: t =>
      match tagText? true t with
      | some (text, '>' :: rest) => some (([], text), rest)
      | _ => none
    | _ =>
      let (handle, rest) ← tagHandle? s
      if isClosedHandle handle then
        let (text, rest) ← tagText? false rest
        some ((handle, text), rest)
      else
        let before := (handle.drop 1).map fun c => UInt8.ofNat c.toNat
        let (octets, rest) ← tagOctets? false 0 before.reverse rest
        let text := Tag.ofOctets octets
        some (if text.octets = [] then ([], Tag.nonSpecific) else (['!'], text), rest)
  if atBlank rest || flow && rest.head? == some ',' then some (tag, rest) else none

end ShaderPress.Yaml
