/-! # Strings in JSON

Quotes and backslashes get a backslash, and so do the controls with a letter of
their own; all other controls are written by number.
-/
namespace ShaderPress.Text

/-- A control by its number, in four hexadecimal digits. -/
def controlEscape (c : Char) : List Char :=
  let ds := Nat.toDigits 16 c.toNat
  '\\' :: 'u' :: (List.replicate (4 - ds.length) '0' ++ ds)

def jsonChar (c : Char) : List Char :=
  if c = '"' || c = '\\' then ['\\', c]
  else if c = '\x08' then ['\\', 'b']
  else if c = '\t' then ['\\', 't']
  else if c = '\n' then ['\\', 'n']
  else if c = '\x0c' then ['\\', 'f']
  else if c = '\r' then ['\\', 'r']
  else if c < ' ' then controlEscape c
  else [c]

def jsonString (s : List Char) : List Char := '"' :: s.flatMap jsonChar ++ ['"']

end ShaderPress.Text
