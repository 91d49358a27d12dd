import ShaderPress.Text.Hidden

/-! # Quoted text

The form in which a message shows a piece of source: double quotes around it, a
backslash before quotes and backslashes, short names for four controls, and the
number of every other character without a visible shape.
-/
namespace ShaderPress.Text

/-- A character by its number, in lower case hexadecimal without padding. -/
def numbered (c : Char) : List Char :=
  ['\\', 'u', '{'] ++ Nat.toDigits 16 c.toNat ++ ['}']

def quotedChar (c : Char) : List Char :=
  if c = '\x00' then ['\\', '0']
  else if c = '\t' then ['\\', 't']
  else if c = '\r' then ['\\', 'r']
  else if c = '\n' then ['\\', 'n']
  else if c = '\\' || c = '"' then ['\\', c]
  else if isHidden c then numbered c
  else [c]

def quoted (s : List Char) : List Char := '"' :: s.flatMap quotedChar ++ ['"']

@[simp] theorem quoted_nil : quoted [] = ['"', '"'] := rfl

end ShaderPress.Text
