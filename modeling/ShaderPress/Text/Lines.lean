/-! # Lines of a text

Lines are counted by line feeds alone.  The first line of a text stops before the
first line feed and loses one carriage return that stands directly before it.
-/
namespace ShaderPress.Text

def newlines (s : List Char) : Nat := s.count '\n'

@[simp] theorem newlines_nil : newlines [] = 0 := rfl

@[simp] theorem newlines_append (s t : List Char) : newlines (s ++ t) = newlines s + newlines t := by
  simp [newlines]

/-- Text up to the first line feed; a carriage return that belongs to the line end is dropped. -/
def firstLine : List Char → List Char
  | [] => []
  | '\n' :: _ => []
  | '\r' :: '\n' :: _ => []
  | c :: s => c :: firstLine s

end ShaderPress.Text
