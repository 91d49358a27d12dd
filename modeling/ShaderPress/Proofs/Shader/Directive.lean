import ShaderPress.Proofs.Shader.Layout

/-! # The layout of a directive

A directive starts a line, so what it is written as does not depend on the cursor: at
most a line end stands before it, and the layout takes a line to start behind it.
-/
namespace ShaderPress

namespace Token
variable {t : Token}

theorem isWhitespace_of_isDirective (ht : t.isDirective = true) : t.isWhitespace = false := by
  cases t with
  | lexeme => cases ht
  | _ => rfl

theorem isBlank_of_isDirective (ht : t.isDirective = true) : t.isBlank = false := by
  cases t with
  | lexeme => cases ht
  | _ => rfl

theorem needsSpacing_of_isDirective (ht : t.isDirective = true) : t.needsSpacing = false := by
  cases t with
  | definedTest | lexeme => cases ht
  | _ => rfl

theorem operator?_of_isDirective (ht : t.isDirective = true) : t.operator? = none := by
  cases t with
  | definedTest | lexeme => cases ht
  | _ => rfl

end Token

namespace Layout
open Token

theorem tokenPieces_lexeme {kind : Lexeme} (hk : kind ≠ .identifier) {humanReadable : Bool}
    {c : Cursor} {text : List Char} {line : Nat} :
    tokenPieces humanReadable c (.lexeme text line kind) = ([.fixed text], false) := by
  rw [tokenPieces]
  exact fun h => hk h

theorem tokenPieces_directive (c : Cursor) (text : List Char) (line : Nat)
    (body : Option (List Token)) :
    (tokenPieces false c (.directive text line body)).1 = [.fixed ['#']] ++
      ((nestedPieces false false body).1 ++ lineEnd false (nestedPieces false false body).2) := by
  rw [tokenPieces]
  rfl

theorem tokenPieces_define (c : Cursor) (text : List Char) (line : Nat) (name : Ident)
    (arguments body : Option (List Token)) :
    (tokenPieces false c (.define text line name arguments body)).1 =
      [.fixed ['#', 'd', 'e', 'f', 'i', 'n', 'e', ' '], .name name] ++
        ((nestedPieces false false arguments).1 ++ (bodySeparator false body ++
          ((nestedPieces false (nestedPieces false false arguments).2 body).1 ++
            lineEnd false (nestedPieces false (nestedPieces false false arguments).2 body).2))) := by
  rw [tokenPieces]
  simp only [List.append_assoc]
  rfl

theorem newline_tokenPieces {t : Token} {humanReadable : Bool} (c : Cursor)
    (ht : t.isDirective = false) : (tokenPieces humanReadable c t).2 = false := by
  cases t with
  | definedTest => rw [tokenPieces]
  | lexeme text line kind => cases kind <;> rw [tokenPieces] <;> simp
  | _ => cases ht

/-- The line end before a directive that is not taken to start a line. -/
def lineStart (c : Cursor) : List Piece := if c.newline then [] else [.fixed ['\n']]

theorem separator_directive (c : Cursor) {t : Token} (ht : t.isDirective = true) :
    separator c t = lineStart c := by
  have ho : mergesWith c.operator t.operator? = false := by
    rw [operator?_of_isDirective ht]
    cases c.operator <;> rfl
  unfold separator lineStart
  cases c.newline <;> simp [ht, needsSpacing_of_isDirective ht, ho]

theorem tokenPieces_eq_of_isDirective (c c' : Cursor) {t : Token} (ht : t.isDirective = true) :
    tokenPieces false c t = tokenPieces false c' t := by
  cases t with
  | define | conditional | directive => rw [tokenPieces, tokenPieces]
  | _ => cases ht

theorem written_directive (c : Cursor) {t : Token} (ht : t.isDirective = true) :
    Layout.written false c t = lineStart c ++ (tokenPieces false c t).1 := by
  have hw : t.isWhitespace = false := isWhitespace_of_isDirective ht
  rw [Layout.written, if_neg (by simp [hw]), separator_directive c ht]

/-- A directive starts afresh: before it there is at most a line end. -/
theorem streamPieces_directive_cons (c : Cursor) {t : Token} (ht : t.isDirective = true)
    (ts : List Token) :
    (streamPieces false c (t :: ts)).1 = lineStart c ++ (layout false (t :: ts)).1 := by
  have hw : t.isWhitespace = false := isWhitespace_of_isDirective ht
  have hp := tokenPieces_eq_of_isDirective c start ht
  have hc : advance false c t = advance false start t := by
    simp [advance, hw, hp]
  have hstart : Layout.written false start t = (tokenPieces false start t).1 :=
    written_directive start ht
  rw [layout, streamPieces_cons c, streamPieces_cons start, hc, written_directive c ht, hstart, hp]
  exact List.append_assoc _ _ _

theorem streamPieces_directive (c : Cursor) {t : Token} (ht : t.isDirective = true) :
    streamPieces false c [t] = (lineStart c ++ (tokenPieces false c t).1, true) := by
  have hw : t.isWhitespace = false := isWhitespace_of_isDirective ht
  rw [streamPieces_cons, streamPieces_nil, written_directive c ht]
  simp [advance, hw, afterToken, ht]

end Layout

end ShaderPress
