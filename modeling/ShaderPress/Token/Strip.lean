import ShaderPress.Token.Basic

/-! # Stripping a token stream

Stripping drops the definitions of dead names with all they hold, makes each comment
one blank, and joins whitespace that has come to stand side by side.  It works at
every depth.  The definitions left and those dropped never outnumber those that were
there.
-/
namespace ShaderPress.Token

/-- A comment still separates its neighbours. -/
def blankedComment : Token → Token
  | lexeme _ line .lineComment | lexeme _ line .blockComment => lexeme [' '] line .whitespace
  | t => t

/-- Puts a token before a stream; whitespace before whitespace becomes one token. -/
def attach : Token → List Token → List Token
  | lexeme text line .whitespace, lexeme next _ .whitespace :: ts =>
    lexeme (text ++ next) line .whitespace :: ts
  | t, ts => t :: ts

mutual

def stripNested (dead : Ident → Bool) : Option (List Token) → Option (List Token)
  | none => none
  | some tokens => some (strip dead tokens)
decreasing_by
  simp only [Option.some.sizeOf_spec]
  omega

/-- The stream without the definitions of dead names. -/
def strip (dead : Ident → Bool) : List Token → List Token
  | [] => []
  | define text line name arguments body :: ts =>
    if dead name then strip dead ts
    else
      define text line name (stripNested dead arguments) (stripNested dead body) :: strip dead ts
  | directive text line body :: ts => directive text line (stripNested dead body) :: strip dead ts
  | t :: ts => attach t.blankedComment (strip dead ts)
decreasing_by
  all_goals
    simp only [List.cons.sizeOf_spec, define.sizeOf_spec, directive.sizeOf_spec]
    omega

end

mutual

def removedNested (dead : Ident → Bool) : Option (List Token) → Nat
  | none => 0
  | some tokens => removed dead tokens
decreasing_by
  simp only [Option.some.sizeOf_spec]
  omega

/-- How many definitions stripping drops, not counting those inside a dropped one. -/
def removed (dead : Ident → Bool) : List Token → Nat
  | [] => 0
  | define _ _ name arguments body :: ts =>
    if dead name then removed dead ts + 1
    else removedNested dead arguments + removedNested dead body + removed dead ts
  | directive _ _ body :: ts => removedNested dead body + removed dead ts
  | _ :: ts => removed dead ts
decreasing_by
  all_goals
    simp only [List.cons.sizeOf_spec, define.sizeOf_spec, directive.sizeOf_spec]
    omega

end

mutual

def definesNested : Option (List Token) → Nat
  | none => 0
  | some tokens => defines tokens

def defines : List Token → Nat
  | [] => 0
  | define _ _ _ arguments body :: ts =>
    definesNested arguments + definesNested body + defines ts + 1
  | directive _ _ body :: ts => definesNested body + defines ts
  | _ :: ts => defines ts

end

theorem defines_attach (t : Token) (ts : List Token) : defines (attach t ts) = defines (t :: ts) := by
  unfold attach
  split
  · simp [defines]
  · rfl

theorem defines_strip_add_removed_le (dead : Ident → Bool) (tokens : List Token) :
    defines (strip dead tokens) + removed dead tokens ≤ defines tokens := by
  have nested : ∀ o : Option (List Token),
      (∀ s, o = some s → defines (strip dead s) + removed dead s ≤ defines s) →
      definesNested (stripNested dead o) + removedNested dead o ≤ definesNested o := by
    intro o h
    cases o with
    | none => simp [stripNested, definesNested, removedNested]
    | some s => simpa [stripNested, definesNested, removedNested] using h s rfl
  induction tokens using stream_induction with
  | nil => simp [strip, defines, removed]
  | define text line name arguments body rest ha hb hr =>
    have := nested arguments ha
    have := nested body hb
    simp only [strip, removed, defines]
    split
    · omega
    · simp only [defines]; omega
  | conditional text line test name rest hr =>
    simpa [strip, removed, defines, defines_attach, blankedComment] using hr
  | definedTest text line name rest hr =>
    simpa [strip, removed, defines, defines_attach, blankedComment] using hr
  | directive text line body rest hb hr =>
    have := nested body hb
    simp only [strip, removed, defines]
    omega
  | lexeme text line kind rest hr =>
    cases kind <;> simpa [strip, removed, defines, defines_attach, blankedComment] using hr

end ShaderPress.Token
