import ShaderPress.Token.Scan

/-! # From source text to tokens

The text is cut into forms from left to right.  Arguments and bodies of directives
are cut again in the same way, so every stretch that is lexed is shorter than the
one it was taken from.  The body of a macro starts on the line on which its
arguments end.
-/
namespace ShaderPress

/-- What to do with a character that no other rule accepts. -/
inductive UnknownPolicy where
  | pass
  | reject
deriving DecidableEq, Repr, Inhabited

namespace Form

theorem arguments_lt {s : List Char} {gap space : List Char} {name : Ident}
    {arguments body : List Char} (h : first? s = some (.define gap space name arguments body)) :
    arguments.length < s.length := by
  have := text_length_le h
  simp only [text, List.length_cons, List.length_append] at this
  omega

theorem body_lt {s : List Char} {gap space : List Char} {name : Ident}
    {arguments body : List Char} (h : first? s = some (.define gap space name arguments body)) :
    body.length < s.length := by
  have := text_length_le h
  simp only [text, List.length_cons, List.length_append] at this
  omega

theorem directiveBody_lt {s : List Char} {gap body : List Char}
    (h : first? s = some (.directive gap body)) : body.length < s.length := by
  have := text_length_le h
  simp only [text, List.length_cons, List.length_append] at this
  omega

theorem rest_lt {s : List Char} {f : Form} (h : first? s = some f)
    (hf : ∀ keyword, f ≠ malformed keyword) : s.length - f.text.length < s.length := by
  rcases covers_of_first? h with ⟨keyword, rfl⟩ | ⟨_, hne⟩
  · exact absurd rfl (hf keyword)
  · exact List.length_drop ▸ length_drop_lt h hne

end Form

def lexFrom (policy : UnknownPolicy) (line : Nat) (s : List Char) : Scan (List Token) :=
  match h : Form.first? s with
  | none => pure []
  | some (.malformed keyword) => .fail (.malformedDirective keyword (Text.firstLine s) line)
  | some (.define gap space name arguments body) => do
    have := Form.arguments_lt h
    have := Form.body_lt h
    have := Form.rest_lt h (by simp)
    let text := (Form.define gap space name arguments body).text
    let bodyLine := line + Text.newlines arguments
    let arguments ←
      if arguments = [] then pure none else some <$> lexFrom policy line arguments
    let body ← if body = [] then pure none else some <$> lexFrom policy bodyLine body
    Scan.note (.defined name)
    (.define text line name arguments body :: ·) <$>
      lexFrom policy (line + Text.newlines text) (s.drop text.length)
  | some (.conditional gap test space name) => do
    have := Form.rest_lt h (by simp)
    let text := (Form.conditional gap test space name).text
    Scan.note (.tested name)
    (.conditional text line test name :: ·) <$>
      lexFrom policy (line + Text.newlines text) (s.drop text.length)
  | some (.definedTest name) => do
    have := Form.rest_lt h (by simp)
    let text := (Form.definedTest name).text
    Scan.note (.tested name)
    (.definedTest text line name :: ·) <$>
      lexFrom policy (line + Text.newlines text) (s.drop text.length)
  | some (.directive gap body) => do
    have := Form.directiveBody_lt h
    have := Form.rest_lt h (by simp)
    let text := (Form.directive gap body).text
    let body ← if body = [] then pure none else some <$> lexFrom policy line body
    (.directive text line body :: ·) <$>
      lexFrom policy (line + Text.newlines text) (s.drop text.length)
  | some (.lexeme text kind) => do
    have := Form.rest_lt h (by simp)
    if kind = .identifier then Scan.note (.referenced text)
    (.lexeme text line kind :: ·) <$>
      lexFrom policy (line + Text.newlines text) (s.drop text.length)
  | some (.unknown c) => do
    have := Form.rest_lt h (by simp)
    if policy = .reject then .fail (.illegalCharacter c line)
    else
      (.lexeme [c] line .unknown :: ·) <$> lexFrom policy (line + Text.newlines [c]) (s.drop 1)
termination_by s.length
decreasing_by all_goals first | assumption | (rw [List.length_drop]; assumption)

def lex (policy : UnknownPolicy) (source : List Char) : Scan (List Token) :=
  lexFrom policy 1 source

end ShaderPress
