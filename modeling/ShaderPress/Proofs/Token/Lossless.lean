import Mathlib
import ShaderPress.Proofs.Token.Lexed

/-! # Lexing loses nothing

The tokens of a source, put together, are the source, and no token is empty.  This holds
inside as well: a directive is its hash, its keyword and name and the tokens of its parts,
with gaps alone between them.
-/
namespace ShaderPress.Token
variable {policy : UnknownPolicy} {tokens : List Token}

/-- A preprocessor form is its mark, keyword and name and the tokens of its parts, in this order
and with gaps alone between them. -/
def IsComposed : Token → Prop
  | define text _ name arguments body => ∃ before space, Form.IsGap before ∧ Form.IsGap space ∧
    space ≠ [] ∧ text = '#' :: (before ++ Keyword.define.text ++ space ++ name
      ++ partSource arguments ++ partSource body)
  | conditional text _ test name => ∃ before space, Form.IsGap before ∧ Form.IsGap space ∧
    space ≠ [] ∧ text = '#' :: (before ++ test.keyword ++ space ++ name)
  | definedTest text _ name => text = Form.definedOpen ++ name ++ [')']
  | directive text _ body => ∃ before, Form.IsGap before ∧ text = '#' :: (before ++ partSource body)
  | lexeme .. => True

theorem IsLexed.isComposed {t : Token} (h : t.IsLexed) : t.IsComposed := by
  obtain ⟨s, f, hf, ht⟩ := h
  have hspaced := Form.isSpaced_of_first? hf
  cases ht with
  | define gap space name line arguments body =>
    obtain ⟨hbefore, hspace, hne⟩ := hspaced
    exact ⟨gap, space, hbefore, hspace, hne, rfl⟩
  | conditional gap test space name line =>
    obtain ⟨hbefore, hspace, hne⟩ := hspaced
    exact ⟨gap, space, hbefore, hspace, hne, rfl⟩
  | definedTest name line => rfl
  | directive gap line body => exact ⟨gap, hspaced, rfl⟩
  | lexeme text line kind => trivial
  | unknown c line => trivial

/-- The tokens of a lexed source, put together, are the source.  None of them is empty at any
depth, and those with parts are put together from the tokens of their parts. -/
theorem lex_lossless {source : List Char} (h : (lex policy source).outcome = .ok tokens) :
    sourceOf tokens = source ∧ ∀ t ∈ deep tokens, t.text ≠ [] ∧ t.IsComposed := by
  refine ⟨sourceOf_lexFrom h, fun t ht => ?_⟩
  have hlexed := isLexed_of_lexFrom h t ht
  exact ⟨hlexed.text_ne_nil, hlexed.isComposed⟩

/-- A hash in the body of a macro opens a directive inside the macro. -/
theorem lex_lossless_of_hash :
    let source := "#define F(a) #a".toList
    let arguments : List Token :=
      [.lexeme ['('] 1 .operator, .lexeme ['a'] 1 .identifier, .lexeme [')'] 1 .operator]
    let body : List Token := [.lexeme [' '] 1 .whitespace,
      .directive ['#', 'a'] 1 (some [.lexeme ['a'] 1 .identifier])]
    let tokens : List Token := [.define source 1 ['F'] (some arguments) (some body)]
    (lex .reject source).outcome = .ok tokens ∧ sourceOf tokens = source ∧
      ∀ t ∈ deep tokens, t.text ≠ [] ∧ t.IsComposed := by
  intro source arguments body tokens
  have h : (lex .reject source).outcome = .ok tokens := by
    simp only [source, arguments, body, tokens]
    cbv
  exact ⟨h, lex_lossless h⟩

end ShaderPress.Token
