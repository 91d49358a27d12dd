import ShaderPress.Token.Form

/-! # The rules one by one

A form at the start of a text has been found by one of the rules.  Those for lexemes are
one rule with as many patterns, so a property of forms takes six cases.  Between the parts
of a preprocessor form stand spaces and tabs alone.
-/
namespace ShaderPress

/-- The pattern of a kind of lexeme.  A character that no rule accepts has none. -/
def Lexeme.pattern : Lexeme → List Char → List Char
  | tokenPaste => Pattern.tokenPaste
  | lineComment => Pattern.lineComment
  | blockComment => Pattern.blockComment
  | whitespace => Pattern.whitespace
  | operator => Pattern.operator
  | floatLiteral => Pattern.floatLiteral
  | hexLiteral => Pattern.hexLiteral
  | intLiteral => Pattern.intLiteral
  | identifier => Pattern.identifier
  | unknown => fun _ => []

theorem Lexeme.pattern_isPrefix (kind : Lexeme) (s : List Char) : kind.pattern s <+: s := by
  cases kind with
  | tokenPaste => exact Pattern.tokenPaste_isPrefix s
  | lineComment => exact Pattern.lineComment_isPrefix s
  | blockComment => exact Pattern.blockComment_isPrefix s
  | whitespace => exact Pattern.whitespace_isPrefix s
  | operator => exact Pattern.operator_isPrefix s
  | floatLiteral => exact Pattern.floatLiteral_isPrefix s
  | hexLiteral => exact Pattern.hexLiteral_isPrefix s
  | intLiteral => exact Pattern.intLiteral_isPrefix s
  | identifier => exact Pattern.identifier_isPrefix s
  | unknown => exact List.nil_prefix

namespace Form
open Pattern
variable {s : List Char} {f : Form}

/-- The rule by which a form has been found at the start of a text. -/
inductive Found (s : List Char) : Form → Prop
  | define {f : Form} (h : define? s = some f) : Found s f
  | conditional {f : Form} (test : Conditional) (h : conditional? test s = some f) : Found s f
  | definedTest {f : Form} (h : definedTest? s = some f) : Found s f
  | directive {f : Form} (h : directive? s = some f) : Found s f
  | lexeme (kind : Lexeme) (h : kind.pattern s ≠ []) : Found s (.lexeme (kind.pattern s) kind)
  | unknown (c : Char) (rest : List Char) (h : s = c :: rest) : Found s (.unknown c)

theorem found_of_first? (h : first? s = some f) : Found s f := by
  have lexeme : ∀ kind : Lexeme, lexeme? kind kind.pattern s = some f → Found s f := by
    intro kind hk
    obtain ⟨rfl, hne⟩ := lexeme?_eq_some hk
    exact .lexeme kind hne
  obtain ⟨rule, hm, hr⟩ := List.exists_of_findSome?_eq_some h
  simp only [rules, List.mem_cons, List.not_mem_nil, or_false] at hm
  rcases hm with rfl | rfl | rfl | rfl | rfl | rfl | rfl | rfl | rfl | rfl | rfl | rfl | rfl | rfl
    | rfl
  · exact .define hr
  · exact .conditional .ifdef hr
  · exact .conditional .ifndef hr
  · exact .definedTest hr
  · exact lexeme .tokenPaste hr
  · exact .directive hr
  · exact lexeme .lineComment hr
  · exact lexeme .blockComment hr
  · exact lexeme .whitespace hr
  · exact lexeme .operator hr
  · exact lexeme .floatLiteral hr
  · exact lexeme .hexLiteral hr
  · exact lexeme .intLiteral hr
  · exact lexeme .identifier hr
  · cases s with
    | nil => cases hr
    | cons c rest =>
      cases hr
      exact .unknown c rest rfl

/-- A lexeme is what the pattern of its kind finds. -/
theorem pattern_of_first? {text : List Char} {kind : Lexeme}
    (h : first? s = some (.lexeme text kind)) : text = kind.pattern s ∧ text ≠ [] := by
  generalize hf : Form.lexeme text kind = f at h
  cases found_of_first? h with
  | define hr | conditional test hr =>
    rcases named?_eq_some hr with rfl | ⟨_, _, _, _, _, rfl⟩ <;> cases hf
  | definedTest hr =>
    obtain ⟨_, _, rfl, _⟩ := definedTest?_eq_some hr
    cases hf
  | directive hr =>
    obtain ⟨_, _, rfl, _⟩ := directive?_eq_some hr
    cases hf
  | lexeme kind hne =>
    cases hf
    exact ⟨rfl, hne⟩
  | unknown => cases hf

/-- Spaces and tabs alone. -/
def IsGap (s : List Char) : Prop := ∀ c ∈ s, c = ' ' ∨ c = '\t'

theorem isGap_gap (s : List Char) : IsGap (gap s) := by
  intro c hc
  have hgap : isGap c = true := List.all_eq_true.mp List.all_takeWhile c hc
  simpa [Pattern.isGap] using hgap

/-- Between the parts of a preprocessor form stand gaps, and one behind its keyword. -/
def IsSpaced : Form → Prop
  | define before space _ _ _ | conditional before _ space _ =>
    IsGap before ∧ IsGap space ∧ space ≠ []
  | directive before _ => IsGap before
  | _ => True

theorem isSpaced_of_named? {keyword : Keyword}
    {form : List Char → List Char → Ident → List Char → Form}
    (h : named? keyword form s = some f)
    (hform : ∀ before space name rest, IsGap before ∧ IsGap space ∧ space ≠ [] →
      IsSpaced (form before space name rest)) : IsSpaced f := by
  unfold named? at h
  split at h
  · cases h
  · next before t ht =>
    simp only at h
    split at h
    · split at h
      · cases h
        trivial
      · cases h
    · next hn =>
      cases h
      have hbefore : IsGap before := by
        unfold afterKeyword? at ht
        split at ht
        · next s =>
          obtain ⟨u, -, he⟩ := Option.map_eq_some_iff.mp ht
          cases he
          exact isGap_gap s
        · cases ht
      refine hform _ _ _ _ ⟨hbefore, isGap_gap t, fun he => hn ?_⟩
      rw [he]
      rfl

theorem isSpaced_of_first? (h : first? s = some f) : IsSpaced f := by
  cases found_of_first? h with
  | define hr | conditional test hr => exact isSpaced_of_named? hr fun _ _ _ _ hg => hg
  | definedTest hr =>
    obtain ⟨name, -, rfl, -⟩ := definedTest?_eq_some hr
    trivial
  | directive hr =>
    unfold directive? at hr
    split at hr
    · next s =>
      cases hr
      exact isGap_gap s
    · cases hr
  | lexeme kind hne => trivial
  | unknown c rest hs => trivial

end Form

end ShaderPress
