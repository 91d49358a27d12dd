import ShaderPress.Proofs.Token.Boundaries
import ShaderPress.Proofs.Token.Lexed
import ShaderPress.Proofs.Token.Lexemes
import ShaderPress.Proofs.Token.Names
import ShaderPress.Proofs.Token.Strictness

/-! # The form of tokens at every depth

Where illegal characters are rejected, every token of a source has the form of its kind: a
name is a word with an optional sigil, an operator is a single character, and the characters
of a number are those of words, points and signs.
-/
namespace ShaderPress

namespace Pattern
variable {w : List Char}

/-- The characters of numbers. -/
def IsNumeric (c : Char) : Prop := isIdentPart c = true ∨ c ∈ ['.', '+', '-']

theorem IsDigits.isNumeric (h : IsDigits w) : ∀ c ∈ w, IsNumeric c :=
  fun c hc => Or.inl (isIdentPart_of_isDigit (h.digit c hc))

theorem isNumeric_mark : ∀ c ∈ ['u'], IsNumeric c := by
  intro c hc
  obtain rfl := List.mem_singleton.mp hc
  exact Or.inl (by decide)

theorem IsInt.isNumeric (h : IsInt w) : ∀ c ∈ w, IsNumeric c := by
  cases h with
  | plain hd => exact hd.isNumeric
  | unsigned hd => exact List.forall_mem_append.mpr ⟨hd.isNumeric, isNumeric_mark⟩

theorem IsHex.isNumeric (h : IsHex w) : ∀ c ∈ w, IsNumeric c := by
  cases h with
  | mk hd hmark =>
    refine List.forall_mem_cons.mpr ⟨Or.inl (by decide), List.forall_mem_cons.mpr
      ⟨Or.inl (by decide), List.forall_mem_append.mpr ⟨fun c hc => ?_, ?_⟩⟩⟩
    · exact Or.inl (isIdentPart_of_isHexDigit (hd.2 c hc))
    · rcases hmark with rfl | rfl
      · exact fun c hc => absurd hc List.not_mem_nil
      · exact isNumeric_mark

theorem IsExponent.isNumeric (h : IsExponent w) : ∀ c ∈ w, IsNumeric c := by
  cases h with
  | mk hc hs hd =>
    refine List.forall_mem_cons.mpr
      ⟨?_, List.forall_mem_append.mpr ⟨fun c hsign => ?_, hd.isNumeric⟩⟩
    · rcases hc with rfl | rfl <;> exact Or.inl (by decide)
    · rcases hs with rfl | rfl | rfl
      · cases hsign
      · obtain rfl := List.mem_singleton.mp hsign
        exact Or.inr (by decide)
      · obtain rfl := List.mem_singleton.mp hsign
        exact Or.inr (by decide)

theorem IsFloat.isNumeric (h : IsFloat w) : ∀ c ∈ w, IsNumeric c := by
  cases h with
  | point hw hf he =>
    refine List.forall_mem_append.mpr ⟨hw.isNumeric, List.forall_mem_cons.mpr
      ⟨Or.inr (by decide), List.forall_mem_append.mpr ⟨fun c hc => ?_, ?_⟩⟩⟩
    · exact Or.inl (isIdentPart_of_isDigit (hf c hc))
    · rcases he with rfl | he
      · exact fun c hc => absurd hc List.not_mem_nil
      · exact he.isNumeric
  | exponent hw he => exact List.forall_mem_append.mpr ⟨hw.isNumeric, he.isNumeric⟩

end Pattern

namespace Token
open Form Ident Pattern
variable {line : Nat} {s : List Char} {tokens : List Token}

/-- A token as a text without illegal characters holds it. -/
def Formed : Token → Prop
  | define _ _ name _ _ | conditional _ _ _ name => IsName name
  | directive .. => True
  | lexeme text _ .tokenPaste => text = ['#', '#']
  | t => t.Shaped

theorem Shaped.formed {t : Token} (h : t.Shaped) : t.Formed := by
  cases t with
  | lexeme text line kind =>
    cases kind with
    | tokenPaste => exact h.elim
    | _ => exact h
  | definedTest text line name => exact h
  | _ => exact h.elim

theorem Formed.shaped {text : List Char} {kind : Lexeme} (h : (lexeme text line kind).Formed)
    (hk : kind ≠ .tokenPaste) : (lexeme text line kind).Shaped := by
  cases kind with
  | tokenPaste => exact absurd rfl hk
  | _ => exact h

theorem formed_of_isLexed {t : Token} (h : t.IsLexed) (hu : t.isUnknown = false) : t.Formed := by
  obtain ⟨s, f, hf, hy⟩ := h
  cases hy with
  | define gap space name line arguments body => exact isName_of_first? hf rfl
  | conditional gap test space name line => exact isName_of_first? hf rfl
  | definedTest name line => exact isName_of_first? hf rfl
  | directive gap line body => trivial
  | unknown c line => cases hu
  | lexeme text line kind =>
    obtain ⟨rfl, hne⟩ := pattern_of_first? hf
    by_cases hpaste : kind = .tokenPaste
    · subst hpaste
      exact tokenPaste_of_ne hne
    · refine (shaped_pattern hpaste hne ?_).formed
      rintro rfl hs
      obtain ⟨t, rfl⟩ := List.head?_eq_some_iff.mp hs
      rw [first?_operator (by decide) fun h => absurd h (by decide)] at hf
      cases (Form.lexeme.inj (Option.some.inj hf)).2

/-- Rejecting illegal characters leaves no token for one. -/
theorem isUnknown_of_lexFrom (h : (lexFrom .reject line s).outcome = .ok tokens) :
    ∀ t ∈ deep tokens, t.isUnknown = false := by
  have hpass := lexFrom_pass_of_reject h
  have hnone : unknownsFrom line s = [] := by
    have hstrict := strict_lexFrom line s
    generalize unknownsFrom line s = made at hstrict ⊢
    cases hstrict with
    | known => rfl
    | stops made he =>
      rw [he] at h
      cases h
  rw [unknownsFrom_eq_filter hpass, List.filter_eq_nil_iff] at hnone
  exact fun t ht => Bool.eq_false_iff.mpr (hnone t ht)

theorem formed_of_lexFrom (h : (lexFrom .reject line s).outcome = .ok tokens) :
    ∀ t ∈ deep tokens, t.Formed :=
  fun t ht => formed_of_isLexed (isLexed_of_lexFrom h t ht) (isUnknown_of_lexFrom h t ht)

theorem formed_of_mem_strip (h : (lexFrom .reject line s).outcome = .ok tokens)
    (dead : Ident → Bool) : ∀ t ∈ deep (strip dead tokens), t.Formed :=
  forall_deep_strip ⟨fun _ _ => trivial, fun _ _ _ _ _ _ _ h => h, fun _ _ _ _ _ => trivial⟩ dead
    fun t ht _ => formed_of_lexFrom h t ht

end Token

end ShaderPress
