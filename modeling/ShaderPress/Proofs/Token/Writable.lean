import ShaderPress.Ident.Sigil
import ShaderPress.Ident.Swizzle
import ShaderPress.Proofs.Token.Lexed

/-! # Tokens on one line

Line ends are read as blanks, so no other token holds one: what is left of a lexed
stream when comments are gone is written without a line end, but for the line ends that
directives are given.
-/
namespace ShaderPress

/-- A text that is not empty and holds no line end. -/
structure OneLine (text : List Char) : Prop where
  nonempty : text ≠ []
  newline : '\n' ∉ text

theorem OneLine.append_left {a b : List Char} (hb : OneLine b) (ha : '\n' ∉ a) :
    OneLine (a ++ b) :=
  ⟨List.append_ne_nil_of_right_ne_nil a hb.nonempty,
    fun h => (List.mem_append.mp h).elim ha hb.newline⟩

theorem OneLine.append_right {a b : List Char} (ha : OneLine a) (hb : '\n' ∉ b) :
    OneLine (a ++ b) :=
  ⟨List.append_ne_nil_of_left_ne_nil ha.nonempty b,
    fun h => (List.mem_append.mp h).elim ha.newline hb⟩

namespace Pattern

theorem newline_not_mem_takeWhile {p : Char → Bool} (hp : p '\n' = false) (s : List Char) :
    '\n' ∉ s.takeWhile p := by
  intro h
  have := List.all_eq_true.mp (List.all_takeWhile (l := s)) _ h
  rw [hp] at this
  cases this

theorem newline_not_mem_digits (s : List Char) : '\n' ∉ digits s :=
  newline_not_mem_takeWhile (by decide) s

theorem newline_not_mem_exponent (s : List Char) : '\n' ∉ exponent s := by
  have hs : ∀ t, '\n' ∉ sign t := by
    intro t
    cases t with
    | nil => exact List.not_mem_nil
    | cons c t =>
      simp only [sign]
      split
      · next hc =>
        intro h
        rw [← List.mem_singleton.mp h] at hc
        exact absurd hc (by decide)
      · exact List.not_mem_nil
  cases s with
  | nil => exact List.not_mem_nil
  | cons c s =>
    simp only [exponent]
    split
    · next hc =>
      split
      · exact List.not_mem_nil
      · simp only [List.mem_cons, List.mem_append, not_or]
        refine ⟨?_, hs s, newline_not_mem_digits _⟩
        rintro rfl
        exact absurd hc (by decide)
    · exact List.not_mem_nil

theorem newline_not_mem_floatLiteral (s : List Char) : '\n' ∉ floatLiteral s := by
  unfold floatLiteral
  dsimp only
  split
  · next t ht =>
    split
    · exact List.not_mem_nil
    · simp [newline_not_mem_digits, newline_not_mem_exponent]
  · split
    · exact List.not_mem_nil
    · exact List.not_mem_nil
    · simp [newline_not_mem_digits, newline_not_mem_exponent]

theorem newline_not_mem_unsignedMark (s : List Char) : '\n' ∉ unsignedMark s := by
  unfold unsignedMark
  split <;> simp

theorem newline_not_mem_hexLiteral (s : List Char) : '\n' ∉ hexLiteral s := by
  unfold hexLiteral
  split
  · split
    · exact List.not_mem_nil
    · simp [newline_not_mem_takeWhile, newline_not_mem_unsignedMark,
        show isHexDigit '\n' = false by decide]
  · exact List.not_mem_nil

theorem newline_not_mem_intLiteral (s : List Char) : '\n' ∉ intLiteral s := by
  unfold intLiteral
  split
  · exact List.not_mem_nil
  · simp [newline_not_mem_digits, newline_not_mem_unsignedMark]

theorem newline_not_mem_operator (s : List Char) : '\n' ∉ operator s := by
  cases s with
  | nil => exact List.not_mem_nil
  | cons c s =>
    simp only [operator]
    split
    · next hc =>
      intro h
      rw [← List.mem_singleton.mp h] at hc
      exact absurd hc (by decide)
    · exact List.not_mem_nil

theorem newline_not_mem_tokenPaste (s : List Char) : '\n' ∉ tokenPaste s := by
  unfold tokenPaste
  split <;> simp

theorem word_eq_cons {s : List Char} (h : word s ≠ []) :
    ∃ c w, word s = c :: w ∧ isIdentStart c = true ∧ '\n' ∉ word s := by
  cases s with
  | nil => exact absurd rfl h
  | cons c s =>
    simp only [word] at h ⊢
    split
    · next hc =>
      refine ⟨c, _, rfl, hc, ?_⟩
      rw [List.mem_cons, not_or]
      refine ⟨?_, newline_not_mem_takeWhile (by decide) s⟩
      rintro rfl
      exact absurd hc (by decide)
    · next hc => exact absurd (if_neg hc) h

theorem oneLine_identifier {s : List Char} (h : identifier s ≠ []) :
    OneLine (Ident.stripSigil (identifier s)) := by
  cases s with
  | nil => exact absurd rfl h
  | cons c s =>
    simp only [identifier] at h ⊢
    split
    · next hc =>
      rw [if_pos hc] at h
      cases hw : word s with
      | nil =>
        rw [hw] at h
        exact absurd rfl h
      | cons d w =>
        obtain ⟨-, -, -, -, hn⟩ := word_eq_cons (s := s) (by simp [hw])
        simp only [Ident.stripSigil, hc, if_true]
        exact ⟨by simp, hw ▸ hn⟩
    · next hc =>
      rw [if_neg hc] at h
      obtain ⟨d, w, hw, hd, hn⟩ := word_eq_cons h
      have he : Ident.stripSigil (word (c :: s)) = word (c :: s) := by
        rw [hw, Ident.stripSigil, if_neg]
        rintro hs
        rcases Bool.or_eq_true_iff.mp hs with hs | hs <;>
        · rw [beq_iff_eq.mp hs] at hd
          exact absurd hd (by decide)
      rw [he]
      exact ⟨h, hn⟩

end Pattern

namespace Form
open Pattern Ident

def IsWritable : Form → Prop
  | define _ _ name _ _ | conditional _ _ _ name | definedTest name => OneLine (stripSigil name)
  | lexeme text .identifier => OneLine (stripSigil text)
  | lexeme _ .whitespace | lexeme _ .lineComment | lexeme _ .blockComment => True
  | lexeme text _ => OneLine text
  | unknown c => c ≠ '\n'
  | directive .. | malformed _ => True

theorem isWritable_of_named? {keyword : Keyword}
    {form : List Char → List Char → Ident → List Char → Form} {s : List Char} {f : Form}
    (h : named? keyword form s = some f)
    (hform : ∀ before space name rest, OneLine (stripSigil name) →
      IsWritable (form before space name rest)) : IsWritable f := by
  unfold named? at h
  split at h
  · cases h
  · next before t _ =>
    simp only at h
    split at h
    · split at h
      · cases h
        trivial
      · cases h
    · next hn =>
      cases h
      refine hform _ _ _ _ (oneLine_identifier ?_)
      intro he
      rw [he] at hn
      exact hn (Bool.or_true _)

theorem isWritable_of_definedTest? {s : List Char} {f : Form} (h : definedTest? s = some f) :
    IsWritable f := by
  unfold definedTest? at h
  split at h
  · cases h
  · next t _ =>
    simp only at h
    split at h
    · next hn _ =>
      cases h
      refine oneLine_identifier ?_
      intro he
      rw [he] at hn
      cases hn
    · cases h

theorem isWritable_lexeme {kind : Lexeme} {s : List Char} (h : kind.pattern s ≠ []) :
    IsWritable (lexeme (kind.pattern s) kind) := by
  cases kind with
  | tokenPaste => exact ⟨h, newline_not_mem_tokenPaste s⟩
  | lineComment | blockComment | whitespace => trivial
  | operator => exact ⟨h, newline_not_mem_operator s⟩
  | floatLiteral => exact ⟨h, newline_not_mem_floatLiteral s⟩
  | hexLiteral => exact ⟨h, newline_not_mem_hexLiteral s⟩
  | intLiteral => exact ⟨h, newline_not_mem_intLiteral s⟩
  | identifier => exact oneLine_identifier h
  | unknown => exact absurd rfl h

theorem first?_newline (s : List Char) :
    first? ('\n' :: s) = some (lexeme ('\n' :: whitespace s) .whitespace) := by
  have hw : whitespace ('\n' :: s) = '\n' :: whitespace s := by
    rw [whitespace, if_pos Text.isBlank_newline] <;> simp
  simp [first?, rules, define?, conditional?, named?, afterKeyword?, definedTest?, afterWord?,
    definedOpen, lexeme?, tokenPaste, directive?, lineComment, blockComment, hw]

theorem isWritable_of_first? {s : List Char} {f : Form} (h : first? s = some f) : IsWritable f := by
  cases found_of_first? h with
  | define hr | conditional test hr => exact isWritable_of_named? hr fun _ _ _ _ hn => hn
  | definedTest hr => exact isWritable_of_definedTest? hr
  | directive hr =>
    obtain ⟨_, _, rfl, _⟩ := directive?_eq_some hr
    trivial
  | lexeme kind hne => exact isWritable_lexeme hne
  | unknown c rest hs =>
    rintro rfl
    rw [hs, first?_newline] at h
    cases h

end Form

namespace Ident

theorem oneLine_of_mapM {letter? : Char → Option Char} (hl : ∀ c, letter? c ≠ some '\n')
    {name swizzle : Ident} (hn : name ≠ []) (h : name.mapM letter? = some swizzle) :
    OneLine swizzle := by
  have step : ∀ {c : Char} {name swizzle : Ident}, (c :: name).mapM letter? = some swizzle →
      ∃ d rest, letter? c = some d ∧ name.mapM letter? = some rest ∧ swizzle = d :: rest := by
    intro c name swizzle h
    rw [List.mapM_cons] at h
    obtain ⟨d, hd, h⟩ := Option.bind_eq_some_iff.mp h
    obtain ⟨rest, hr, h⟩ := Option.bind_eq_some_iff.mp h
    cases h
    exact ⟨d, rest, hd, hr, rfl⟩
  have hmem : '\n' ∉ swizzle := by
    clear hn
    induction name generalizing swizzle with
    | nil =>
      cases h
      exact List.not_mem_nil
    | cons c name ih =>
      obtain ⟨d, rest, hd, hr, rfl⟩ := step h
      rw [List.mem_cons, not_or]
      refine ⟨?_, ih hr⟩
      rintro rfl
      exact hl c hd
  refine ⟨?_, hmem⟩
  cases name with
  | nil => exact absurd rfl hn
  | cons c name =>
    obtain ⟨d, rest, -, -, rfl⟩ := step h
    exact List.cons_ne_nil d rest

theorem oneLine_of_canonicalSwizzle? {name swizzle : Ident}
    (h : canonicalSwizzle? name = some swizzle) : OneLine swizzle := by
  unfold canonicalSwizzle? at h
  split at h
  · next hlen =>
    have hn : name ≠ [] := by
      rintro rfl
      exact absurd hlen.1 (by decide)
    have hc : ∀ c, colourLetter? c ≠ some '\n' := by
      intro c
      unfold colourLetter?
      split <;> decide
    have ht : ∀ c, textureLetter? c ≠ some '\n' := by
      intro c
      unfold textureLetter?
      split <;> decide
    rcases Option.or_eq_some_iff.mp h with h | ⟨-, h⟩
    · exact oneLine_of_mapM hc hn h
    · exact oneLine_of_mapM ht hn h
  · cases h

end Ident

namespace Token
open Ident

/-- A token that is written on one line, up to its parts and the line end of a directive. -/
def IsWritable : Token → Prop
  | define _ _ name .. | conditional _ _ _ name | definedTest _ _ name => OneLine (stripSigil name)
  | lexeme text _ .identifier => OneLine (stripSigil text)
  | lexeme _ _ .whitespace | directive .. => True
  | lexeme _ _ .lineComment | lexeme _ _ .blockComment => False
  | lexeme text _ _ => OneLine text

theorem shallow_isWritable : Shallow IsWritable :=
  ⟨fun _ _ => trivial, fun _ _ _ _ _ _ _ h => h, fun _ _ _ _ _ => trivial⟩

/-- All that the lexer yields but comments is written on one line. -/
theorem isWritable_of_lexFrom {policy : UnknownPolicy} {line : Nat} {s : List Char}
    {tokens : List Token} (h : (lexFrom policy line s).outcome = .ok tokens) :
    ∀ t ∈ deep tokens, t.isComment = false → t.IsWritable := by
  intro t ht hc
  obtain ⟨s, f, hf, hy⟩ := isLexed_of_lexFrom h t ht
  have hw := Form.isWritable_of_first? hf
  cases hy with
  | directive gap line body => trivial
  | lexeme text line kind =>
    cases kind with
    | lineComment | blockComment => cases hc
    | _ => exact hw
  | unknown c line =>
    exact ⟨List.cons_ne_nil _ _, fun hm => hw (List.mem_singleton.mp hm).symm⟩
  | _ => exact hw

/-- A lexed stream is written on one line once it has been stripped. -/
theorem isWritable_of_mem_strip {policy : UnknownPolicy} {line : Nat} {s : List Char}
    {tokens : List Token} (h : (lexFrom policy line s).outcome = .ok tokens) (dead : Ident → Bool) :
    ∀ t ∈ deep (strip dead tokens), t.IsWritable :=
  forall_deep_strip shallow_isWritable dead (isWritable_of_lexFrom h)

end Token

end ShaderPress
