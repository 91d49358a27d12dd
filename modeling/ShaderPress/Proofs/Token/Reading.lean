import ShaderPress.Proofs.Token.Plain
import ShaderPress.Proofs.Token.Rules

/-! # The lexemes of a text

The lexemes of a text are those that the plain rules find one after the other,
whitespace aside.  A `defined` test is read as the four lexemes that it is written with.
-/
namespace ShaderPress

namespace Form
open Pattern

/-- What the plain rules find: what the pattern of a kind of lexeme finds, or a character that
no pattern accepts. -/
theorem plain?_eq_some {s : List Char} {f : Form} (h : plain? s = some f) :
    (∃ kind, kind ≠ .tokenPaste ∧ f = lexeme (kind.pattern s) kind ∧ kind.pattern s ≠ []) ∨
      ∃ c t, s = c :: t ∧ f = unknown c := by
  have found : ∀ kind : Lexeme, kind ≠ .tokenPaste → lexeme? kind kind.pattern s = some f →
      ∃ kind : Lexeme, kind ≠ .tokenPaste ∧ f = lexeme (kind.pattern s) kind ∧
        kind.pattern s ≠ [] := by
    intro kind hk hr
    obtain ⟨rfl, hne⟩ := lexeme?_eq_some hr
    exact ⟨kind, hk, rfl, hne⟩
  obtain ⟨rule, hm, hr⟩ := List.exists_of_findSome?_eq_some h
  simp only [rules, List.drop_succ_cons, List.drop_zero, List.mem_cons, List.not_mem_nil,
    or_false] at hm
  rcases hm with rfl | rfl | rfl | rfl | rfl | rfl | rfl | rfl | rfl
  · exact Or.inl (found .lineComment (by decide) hr)
  · exact Or.inl (found .blockComment (by decide) hr)
  · exact Or.inl (found .whitespace (by decide) hr)
  · exact Or.inl (found .operator (by decide) hr)
  · exact Or.inl (found .floatLiteral (by decide) hr)
  · exact Or.inl (found .hexLiteral (by decide) hr)
  · exact Or.inl (found .intLiteral (by decide) hr)
  · exact Or.inl (found .identifier (by decide) hr)
  · cases s with
    | nil => cases hr
    | cons c t =>
      cases hr
      exact Or.inr ⟨c, t, rfl, rfl⟩

theorem plain?_cases {s : List Char} {f : Form} (h : plain? s = some f) :
    (∃ text kind, f = lexeme text kind ∧ text <+: s ∧ text ≠ []) ∨
      ∃ c t, s = c :: t ∧ f = unknown c :=
  (plain?_eq_some h).imp_left fun ⟨kind, _, he, hne⟩ =>
    ⟨kind.pattern s, kind, he, kind.pattern_isPrefix s, hne⟩

theorem plain?_lexeme_length {s text : List Char} {kind : Lexeme}
    (h : plain? s = some (lexeme text kind)) : (s.drop text.length).length < s.length := by
  rcases plain?_cases h with ⟨text', kind', he, hp, hne⟩ | ⟨c, t, -, he⟩
  · cases he
    have := hp.length_le
    have := List.length_pos_iff.mpr hne
    rw [List.length_drop]
    omega
  · cases he

theorem plain?_unknown_length {s : List Char} {c : Char} (h : plain? s = some (unknown c)) :
    (s.drop 1).length < s.length := by
  rcases plain?_cases h with ⟨text, kind, he, -, -⟩ | ⟨c', t, rfl, he⟩
  · cases he
  · simp

/-- The lexemes of a text by the plain rules, whitespace left out. -/
def readPlain (s : List Char) : List (Lexeme × List Char) :=
  match h : plain? s with
  | some (.lexeme text kind) =>
    have := plain?_lexeme_length h
    if kind = .whitespace then readPlain (s.drop text.length)
    else (kind, text) :: readPlain (s.drop text.length)
  | some (.unknown c) =>
    have := plain?_unknown_length h
    (.unknown, [c]) :: readPlain (s.drop 1)
  | _ => []
termination_by s.length
decreasing_by all_goals assumption

theorem readPlain_nil : readPlain [] = [] := by
  rw [readPlain]
  rfl

theorem readPlain_lexeme {s text : List Char} {kind : Lexeme}
    (h : plain? s = some (lexeme text kind)) :
    readPlain s = (if kind = .whitespace then [] else [(kind, text)]) ++
      readPlain (s.drop text.length) := by
  rw [readPlain]
  split
  · next h' =>
    rw [h] at h'
    cases h'
    split <;> rfl
  · next h' =>
    rw [h] at h'
    cases h'
  · next h' _ => exact (h' _ _ h).elim

theorem readPlain_unknown {s : List Char} {c : Char} (h : plain? s = some (unknown c)) :
    readPlain s = (.unknown, [c]) :: readPlain (s.drop 1) := by
  rw [readPlain]
  split
  · next h' =>
    rw [h] at h'
    cases h'
  · next h' =>
    rw [h] at h'
    cases h'
    rfl
  · next h' => exact (h' _ h).elim

/-- A token that is found again in front of a text is read and the text after it. -/
theorem readPlain_append {w rest : List Char} {kind : Lexeme} (hk : kind ≠ .whitespace)
    (h : plain? (w ++ rest) = some (lexeme w kind)) :
    readPlain (w ++ rest) = (kind, w) :: readPlain rest := by
  rw [readPlain_lexeme h, if_neg hk, List.drop_left]
  rfl

/-- A blank is found alone where no other stands behind it. -/
theorem plain?_blank {c : Char} {s : List Char} (hc : Text.isBlank c = true)
    (h : whitespace s = []) : plain? (c :: s) = some (lexeme [c] .whitespace) := by
  have hne : ∀ d, Text.isBlank d = false → c ≠ d := by
    rintro d hd rfl
    rw [hc] at hd
    cases hd
  have hl : lineComment (c :: s) = [] := lineComment_cons_of_ne fun h => hne '/' (by decide) h.1
  have hb : blockComment (c :: s) = [] := blockComment_cons_of_ne fun h => hne '/' (by decide) h.1
  have hw : whitespace (c :: s) = [c] := by
    rw [whitespace, if_pos hc, h]
    · rintro t rfl _
      exact absurd rfl (hne '\\' (by decide))
    · rintro t rfl _
      exact absurd rfl (hne '\\' (by decide))
  simp only [plain?, rules, List.drop_succ_cons, List.drop_zero, List.findSome?_cons,
    lexeme?_eq_none hl, lexeme?_eq_none hb, lexeme?_of_ne hw (by simp)]

theorem plain?_space {s : List Char} (h : whitespace s = []) :
    plain? (' ' :: s) = some (lexeme [' '] .whitespace) :=
  plain?_blank (by decide) h

theorem readPlain_space {s : List Char} (h : whitespace s = []) :
    readPlain (' ' :: s) = readPlain s := by
  rw [readPlain_lexeme (plain?_space h), if_pos rfl]
  rfl

/-- Without a hash at the start only a `defined` test comes before the plain rules. -/
theorem first?_of_head_ne {s : List Char} (h : s.head? ≠ some '#') :
    first? s = (definedTest? s).or (plain? s) := by
  have hkey : ∀ w, afterKeyword? w s = none := by
    intro w
    unfold afterKeyword?
    split
    · exact absurd rfl h
    · rfl
  have hnamed : ∀ keyword form, named? keyword form s = none := by
    intro keyword form
    simp only [named?, hkey]
  have hpaste : tokenPaste s = [] := by
    unfold tokenPaste
    split
    · exact absurd rfl h
    · rfl
  have hdirective : directive? s = none := by
    unfold directive?
    split
    · exact absurd rfl h
    · rfl
  simp only [first?, rules, plain?, List.findSome?_cons, List.drop_succ_cons, List.drop_zero,
    define?, conditional?, hnamed, lexeme?_eq_none hpaste, hdirective]
  cases definedTest? s <;> rfl

def definedWord : List Char := ['d', 'e', 'f', 'i', 'n', 'e', 'd']

theorem definedTest?_cases {s : List Char} {f : Form} (h : definedTest? s = some f) :
    ∃ name rest, f = definedTest name ∧ name ≠ [] ∧ identifier (name ++ ')' :: rest) = name ∧
      s = definedOpen ++ (name ++ ')' :: rest) := by
  unfold definedTest? at h
  split at h
  · cases h
  · next t ht =>
    simp only at h
    split at h
    · next rest hn hr =>
      cases h
      have he : t = identifier t ++ ')' :: rest := by
        rw [← hr, List.prefix_iff_eq_append.mp (identifier_isPrefix t)]
      refine ⟨identifier t, rest, rfl, by simpa using hn, ?_, ?_⟩
      · rw [← he]
      · rw [← he]
        exact afterWord?_eq_some ht
    · cases h

/-- The four lexemes that a `defined` test is written with. -/
def definedLexemes (name : List Char) : List (Lexeme × List Char) :=
  [(.identifier, definedWord), (.operator, ['(']), (.identifier, name), (.operator, [')'])]

theorem plain?_definedWord (t : List Char) :
    plain? (definedWord ++ '(' :: t) = some (lexeme definedWord .identifier) :=
  plain?_word ⟨by decide, List.all_eq_true.mp (by decide)⟩ (endsWord_cons (by decide))

theorem readPlain_definedOpen (t : List Char) : readPlain (definedOpen ++ t) =
    (.identifier, definedWord) :: (.operator, ['(']) :: readPlain t := by
  have he : definedOpen ++ t = definedWord ++ '(' :: t := rfl
  have hopen : readPlain (['('] ++ t) = (.operator, ['(']) :: readPlain t :=
    readPlain_append (by decide) (plain?_operator (by decide) fun h => absurd h (by decide))
  rw [he, readPlain_append (by decide) (plain?_definedWord t)]
  exact congrArg _ hopen

theorem readPlain_close (rest : List Char) :
    readPlain (')' :: rest) = (.operator, [')']) :: readPlain rest :=
  readPlain_append (w := [')']) (by decide)
    (plain?_operator (by decide) fun h => absurd h (by decide))

theorem readPlain_definedTest {name rest : List Char} (hname : name ≠ [])
    (hid : identifier (name ++ ')' :: rest) = name) :
    readPlain (definedOpen ++ (name ++ ')' :: rest)) = definedLexemes name ++ readPlain rest := by
  have hplain := plain?_identifier (s := name ++ ')' :: rest) (by rwa [hid])
  rw [hid] at hplain
  rw [readPlain_definedOpen, readPlain_append (by decide) hplain, readPlain_close]
  rfl

end Form

end ShaderPress
