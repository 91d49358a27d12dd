import ShaderPress.Proofs.Token.Shapes
import ShaderPress.Token.Form

/-! # The plain form at the start of a text

The rules behind those for the preprocessor forms cut a text into plain lexemes.  Which
of them applies is decided by the first character, but for a slash, where a comment comes
before the operator, and a digit, where a float comes before an integer.
-/
namespace ShaderPress

namespace Pattern

theorem toNat_of_isIdentPart {c : Char} (h : isIdentPart c = true) :
    48 ≤ c.toNat ∧ c.toNat ≤ 122 := by
  rw [isIdentPart_iff, isIdentStart_iff, isUpper_iff, isLower_iff, isDigit_iff] at h
  rcases h with ((h | h) | rfl) | h
  · omega
  · omega
  · decide
  · omega

theorem isBlank_of_isIdentPart {c : Char} (h : isIdentPart c = true) : Text.isBlank c = false := by
  obtain ⟨hl, hu⟩ := toNat_of_isIdentPart h
  rw [Text.isBlank, Text.within, Text.blankBounds, Text.flips_of_le (by omega),
    Text.flips_of_le (by omega), Text.flips_of_le (by omega), Text.flips_of_le (by omega),
    Text.flips_of_lt (by omega)]
  rfl

theorem isIdentPart_of_mem_operators {c : Char} (h : c ∈ operators) : isIdentPart c = false := by
  have hall : ∀ c ∈ operators, (!isIdentPart c) = true := List.all_eq_true.mp (by decide)
  rw [← Bool.not_eq_true', hall c h]

theorem not_mem_operators_of_isIdentPart {c : Char} (h : isIdentPart c = true) :
    c ∉ operators := by
  intro hc
  rw [isIdentPart_of_mem_operators hc] at h
  cases h

theorem isBlank_of_mem_operators {c : Char} (h : c ∈ operators) : Text.isBlank c = false := by
  have hall : ∀ c ∈ operators, (!Text.isBlank c) = true := List.all_eq_true.mp (by decide)
  rw [← Bool.not_eq_true', hall c h]

section Head
variable {c : Char} {s : List Char}

theorem lineComment_cons_of_ne (h : ¬ (c = '/' ∧ s.head? = some '/')) :
    lineComment (c :: s) = [] := by
  unfold lineComment
  split
  · next t he =>
    obtain ⟨rfl, rfl⟩ := List.cons.inj he
    exact absurd ⟨rfl, rfl⟩ h
  · rfl

theorem blockComment_cons_of_ne (h : ¬ (c = '/' ∧ s.head? = some '*')) :
    blockComment (c :: s) = [] := by
  unfold blockComment
  split
  · next t he =>
    obtain ⟨rfl, rfl⟩ := List.cons.inj he
    exact absurd ⟨rfl, rfl⟩ h
  · rfl

theorem whitespace_cons_of_ne (h : Text.isBlank c = false) (hc : c ≠ '\\') :
    whitespace (c :: s) = [] := by
  rw [whitespace, h]
  · rfl
  · rintro t rfl _
    exact hc rfl
  · rintro t rfl _
    exact hc rfl

theorem operator_cons_of_not_mem (h : c ∉ operators) : operator (c :: s) = [] := if_neg h

end Head

end Pattern

namespace Form
open Pattern

/-- The form at the start of a text by the rules behind those for preprocessor forms. -/
def plain? (s : List Char) : Option Form := (rules.drop 6).findSome? (· s)

theorem lexeme?_eq_none {kind : Lexeme} {pattern : List Char → List Char} {s : List Char}
    (h : pattern s = []) : lexeme? kind pattern s = none := by
  simp only [lexeme?, h]

theorem lexeme?_of_ne {kind : Lexeme} {pattern : List Char → List Char} {s w : List Char}
    (h : pattern s = w) (hw : w ≠ []) : lexeme? kind pattern s = some (lexeme w kind) := by
  subst h
  unfold lexeme?
  split
  · contradiction
  · rfl

section Rules
variable {c : Char} {s w : List Char}

theorem plain?_operator (hc : c ∈ operators)
    (hslash : c = '/' → s.head? ≠ some '/' ∧ s.head? ≠ some '*') :
    plain? (c :: s) = some (lexeme [c] .operator) := by
  have hl : lineComment (c :: s) = [] := lineComment_cons_of_ne fun h => (hslash h.1).1 h.2
  have hb : blockComment (c :: s) = [] := blockComment_cons_of_ne fun h => (hslash h.1).2 h.2
  have hw : whitespace (c :: s) = [] := by
    refine whitespace_cons_of_ne (isBlank_of_mem_operators hc) ?_
    rintro rfl
    exact absurd hc (by decide)
  have ho : operator (c :: s) = [c] := if_pos hc
  simp only [plain?, rules, List.drop_succ_cons, List.drop_zero, List.findSome?_cons,
    lexeme?_eq_none hl, lexeme?_eq_none hb, lexeme?_eq_none hw, lexeme?_of_ne ho (by simp)]

/-- Where no comment, blank or operator starts, the rules for literals and names are left. -/
theorem plain?_cons (hop : c ∉ operators) (hblank : Text.isBlank c = false) (hc : c ≠ '\\') :
    plain? (c :: s) = [lexeme? .floatLiteral floatLiteral, lexeme? .hexLiteral hexLiteral,
      lexeme? .intLiteral intLiteral, lexeme? .identifier identifier, unknown?].findSome?
        (· (c :: s)) := by
  have hslash : c ≠ '/' := by
    rintro rfl
    exact hop (by decide)
  have hl : lineComment (c :: s) = [] := lineComment_cons_of_ne fun h => hslash h.1
  have hb : blockComment (c :: s) = [] := blockComment_cons_of_ne fun h => hslash h.1
  have hw : whitespace (c :: s) = [] := whitespace_cons_of_ne hblank hc
  have ho : operator (c :: s) = [] := operator_cons_of_not_mem hop
  simp only [plain?, rules, List.drop_succ_cons, List.drop_zero, List.findSome?_cons,
    lexeme?_eq_none hl, lexeme?_eq_none hb, lexeme?_eq_none hw, lexeme?_eq_none ho]

theorem plain?_of_isIdentPart (hc : isIdentPart c = true) :
    plain? (c :: s) = [lexeme? .floatLiteral floatLiteral, lexeme? .hexLiteral hexLiteral,
      lexeme? .intLiteral intLiteral, lexeme? .identifier identifier, unknown?].findSome?
        (· (c :: s)) := by
  refine plain?_cons (not_mem_operators_of_isIdentPart hc) (isBlank_of_isIdentPart hc) ?_
  rintro rfl
  exact absurd hc (by decide)

/-- No literal starts with another character than a digit, since a point is an operator. -/
theorem plain?_cons_of_isDigit_eq_false (hop : c ∉ operators) (hblank : Text.isBlank c = false)
    (hc : c ≠ '\\') (hdigit : c.isDigit = false) :
    plain? (c :: s) = [lexeme? .identifier identifier, unknown?].findSome? (· (c :: s)) := by
  have hd : digits (c :: s) = [] := by
    rw [digits, List.takeWhile_cons, hdigit]
    rfl
  have hf : floatLiteral (c :: s) = [] := by
    refine floatLiteral_eq_nil ?_ (Or.inl hd)
    intro t ht
    rw [hd] at ht
    refine hop ?_
    rw [(List.cons.inj ht).1]
    decide
  have hh : hexLiteral (c :: s) = [] := by
    unfold hexLiteral
    split
    · next t he =>
      rw [(List.cons.inj he).1] at hdigit
      exact absurd hdigit (by decide)
    · rfl
  have hi : intLiteral (c :: s) = [] := by simp only [intLiteral, hd]
  rw [plain?_cons hop hblank hc]
  simp only [List.findSome?_cons, lexeme?_eq_none hf, lexeme?_eq_none hh, lexeme?_eq_none hi]

end Rules

section Words
variable {w rest : List Char}

theorem isDigit_eq_false_of_isIdentStart {c : Char} (h : isIdentStart c = true) :
    c.isDigit = false := by
  rw [isIdentStart_iff, isUpper_iff, isLower_iff] at h
  rw [← Bool.not_eq_true, isDigit_iff]
  rcases h with (h | h) | rfl
  · omega
  · omega
  · decide

/-- A sigil starts no word. -/
theorem isSigil_of_isIdentStart {c : Char} (h : isIdentStart c = true) :
    (c == '@' || c == '$') = false := by
  cases hp : (c == '@' || c == '$') with
  | false => rfl
  | true =>
    simp only [Bool.or_eq_true, beq_iff_eq] at hp
    rcases hp with rfl | rfl <;> exact absurd h (by decide)

theorem identifier_of_isWord {s : List Char} (hs : IsWord (word s)) : identifier s = word s := by
  cases s with
  | nil => rfl
  | cons c s =>
    have hc : isIdentStart c = true := by
      cases hstart : isIdentStart c with
      | true => rfl
      | false =>
        simp only [word, hstart, Bool.false_eq_true, if_false] at hs
        exact hs.elim
    simp only [identifier, isSigil_of_isIdentStart hc, Bool.false_eq_true, if_false]

/-- A name found by its pattern is what the plain rules find. -/
theorem plain?_identifier {s : List Char} (h : identifier s ≠ []) :
    plain? s = some (lexeme (identifier s) .identifier) := by
  cases s with
  | nil => exact absurd rfl h
  | cons c s =>
    have hplain : plain? (c :: s) = [lexeme? .identifier identifier, unknown?].findSome?
        (· (c :: s)) := by
      by_cases hc : (c == '@' || c == '$') = true
      · simp only [Bool.or_eq_true, beq_iff_eq] at hc
        rcases hc with rfl | rfl <;>
          exact plain?_cons_of_isDigit_eq_false (by decide) (by decide) (by decide) (by decide)
      · have hstart : isIdentStart c = true := by
          cases hstart : isIdentStart c with
          | true => rfl
          | false =>
            refine absurd ?_ h
            simp only [identifier, if_neg hc, word, hstart, Bool.false_eq_true, if_false]
        have hpart := isIdentPart_of_isIdentStart hstart
        refine plain?_cons_of_isDigit_eq_false (not_mem_operators_of_isIdentPart hpart)
          (isBlank_of_isIdentPart hpart) ?_ (isDigit_eq_false_of_isIdentStart hstart)
        rintro rfl
        exact absurd hstart (by decide)
    rw [hplain]
    simp only [List.findSome?_cons, lexeme?_of_ne rfl h]

theorem identifier_append (hw : IsWord w) (hrest : EndsWord rest) : identifier (w ++ rest) = w := by
  have hword : word (w ++ rest) = w := word_append hw hrest
  rw [identifier_of_isWord (by rwa [hword]), hword]

theorem plain?_word (hw : IsWord w) (hrest : EndsWord rest) :
    plain? (w ++ rest) = some (lexeme w .identifier) := by
  have hid := identifier_append hw hrest
  rw [plain?_identifier (by rw [hid]; exact hw.ne_nil), hid]

theorem plain?_float (hw : IsFloat w) (hrest : EndsWord rest) :
    plain? (w ++ rest) = some (lexeme w .floatLiteral) := by
  have hf : floatLiteral (w ++ rest) = w := floatLiteral_append hw hrest
  obtain ⟨c, s, hwc, hc⟩ : ∃ c s, w = c :: s ∧ c.isDigit = true := by
    cases hw with
    | @point whole fraction e hd | @exponent whole e hd =>
      obtain ⟨c, s, rfl⟩ := List.exists_cons_of_ne_nil hd.nonempty
      exact ⟨c, _, rfl, hd.digit c List.mem_cons_self⟩
  subst hwc
  rw [List.cons_append] at hf ⊢
  rw [plain?_of_isIdentPart (isIdentPart_of_isDigit hc)]
  simp only [List.findSome?_cons, lexeme?_of_ne hf (List.cons_ne_nil c s)]

theorem plain?_hex (hw : IsHex w) (hrest : EndsWord rest) :
    plain? (w ++ rest) = some (lexeme w .hexLiteral) := by
  have hh : hexLiteral (w ++ rest) = w := hexLiteral_append hw hrest
  obtain ⟨hd, hmark⟩ := hw
  rename_i d mark
  have hdigits : digits ('0' :: 'x' :: (d ++ mark ++ rest)) = ['0'] := rfl
  have hf : floatLiteral ('0' :: 'x' :: (d ++ mark ++ rest)) = [] := by
    refine floatLiteral_eq_nil ?_ (Or.inr ?_)
    · intro t ht
      cases ht
    · rfl
  rw [List.cons_append, List.cons_append] at hh ⊢
  rw [plain?_of_isIdentPart (by decide)]
  simp only [List.findSome?_cons, lexeme?_eq_none hf, lexeme?_of_ne hh (List.cons_ne_nil _ _)]

/-- An integer ends at a point only if it is marked unsigned. -/
theorem plain?_int (hw : IsInt w) (hrest : EndsWord rest)
    (hpoint : w.getLast? = some 'u' ∨ rest.head? ≠ some '.') :
    plain? (w ++ rest) = some (lexeme w .intLiteral) := by
  have hi : intLiteral (w ++ rest) = w := intLiteral_append hw hrest
  obtain ⟨d, tail, hd, hwd, hdigits, htail, hx⟩ : ∃ d tail, IsDigits d ∧ w ++ rest = d ++ tail ∧
      digits (d ++ tail) = d ∧ ((∀ t, tail ≠ '.' :: t) ∧ exponent tail = []) ∧
      tail.head? ≠ some 'x' := by
    cases hw with
    | plain hd =>
      refine ⟨w, rest, hd, rfl, hrest.digits_append hd.digit, ⟨?_, hrest.exponent_eq_nil⟩, ?_⟩
      · rintro t rfl
        rcases hpoint with hu | hp
        · exact absurd (hd.digit 'u' (List.mem_of_getLast? hu)) (by decide)
        · exact hp rfl
      · intro hx
        exact absurd (hrest 'x' hx) (by decide)
    | @unsigned d hd =>
      refine ⟨d, 'u' :: rest, hd, by rw [List.append_assoc]; rfl,
        takeWhile_append_of_all hd.digit (by rw [List.takeWhile_cons]; rfl), ⟨?_, rfl⟩, ?_⟩
      · intro t ht
        cases ht
      · exact fun hx => by cases hx
  have hf : floatLiteral (w ++ rest) = [] := by
    rw [hwd]
    refine floatLiteral_eq_nil ?_ (Or.inr ?_)
    · rw [hdigits, List.drop_left]
      exact htail.1
    · rw [hdigits, List.drop_left]
      exact htail.2
  have hh : hexLiteral (w ++ rest) = [] := by
    rw [hwd]
    unfold hexLiteral
    split
    · next t he =>
      obtain ⟨a, d', rfl⟩ := List.exists_cons_of_ne_nil hd.nonempty
      have htl : d' ++ tail = 'x' :: t := (List.cons.inj he).2
      cases d' with
      | nil => exact absurd (congrArg List.head? htl) hx
      | cons b d' =>
        have hb : b = 'x' := (List.cons.inj htl).1
        exact absurd (hb ▸ hd.digit b (by simp)) (by decide)
    · rfl
  obtain ⟨c, s, hwc, hc⟩ : ∃ c s, w = c :: s ∧ c.isDigit = true := by
    cases hw with
    | plain hd | unsigned hd =>
      obtain ⟨c, s, rfl⟩ := List.exists_cons_of_ne_nil hd.nonempty
      exact ⟨c, _, rfl, hd.digit c List.mem_cons_self⟩
  subst hwc
  rw [List.cons_append] at hf hh hi ⊢
  rw [plain?_of_isIdentPart (isIdentPart_of_isDigit hc)]
  simp only [List.findSome?_cons, lexeme?_eq_none hf, lexeme?_eq_none hh,
    lexeme?_of_ne hi (List.cons_ne_nil c s)]

end Words

end Form

end ShaderPress
