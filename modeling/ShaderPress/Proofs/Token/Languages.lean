import Mathlib.Computability.Language
import ShaderPress.Proofs.Token.Shapes

/-! # The languages of the lexemes

Each kind of lexeme has a regular language, put together from classes of characters.  Its words are
the texts of this shape, so that what is said of shapes can be said of words.
-/
namespace ShaderPress.Grammar
open Computability Pattern

/-- The words of one character of a class. -/
def letter (p : Char → Bool) : Language Char := {w | ∃ c, p c = true ∧ w = [c]}

def optional (l : Language Char) : Language Char := 1 + l

def repeated (l : Language Char) : Language Char := l * l∗

def isSigil (c : Char) : Bool := c == '@' || c == '$'

def name : Language Char :=
  optional (letter isSigil) * (letter isIdentStart * (letter isIdentPart)∗)

/-- A character of a line, or a line feed that a backslash keeps in it. -/
def inLine : Language Char := {['\\', '\n']} + letter (· != '\n')

def lineComment : Language Char := {['/', '/']} * inLine∗

def blockComment : Language Char := {['/', '*']} * ((letter fun _ => true)∗ * {['*', '/']})

def blank : Language Char :=
  letter Text.isBlank + {['\\']} * (optional {['\r']} * {['\n']})

def digit : Language Char := letter Char.isDigit

def exponent : Language Char :=
  letter (fun c => c == 'e' || c == 'E') *
    (optional (letter fun c => c == '+' || c == '-') * repeated digit)

def floatLiteral : Language Char :=
  (digit∗ * ({['.']} * repeated digit) + repeated digit * {['.']}) * optional exponent +
    repeated digit * exponent

def hexLiteral : Language Char :=
  {['0', 'x']} * (repeated (letter isHexDigit) * optional {['u']})

def intLiteral : Language Char := repeated digit * optional {['u']}

section
variable {l : Language Char} {p : Char → Bool} {w : List Char}

theorem mem_optional : w ∈ optional l ↔ w = [] ∨ w ∈ l := Iff.rfl

theorem mem_kstar_iff : w ∈ l∗ ↔ w = [] ∨ ∃ a ∈ l, ∃ b ∈ l∗, a ++ b = w := by
  conv_lhs => rw [← Language.one_add_self_mul_kstar_eq_kstar l]
  rw [Language.mem_add, Language.mem_one, Language.mem_mul]

theorem mem_kstar_letter : w ∈ (letter p)∗ ↔ ∀ c ∈ w, p c = true := by
  induction w with
  | nil => exact ⟨fun _ => nofun, fun _ => Language.nil_mem_kstar _⟩
  | cons c w ih =>
    rw [mem_kstar_iff, List.forall_mem_cons, ← ih]
    constructor
    · rintro (h | ⟨_, ⟨d, hd, rfl⟩, b, hb, h⟩)
      · cases h
      · cases h
        exact ⟨hd, hb⟩
    · rintro ⟨hc, hw⟩
      exact Or.inr ⟨[c], ⟨c, hc, rfl⟩, w, hw, rfl⟩

theorem mem_repeated (hl : [] ∉ l) : w ∈ repeated l ↔ w ≠ [] ∧ w ∈ l∗ := by
  rw [repeated, Language.mem_mul, mem_kstar_iff]
  constructor
  · rintro ⟨a, ha, b, hb, rfl⟩
    refine ⟨fun hnil => hl ?_, Or.inr ⟨a, ha, b, hb, rfl⟩⟩
    rwa [(List.append_eq_nil_iff.mp hnil).1] at ha
  · rintro ⟨hne, hnil | hw⟩
    · exact absurd hnil hne
    · exact hw

theorem mem_repeated_letter : w ∈ repeated (letter p) ↔ w ≠ [] ∧ ∀ c ∈ w, p c = true := by
  rw [mem_repeated (by rintro ⟨c, -, ⟨⟩⟩), mem_kstar_letter]

theorem mem_name : w ∈ name ↔
    ∃ sigil ∈ optional (letter isSigil), ∃ v, IsWord v ∧ sigil ++ v = w := by
  have word : ∀ v, v ∈ letter isIdentStart * (letter isIdentPart)∗ ↔ IsWord v := by
    intro v
    constructor
    · rintro ⟨_, ⟨c, hc, rfl⟩, b, hb, rfl⟩
      exact ⟨hc, mem_kstar_letter.mp hb⟩
    · intro hv
      cases v with
      | nil => exact hv.elim
      | cons c b => exact ⟨[c], ⟨c, hv.1, rfl⟩, b, mem_kstar_letter.mpr hv.2, rfl⟩
  simp only [name, Language.mem_mul (l := optional _), word]

theorem mem_repeated_digit : w ∈ repeated digit ↔ IsDigits w :=
  mem_repeated_letter.trans ⟨fun h => ⟨h.1, h.2⟩, fun h => ⟨h.nonempty, h.digit⟩⟩

theorem mem_exponent : w ∈ exponent ↔ IsExponent w := by
  constructor
  · rintro ⟨_, ⟨c, hc, rfl⟩, _, ⟨sg, hs, d, hd, rfl⟩, rfl⟩
    change IsExponent (c :: (sg ++ d))
    refine .mk (by simpa using hc) ?_ (mem_repeated_digit.mp hd)
    rcases hs with rfl | ⟨a, ha, rfl⟩
    · exact Or.inl rfl
    · refine Or.inr ?_
      rcases Bool.or_eq_true_iff.mp ha with ha | ha
      · exact Or.inl (congrArg (fun c => [c]) (beq_iff_eq.mp ha))
      · exact Or.inr (congrArg (fun c => [c]) (beq_iff_eq.mp ha))
  · rintro ⟨hc, hs, hd⟩
    rename_i c sg d
    refine ⟨[c], ⟨c, by simpa using hc, rfl⟩, sg ++ d, ⟨sg, ?_, d, mem_repeated_digit.mpr hd, rfl⟩,
      rfl⟩
    rcases hs with rfl | rfl | rfl
    · exact Or.inl rfl
    · exact Or.inr ⟨'+', rfl, rfl⟩
    · exact Or.inr ⟨'-', rfl, rfl⟩

theorem mem_floatLiteral : w ∈ floatLiteral ↔
    (∃ whole fraction e, (∀ c ∈ whole, c.isDigit = true) ∧ (∀ c ∈ fraction, c.isDigit = true) ∧
      (whole ≠ [] ∨ fraction ≠ []) ∧ (e = [] ∨ IsExponent e) ∧
      whole ++ '.' :: (fraction ++ e) = w) ∨
    ∃ whole e, IsDigits whole ∧ IsExponent e ∧ whole ++ e = w := by
  have exponents : ∀ {e}, e ∈ optional exponent ↔ e = [] ∨ IsExponent e :=
    mem_optional.trans (or_congr_right mem_exponent)
  constructor
  · rintro (⟨_, ⟨whole, hw, _, ⟨_, rfl, fraction, hf, rfl⟩, rfl⟩ | ⟨whole, hw, _, rfl, rfl⟩, e, he,
      rfl⟩ | ⟨whole, hw, e, he, rfl⟩)
    · have hf := mem_repeated_digit.mp hf
      exact Or.inl ⟨whole, fraction, e, mem_kstar_letter.mp hw, hf.digit, Or.inr hf.nonempty,
        exponents.mp he, (List.append_assoc whole ('.' :: fraction) e).symm⟩
    · have hw := mem_repeated_digit.mp hw
      exact Or.inl ⟨whole, [], e, hw.digit, nofun, Or.inl hw.nonempty, exponents.mp he,
        (List.append_assoc whole ['.'] e).symm⟩
    · exact Or.inr ⟨whole, e, mem_repeated_digit.mp hw, mem_exponent.mp he, rfl⟩
  · rintro (⟨whole, fraction, e, hw, hf, hne, he, rfl⟩ | ⟨whole, e, hw, he, rfl⟩)
    · by_cases hfraction : fraction = []
      · subst hfraction
        have hwhole : whole ≠ [] := hne.resolve_right fun h => h rfl
        have hw := mem_repeated_digit.mpr ⟨hwhole, hw⟩
        exact Or.inl ⟨whole ++ ['.'], Or.inr ⟨whole, hw, ['.'], rfl, rfl⟩, e, exponents.mpr he,
          List.append_assoc _ _ _⟩
      · have hf := mem_repeated_digit.mpr ⟨hfraction, hf⟩
        exact Or.inl ⟨whole ++ '.' :: fraction, Or.inl ⟨whole, mem_kstar_letter.mpr hw,
          '.' :: fraction, ⟨['.'], rfl, fraction, hf, rfl⟩, rfl⟩, e, exponents.mpr he,
          List.append_assoc _ _ _⟩
    · exact Or.inr ⟨whole, mem_repeated_digit.mpr hw, e, mem_exponent.mpr he, rfl⟩

theorem mem_blank : w ∈ blank ↔
    (∃ c, Text.isBlank c = true ∧ w = [c]) ∨ w = ['\\', '\n'] ∨ w = ['\\', '\r', '\n'] := by
  refine or_congr_right ⟨?_, ?_⟩
  · rintro ⟨_, rfl, _, ⟨_, rfl | rfl, _, rfl, rfl⟩, rfl⟩
    · exact Or.inl rfl
    · exact Or.inr rfl
  · rintro (rfl | rfl)
    · exact ⟨['\\'], rfl, ['\n'], ⟨[], Or.inl rfl, ['\n'], rfl, rfl⟩, rfl⟩
    · exact ⟨['\\'], rfl, ['\r', '\n'], ⟨['\r'], Or.inr rfl, ['\n'], rfl, rfl⟩, rfl⟩

theorem nil_notMem_blank : [] ∉ blank := by
  intro h
  rcases mem_blank.mp h with ⟨c, -, h⟩ | h | h <;> cases h

theorem mem_kstar_blank : w ∈ blank∗ ↔ w = [] ∨
    (∃ c, Text.isBlank c = true ∧ ∃ b ∈ blank∗, c :: b = w) ∨
    (∃ b ∈ blank∗, '\\' :: '\n' :: b = w) ∨ ∃ b ∈ blank∗, '\\' :: '\r' :: '\n' :: b = w := by
  rw [mem_kstar_iff]
  refine or_congr_right ⟨?_, ?_⟩
  · rintro ⟨a, ha, b, hb, rfl⟩
    rcases mem_blank.mp ha with ⟨c, hc, rfl⟩ | rfl | rfl
    · exact Or.inl ⟨c, hc, b, hb, rfl⟩
    · exact Or.inr (Or.inl ⟨b, hb, rfl⟩)
    · exact Or.inr (Or.inr ⟨b, hb, rfl⟩)
  · rintro (⟨c, hc, b, hb, rfl⟩ | ⟨b, hb, rfl⟩ | ⟨b, hb, rfl⟩)
    · exact ⟨[c], mem_blank.mpr (Or.inl ⟨c, hc, rfl⟩), b, hb, rfl⟩
    · exact ⟨['\\', '\n'], mem_blank.mpr (Or.inr (Or.inl rfl)), b, hb, rfl⟩
    · exact ⟨['\\', '\r', '\n'], mem_blank.mpr (Or.inr (Or.inr rfl)), b, hb, rfl⟩

theorem mem_hexLiteral : w ∈ hexLiteral ↔ IsHex w := by
  constructor
  · rintro ⟨_, rfl, _, ⟨d, hd, mark, hmark, rfl⟩, rfl⟩
    change IsHex ('0' :: 'x' :: (d ++ mark))
    exact .mk (mem_repeated_letter.mp hd) hmark
  · rintro ⟨hd, hmark⟩
    exact ⟨['0', 'x'], rfl, _, ⟨_, mem_repeated_letter.mpr hd, _, hmark, rfl⟩, rfl⟩

theorem mem_intLiteral : w ∈ intLiteral ↔ IsInt w := by
  constructor
  · rintro ⟨d, hd, _, rfl | rfl, rfl⟩
    · change IsInt (d ++ [])
      rw [List.append_nil]
      exact .plain (mem_repeated_digit.mp hd)
    · exact .unsigned (mem_repeated_digit.mp hd)
  · intro hw
    cases hw with
    | plain hd => exact ⟨w, mem_repeated_digit.mpr hd, [], Or.inl rfl, List.append_nil w⟩
    | unsigned hd => exact ⟨_, mem_repeated_digit.mpr hd, ['u'], Or.inr rfl, rfl⟩

end

end ShaderPress.Grammar
