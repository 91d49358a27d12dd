import ShaderPress.Token.Basic
import ShaderPress.Text.Word
import ShaderPress.Token.Pattern.Prefix

/-! # The form at the start of a text

An ordered table of rules decides what stands at the start of a text: the first
rule that accepts it wins, whatever length a later one would cover.  A form keeps
the stretches it is made of, so its text is theirs put together.  The last rule
accepts any single character.
-/
namespace ShaderPress

inductive Keyword where
  | define
  | conditional (test : Conditional)
deriving DecidableEq, Repr, Inhabited

namespace Keyword

def text : Keyword → List Char
  | define => ['d', 'e', 'f', 'i', 'n', 'e']
  | conditional test => test.keyword

end Keyword

/-- What a rule finds.  In `define` empty arguments or an empty body stand for none. -/
inductive Form where
  | define (gap space : List Char) (name : Ident) (arguments body : List Char)
  | conditional (gap : List Char) (test : Conditional) (space : List Char) (name : Ident)
  | definedTest (name : Ident)
  | directive (gap body : List Char)
  | lexeme (text : List Char) (kind : Lexeme)
  | unknown (c : Char)
  | malformed (keyword : Keyword)
deriving DecidableEq, Repr, Inhabited

namespace Form
open Pattern

def definedOpen : List Char := ['d', 'e', 'f', 'i', 'n', 'e', 'd', '(']

/-- The stretch of source that a form covers; a malformed directive covers none. -/
def text : Form → List Char
  | define gap space name arguments body =>
    '#' :: (gap ++ Keyword.define.text ++ space ++ name ++ arguments ++ body)
  | conditional gap test space name => '#' :: (gap ++ test.keyword ++ space ++ name)
  | definedTest name => definedOpen ++ name ++ [')']
  | directive gap body => '#' :: (gap ++ body)
  | lexeme text _ => text
  | unknown c => [c]
  | malformed _ => []

/-- What follows a word at the start of a text. -/
def afterWord? (w s : List Char) : Option (List Char) :=
  if w.isPrefixOf s then some (s.drop w.length) else none

/-- The gap after the hash and what follows the keyword of a directive. -/
def afterKeyword? (w : List Char) : List Char → Option (List Char × List Char)
  | '#' :: s => (afterWord? w (s.drop (gap s).length)).map (gap s, ·)
  | _ => none

/-- A keyword with a name after it, or the keyword alone, which is malformed. -/
def named? (keyword : Keyword) (form : List Char → List Char → Ident → List Char → Form)
    (s : List Char) : Option Form :=
  match afterKeyword? keyword.text s with
  | none => none
  | some (before, t) =>
    let space := gap t
    let name := identifier (t.drop space.length)
    if space.isEmpty || name.isEmpty then
      if Text.endsWord t then some (malformed keyword) else none
    else some (form before space name ((t.drop space.length).drop name.length))

def defineForm (before space : List Char) (name : Ident) (t : List Char) : Form :=
  define before space name (arguments t) (directiveBody (t.drop (arguments t).length))

def define? : List Char → Option Form := named? .define defineForm

def conditional? (test : Conditional) : List Char → Option Form :=
  named? (.conditional test) fun before space name _ => conditional before test space name

def definedTest? (s : List Char) : Option Form :=
  match afterWord? definedOpen s with
  | none => none
  | some t =>
    let name := identifier t
    match name.isEmpty, t.drop name.length with
    | false, ')' :: _ => some (definedTest name)
    | _, _ => none

def directive? : List Char → Option Form
  | '#' :: s => some (directive (gap s) (directiveBody (s.drop (gap s).length)))
  | _ => none

def lexeme? (kind : Lexeme) (pattern : List Char → List Char) (s : List Char) : Option Form :=
  match pattern s with
  | [] => none
  | t => some (lexeme t kind)

def unknown? : List Char → Option Form
  | [] => none
  | c :: _ => some (unknown c)

def rules : List (List Char → Option Form) :=
  [define?,
   conditional? .ifdef,
   conditional? .ifndef,
   definedTest?,
   lexeme? .tokenPaste tokenPaste,
   directive?,
   lexeme? .lineComment lineComment,
   lexeme? .blockComment blockComment,
   lexeme? .whitespace whitespace,
   lexeme? .operator operator,
   lexeme? .floatLiteral floatLiteral,
   lexeme? .hexLiteral hexLiteral,
   lexeme? .intLiteral intLiteral,
   lexeme? .identifier identifier,
   unknown?]

def first? (s : List Char) : Option Form := rules.findSome? (· s)

theorem afterWord?_eq_some {w s t : List Char} (h : afterWord? w s = some t) : s = w ++ t := by
  unfold afterWord? at h
  split at h
  · next hp =>
    cases h
    obtain ⟨u, rfl⟩ := List.isPrefixOf_iff_prefix.1 hp
    rw [List.drop_left]
  · cases h

theorem afterKeyword?_eq_some {w s g t : List Char} (h : afterKeyword? w s = some (g, t)) :
    s = '#' :: (g ++ w ++ t) := by
  unfold afterKeyword? at h
  split at h
  · next s =>
    obtain ⟨u, hu, he⟩ := Option.map_eq_some_iff.1 h
    cases he
    rw [List.append_assoc, ← afterWord?_eq_some hu, List.prefix_iff_eq_append.1 (gap_isPrefix s)]
  · cases h

/-- What a rule with a keyword finds: the name stands after a gap, and the rest is left to `form`. -/
theorem named?_eq_some {keyword : Keyword}
    {form : List Char → List Char → Ident → List Char → Form} {s : List Char} {f : Form}
    (h : named? keyword form s = some f) : f = malformed keyword ∨
      ∃ before space name rest, s = '#' :: (before ++ keyword.text ++ space ++ name ++ rest) ∧
        f = form before space name rest := by
  unfold named? at h
  split at h
  · cases h
  · next before t ht =>
    simp only at h
    split at h
    · split at h
      · cases h; exact .inl rfl
      · cases h
    · cases h
      refine .inr ⟨before, gap t, identifier (t.drop (gap t).length),
        (t.drop (gap t).length).drop (identifier (t.drop (gap t).length)).length, ?_, rfl⟩
      rw [afterKeyword?_eq_some ht]
      simp only [List.append_assoc, List.prefix_iff_eq_append.1 (identifier_isPrefix _),
        List.prefix_iff_eq_append.1 (gap_isPrefix t)]

theorem lexeme?_eq_some {kind : Lexeme} {pattern : List Char → List Char} {s : List Char} {f : Form}
    (h : lexeme? kind pattern s = some f) : f = lexeme (pattern s) kind ∧ pattern s ≠ [] := by
  unfold lexeme? at h
  split at h
  · cases h
  · next hne => cases h; exact ⟨rfl, hne⟩

theorem directive?_eq_some {s : List Char} {f : Form} (h : directive? s = some f) :
    ∃ gap body, f = directive gap body ∧ f.text <+: s := by
  unfold directive? at h
  split at h
  · next s =>
    cases h
    exact ⟨_, _, rfl, (List.prefix_cons_inj _).2
      (prefix_append_drop (gap_isPrefix s) (directiveBody_isPrefix _))⟩
  · cases h

theorem definedTest?_eq_some {s : List Char} {f : Form} (h : definedTest? s = some f) :
    ∃ name, name ≠ [] ∧ f = definedTest name ∧ f.text <+: s := by
  unfold definedTest? at h
  split at h
  · cases h
  · next t ht =>
    simp only at h
    split at h
    · next rest hn hr =>
      cases h
      refine ⟨_, by simpa using hn, rfl, rest, ?_⟩
      rw [afterWord?_eq_some ht]
      simp only [text, List.append_assoc, List.singleton_append, ← hr,
        List.prefix_iff_eq_append.1 (identifier_isPrefix t)]
    · cases h

/-- A form found at the start of a text covers a nonempty stretch of it, unless it is malformed. -/
def Covers (s : List Char) (f : Form) : Prop :=
  (∃ keyword, f = malformed keyword) ∨ f.text <+: s ∧ f.text ≠ []

theorem covers_of_lexeme? {kind : Lexeme} {pattern : List Char → List Char}
    (hp : ∀ s, pattern s <+: s) {s : List Char} {f : Form} (h : lexeme? kind pattern s = some f) :
    Covers s f := by
  obtain ⟨rfl, hne⟩ := lexeme?_eq_some h
  exact .inr ⟨hp s, hne⟩

theorem covers_of_define? {s : List Char} {f : Form} (h : define? s = some f) : Covers s f := by
  rcases named?_eq_some h with rfl | ⟨before, space, name, rest, rfl, rfl⟩
  · exact .inl ⟨_, rfl⟩
  · refine .inr ⟨?_, by simp [defineForm, text]⟩
    simp only [defineForm, text, List.append_assoc, List.prefix_cons_inj,
      List.prefix_append_right_inj]
    exact prefix_append_drop (arguments_isPrefix rest) (directiveBody_isPrefix _)

theorem covers_of_conditional? {test : Conditional} {s : List Char} {f : Form}
    (h : conditional? test s = some f) : Covers s f := by
  rcases named?_eq_some h with rfl | ⟨before, space, name, rest, rfl, rfl⟩
  · exact .inl ⟨_, rfl⟩
  · exact .inr ⟨⟨rest, by simp [text, Keyword.text]⟩, by simp [text]⟩

theorem covers_of_first? {s : List Char} {f : Form} (h : first? s = some f) : Covers s f := by
  obtain ⟨rule, hm, hr⟩ := List.exists_of_findSome?_eq_some h
  simp only [rules, List.mem_cons, List.not_mem_nil, or_false] at hm
  rcases hm with rfl | rfl | rfl | rfl | rfl | rfl | rfl | rfl | rfl | rfl | rfl | rfl | rfl | rfl
    | rfl
  · exact covers_of_define? hr
  · exact covers_of_conditional? hr
  · exact covers_of_conditional? hr
  · obtain ⟨name, _, rfl, ht⟩ := definedTest?_eq_some hr
    exact .inr ⟨ht, by simp [text, definedOpen]⟩
  · exact covers_of_lexeme? tokenPaste_isPrefix hr
  · obtain ⟨g, body, rfl, ht⟩ := directive?_eq_some hr
    exact .inr ⟨ht, by simp [text]⟩
  · exact covers_of_lexeme? lineComment_isPrefix hr
  · exact covers_of_lexeme? blockComment_isPrefix hr
  · exact covers_of_lexeme? whitespace_isPrefix hr
  · exact covers_of_lexeme? operator_isPrefix hr
  · exact covers_of_lexeme? floatLiteral_isPrefix hr
  · exact covers_of_lexeme? hexLiteral_isPrefix hr
  · exact covers_of_lexeme? intLiteral_isPrefix hr
  · exact covers_of_lexeme? identifier_isPrefix hr
  · cases s with
    | nil => cases hr
    | cons c s => cases hr; exact .inr ⟨⟨s, rfl⟩, by simp [text]⟩

theorem first?_eq_none_iff {s : List Char} : first? s = none ↔ s = [] := by
  constructor
  · intro h
    have hu : unknown? s = none := List.findSome?_eq_none_iff.1 h unknown? (by simp [rules])
    cases s with
    | nil => rfl
    | cons c s => cases hu
  · rintro rfl
    rfl

theorem text_length_le {s : List Char} {f : Form} (h : first? s = some f) :
    f.text.length ≤ s.length := by
  rcases covers_of_first? h with ⟨keyword, rfl⟩ | ⟨hp, _⟩
  · exact Nat.zero_le _
  · exact hp.length_le

theorem length_drop_lt {s : List Char} {f : Form} (h : first? s = some f)
    (hf : f.text ≠ []) : (s.drop f.text.length).length < s.length := by
  have := text_length_le h
  have := List.length_pos_iff.2 hf
  rw [List.length_drop]
  omega

end Form

end ShaderPress
