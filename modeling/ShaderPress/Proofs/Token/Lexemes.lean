import Mathlib.Data.List.Chain
import ShaderPress.Catalog.Recount
import ShaderPress.Proofs.Ident.Words
import ShaderPress.Proofs.Token.LogicalLine
import ShaderPress.Proofs.Token.Reading

/-! # The lexemes of a stream

A text without a hash holds no preprocessor line, so its tokens are the lexemes that the
plain rules find, where a `defined` test counts as four.  Such a text is lexed unless it
holds an illegal character that is to be rejected.
-/
namespace ShaderPress

namespace Token
open Form Pattern

/-- The lexemes of a token, its identifiers spelled as told; a `defined` test has four, and
whitespace and preprocessor lines have none. -/
def lexemesOf (spell : Bool → Ident → List Char) (followsPoint : Bool) :
    Token → List (Lexeme × List Char)
  | lexeme _ _ .whitespace => []
  | lexeme text _ .identifier => [(.identifier, spell followsPoint text)]
  | lexeme text _ kind => [(kind, text)]
  | definedTest _ _ name => definedLexemes (spell false name)
  | _ => []

/-- The lexemes of a stream; the spelling of an identifier may depend on a point before it. -/
def lexemes (spell : Bool → Ident → List Char) (followsPoint : Bool) :
    List Token → List (Lexeme × List Char)
  | [] => []
  | t :: ts => lexemesOf spell followsPoint t ++
    lexemes spell (if t.isWhitespace then followsPoint else t.isPoint) ts

/-- Identifiers as the source spells them. -/
def asRead : Bool → Ident → List Char := fun _ x => x

end Token

section Lexing
open Form Pattern Token
variable {policy : UnknownPolicy} {line : Nat} {s : List Char}

theorem head_ne_of_not_mem (h : '#' ∉ s) : s.head? ≠ some '#' :=
  fun hh => h (List.mem_of_mem_head? hh)

theorem outcome_lexFrom_lexeme {text : List Char} {kind : Lexeme}
    (h : first? s = some (.lexeme text kind)) :
    (lexFrom policy line s).outcome =
      (lexBehind policy line s text).outcome.map (Token.lexeme text line kind :: ·) := by
  rw [lexFrom_lexeme h]
  by_cases hk : kind = .identifier
  · rw [if_pos hk]
    rfl
  · rw [if_neg hk]
    rfl

theorem outcome_lexFrom_define {gap space arguments body : List Char} {name : Ident}
    (h : first? s = some (.define gap space name arguments body)) {a b : Option (List Token)}
    (ha : (lexPart policy line arguments).outcome = .ok a)
    (hb : (lexPart policy (line + Text.newlines arguments) body).outcome = .ok b) :
    (lexFrom policy line s).outcome =
      (lexBehind policy line s (Form.define gap space name arguments body).text).outcome.map
        (Token.define (Form.define gap space name arguments body).text line name a b :: ·) := by
  rw [lexFrom_define h, Scan.bind_ok ha, Scan.bind_ok hb]
  rfl

theorem outcome_lexFrom_conditional {gap space : List Char} {test : Conditional} {name : Ident}
    (h : first? s = some (.conditional gap test space name)) :
    (lexFrom policy line s).outcome =
      (lexBehind policy line s (Form.conditional gap test space name).text).outcome.map
        (Token.conditional (Form.conditional gap test space name).text line test name :: ·) := by
  rw [lexFrom_conditional h]
  rfl

theorem outcome_lexFrom_directive {gap body : List Char}
    (h : first? s = some (.directive gap body)) {b : Option (List Token)}
    (hb : (lexPart policy line body).outcome = .ok b) :
    (lexFrom policy line s).outcome =
      (lexBehind policy line s (Form.directive gap body).text).outcome.map
        (Token.directive (Form.directive gap body).text line b :: ·) := by
  rw [lexFrom_directive h, Scan.bind_ok hb]
  rfl

theorem outcome_lexFrom_definedTest {name : Ident} (h : first? s = some (.definedTest name)) :
    (lexFrom policy line s).outcome =
      (lexBehind policy line s (Form.definedTest name).text).outcome.map
        (Token.definedTest (Form.definedTest name).text line name :: ·) := by
  rw [lexFrom_definedTest h]
  rfl

theorem lexBehind_append (text rest : List Char) : lexBehind policy line (text ++ rest) text =
    lexFrom policy (line + Text.newlines text) rest := by
  rw [lexBehind, List.drop_left]

/-- The forms that can stand at the start of a text without a hash. -/
theorem first?_cases_of_not_mem (hs : '#' ∉ s) {f : Form} (h : first? s = some f) :
    (∃ name rest, f = .definedTest name ∧ name ≠ [] ∧ identifier (name ++ ')' :: rest) = name ∧
      s = definedOpen ++ (name ++ ')' :: rest)) ∨ plain? s = some f := by
  rw [first?_of_head_ne (head_ne_of_not_mem hs)] at h
  cases hd : definedTest? s with
  | some g =>
    rw [hd] at h
    cases h
    exact Or.inl (definedTest?_cases hd)
  | none =>
    rw [hd] at h
    exact Or.inr h

theorem text_definedTest (name : Ident) (rest : List Char) :
    definedOpen ++ (name ++ ')' :: rest) = (Form.definedTest name).text ++ rest := by
  simp [Form.text]

/-- A text without a hash is lexed if its lexemes are legal. -/
theorem lexFrom_isOk (hs : '#' ∉ s) (hlegal : ∀ p ∈ readPlain s, p.1 ≠ .unknown) :
    ∃ tokens, (lexFrom policy line s).outcome = .ok tokens := by
  induction hn : s.length using Nat.strongRecOn generalizing s line with
  | ind n ih =>
  subst hn
  have behind : ∀ {w rest : List Char} (line : Nat), s = w ++ rest → w ≠ [] →
      (∀ p ∈ readPlain rest, p.1 ≠ .unknown) →
      ∃ tokens, (lexBehind policy line s w).outcome = .ok tokens := by
    rintro w rest line rfl hw hrest
    rw [lexBehind_append]
    refine ih _ ?_ (fun h => hs (List.mem_append_right _ h)) hrest rfl
    have := List.length_pos_iff.mpr hw
    rw [List.length_append]
    omega
  cases hf : first? s with
  | none =>
    rw [first?_eq_none_iff.mp hf, lexFrom_nil]
    exact ⟨[], rfl⟩
  | some f =>
    rcases first?_cases_of_not_mem hs hf with ⟨name, rest, rfl, hname, hid, he⟩ | hplain
    · rw [he, readPlain_definedTest hname hid, List.forall_mem_append] at hlegal
      obtain ⟨tokens, hb⟩ := behind line (he.trans (text_definedTest name rest))
        (by simp [Form.text]) hlegal.2
      exact ⟨_, by rw [outcome_lexFrom_definedTest hf, hb]; rfl⟩
    · rcases plain?_cases hplain with ⟨w, kind, rfl, ⟨rest, rfl⟩, hw⟩ | ⟨c, t, rfl, rfl⟩
      · rw [readPlain_lexeme hplain, List.drop_left, List.forall_mem_append] at hlegal
        obtain ⟨tokens, hb⟩ := behind line rfl hw hlegal.2
        exact ⟨_, by rw [outcome_lexFrom_lexeme hf, hb]; rfl⟩
      · rw [readPlain_unknown hplain] at hlegal
        exact absurd rfl (hlegal _ List.mem_cons_self)

section Induction
variable {motive : List Char → List Token → Prop}

/-- Induction over the lexing of a text without a hash. -/
theorem lexFrom_induction_of_not_mem (nil : motive [] [])
    (definedTest : ∀ line name rest ts, name ≠ [] → identifier (name ++ ')' :: rest) = name →
      motive rest ts → motive (definedOpen ++ (name ++ ')' :: rest))
        (.definedTest (Form.definedTest name).text line name :: ts))
    (lexeme : ∀ line w kind rest ts, plain? (w ++ rest) = some (.lexeme w kind) → w ≠ [] →
      motive rest ts → motive (w ++ rest) (.lexeme w line kind :: ts))
    (unknown : ∀ line c rest ts, policy ≠ .reject → plain? (c :: rest) = some (.unknown c) →
      motive rest ts → motive (c :: rest) (.lexeme [c] line .unknown :: ts))
    {tokens : List Token} (h : (lexFrom policy line s).outcome = .ok tokens) (hs : '#' ∉ s) :
    motive s tokens := by
  have noHash : ∀ {s : List Char} {f : Form}, '#' ∉ s → first? s = some f →
      f.text.head? ≠ some '#' := by
    intro s f hs hf hh
    rcases covers_of_first? hf with ⟨keyword, rfl⟩ | ⟨⟨rest, hp⟩, -⟩
    · cases hh
    · exact hs (hp ▸ List.mem_append_left _ (List.mem_of_mem_head? hh))
  refine lexFrom_induction (motive := fun _ s ts _ => '#' ∉ s → motive s ts) ?_ ?_ ?_ ?_ ?_ ?_ ?_
    s line tokens h hs
  · exact fun _ _ => nil
  · intro line s gap space name arguments body a b ts ta tb tr hf _ _ _ _ hs
    exact absurd rfl (noHash hs hf)
  · intro line s gap test space name ts tr hf _ _ hs
    exact absurd rfl (noHash hs hf)
  · intro line s name ts tr hf _ hr hs
    rcases first?_cases_of_not_mem hs hf with ⟨name', rest, he, hname, hid, rfl⟩ | hplain
    · cases he
      refine definedTest line name rest ts hname hid (?_ : motive rest ts)
      rw [text_definedTest, List.drop_left] at hr
      rw [text_definedTest] at hs
      exact hr fun hm => hs (List.mem_append_right _ hm)
    · rcases plain?_cases hplain with ⟨_, _, he, -, -⟩ | ⟨_, _, -, he⟩ <;> cases he
  · intro line s gap body b ts tb tr hf _ _ _ hs
    exact absurd rfl (noHash hs hf)
  · intro line s w kind ts tr hf hr hs
    rcases first?_cases_of_not_mem hs hf with ⟨_, _, he, _⟩ | hplain
    · cases he
    · rcases plain?_cases hplain with ⟨_, _, he, ⟨rest, rfl⟩, hw⟩ | ⟨_, _, -, he⟩
      · cases he
        rw [List.drop_left] at hr
        exact lexeme line w kind rest ts hplain hw (hr fun hm => hs (List.mem_append_right _ hm))
      · cases he
  · intro line s c ts tr hp hf hr hs
    rcases first?_cases_of_not_mem hs hf with ⟨_, _, he, _⟩ | hplain
    · cases he
    · rcases plain?_cases hplain with ⟨_, _, he, -, -⟩ | ⟨_, rest, rfl, he⟩
      · cases he
      · cases he
        exact unknown line c rest ts hp hplain (hr fun hm => hs (List.mem_cons_of_mem _ hm))

end Induction

/-- The tokens of a text without a hash have the lexemes of the text. -/
theorem lexemes_lexFrom {tokens : List Token} (h : (lexFrom policy line s).outcome = .ok tokens)
    (hs : '#' ∉ s) (followsPoint : Bool) : lexemes asRead followsPoint tokens = readPlain s := by
  refine lexFrom_induction_of_not_mem
    (motive := fun s ts => ∀ followsPoint, lexemes asRead followsPoint ts = readPlain s)
    ?_ ?_ ?_ ?_ h hs followsPoint
  · intro followsPoint
    rw [readPlain_nil, lexemes]
  · intro line name rest ts hname hid hr followsPoint
    rw [lexemes, hr, readPlain_definedTest hname hid]
    rfl
  · intro line w kind rest ts hplain hw hr followsPoint
    rw [lexemes, hr, readPlain_lexeme hplain, List.drop_left]
    cases kind <;> rfl
  · intro line c rest ts _ hplain hr followsPoint
    rw [lexemes, hr, readPlain_unknown hplain]
    rfl

end Lexing

section Policy
open Token

theorem lexPart_pass {line : Nat} {s : List Char} {part : Option (List Token)}
    {trail : List Occurrence}
    (h : PartHolds (fun line s ts _ => (lexFrom .pass line s).outcome = .ok ts) line s part trail) :
    (lexPart .pass line s).outcome = .ok part := by
  rcases h with ⟨rfl, rfl, -⟩ | ⟨hs, ts, rfl, hts⟩
  · rfl
  · rw [lexPart, if_neg hs, Scan.map_def, hts]
    rfl

/-- A text that is lexed when illegal characters are rejected is lexed alike when they are
passed. -/
theorem lexFrom_pass_of_reject {line : Nat} {s : List Char} {tokens : List Token}
    (h : (lexFrom .reject line s).outcome = .ok tokens) :
    (lexFrom .pass line s).outcome = .ok tokens := by
  refine lexFrom_induction (motive := fun line s ts _ => (lexFrom .pass line s).outcome = .ok ts)
    ?_ ?_ ?_ ?_ ?_ ?_ ?_ s line tokens h
  · intro line
    rw [lexFrom_nil]
    rfl
  · intro line s gap space name arguments body a b ts ta tb tr hf ha hb text hr
    rw [outcome_lexFrom_define hf (lexPart_pass ha) (lexPart_pass hb), lexBehind, hr]
    rfl
  · intro line s gap test space name ts tr hf text hr
    rw [outcome_lexFrom_conditional hf, lexBehind, hr]
    rfl
  · intro line s name ts tr hf text hr
    rw [outcome_lexFrom_definedTest hf, lexBehind, hr]
    rfl
  · intro line s gap body b ts tb tr hf hb text hr
    rw [outcome_lexFrom_directive hf (lexPart_pass hb), lexBehind, hr]
    rfl
  · intro line s text kind ts tr hf hr
    rw [outcome_lexFrom_lexeme hf, lexBehind, hr]
    rfl
  · intro line s c ts tr hp _ _
    exact absurd rfl hp

end Policy

section Shapes
open Form Ident Pattern Token

/-- A token as a text without a hash and without illegal characters holds it. -/
def Token.Shaped : Token → Prop
  | lexeme text _ kind => match kind with
    | .whitespace | .lineComment | .blockComment => True
    | .operator => ∃ c ∈ operators, text = [c]
    | .floatLiteral => IsFloat text
    | .hexLiteral => IsHex text
    | .intLiteral => IsInt text
    | .identifier => IsName text
    | .tokenPaste | .unknown => False
  | definedTest _ _ name => IsName name
  | _ => False

/-- What a pattern finds has the shape of its kind; a point alone starts no float. -/
theorem shaped_pattern {kind : Lexeme} {s : List Char} {line : Nat} (hpaste : kind ≠ .tokenPaste)
    (hne : kind.pattern s ≠ []) (hpoint : kind = .floatLiteral → s.head? ≠ some '.') :
    (lexeme (kind.pattern s) line kind).Shaped := by
  cases kind with
  | whitespace | lineComment | blockComment => trivial
  | operator =>
    cases s with
    | nil => exact absurd rfl hne
    | cons c s =>
      by_cases hc : c ∈ operators
      · exact ⟨c, hc, if_pos hc⟩
      · exact (hne (operator_cons_of_not_mem (s := s) hc)).elim
  | floatLiteral => exact isFloat_floatLiteral hne (hpoint rfl)
  | hexLiteral => exact isHex_hexLiteral hne
  | intLiteral => exact isInt_intLiteral hne
  | identifier => exact isName_identifier hne
  | tokenPaste => exact absurd rfl hpaste
  | unknown => exact absurd rfl hne

theorem shaped_of_plain? {s text : List Char} {kind : Lexeme} {line : Nat}
    (h : plain? s = some (.lexeme text kind)) : (lexeme text line kind).Shaped := by
  rcases plain?_eq_some h with ⟨k, hpaste, he, hne⟩ | ⟨_, _, -, he⟩
  · cases he
    refine shaped_pattern hpaste hne ?_
    rintro rfl hs
    obtain ⟨t, rfl⟩ := List.head?_eq_some_iff.mp hs
    rw [plain?_operator (by decide) fun h => absurd h (by decide)] at h
    cases (Form.lexeme.inj (Option.some.inj h)).2
  · cases he

theorem shaped_of_lexFrom {line : Nat} {s : List Char} {tokens : List Token}
    (h : (lexFrom .reject line s).outcome = .ok tokens) (hs : '#' ∉ s) :
    ∀ t ∈ tokens, t.Shaped := by
  refine lexFrom_induction_of_not_mem (motive := fun _ ts => ∀ t ∈ ts, t.Shaped) ?_ ?_ ?_ ?_ h hs
  · exact fun t ht => absurd ht List.not_mem_nil
  · intro line name rest ts hname hid hr
    have hshape : IsName name := by
      have := isName_identifier (s := name ++ ')' :: rest) (by rwa [hid])
      rwa [hid] at this
    exact List.forall_mem_cons.mpr ⟨hshape, hr⟩
  · intro line w kind rest ts hplain _ hr
    exact List.forall_mem_cons.mpr ⟨shaped_of_plain? hplain, hr⟩
  · intro line c rest ts hp
    exact absurd rfl hp

theorem Token.operator?_eq_some {t : Token} {w : List Char} (h : t.operator? = some w) :
    ∃ line, t = lexeme w line .operator := by
  cases t with
  | lexeme text line kind =>
    cases kind <;> cases h
    exact ⟨line, rfl⟩
  | _ => cases h

/-- Two slashes side by side start a comment. -/
theorem slashes_of_lexFrom {policy : UnknownPolicy} {line : Nat} {s : List Char}
    {tokens : List Token} (h : (lexFrom policy line s).outcome = .ok tokens) (hs : '#' ∉ s) :
    tokens.IsChain fun a b => ¬ (a.operator? = some ['/'] ∧ b.operator? = some ['/']) := by
  have apart : ∀ {w rest : List Char} {kind : Lexeme} {line : Nat} {ts : List Token},
      plain? (w ++ rest) = some (.lexeme w kind) → sourceOf ts = rest →
      ∀ b ∈ ts.head?, ¬ ((lexeme w line kind).operator? = some ['/'] ∧
        b.operator? = some ['/']) := by
    rintro w rest kind line ts hplain hts b hb ⟨hw, hslash⟩
    cases ts with
    | nil => cases hb
    | cons u ts =>
      obtain rfl := Option.some.inj hb
      obtain ⟨line', rfl⟩ := operator?_eq_some hslash
      obtain ⟨_, he⟩ := operator?_eq_some hw
      cases he
      rw [← hts] at hplain
      cases hplain
  refine (lexFrom_induction_of_not_mem (motive := fun s ts =>
    sourceOf ts = s ∧ ts.IsChain fun a b => ¬ (a.operator? = some ['/'] ∧ b.operator? = some ['/']))
    ?_ ?_ ?_ ?_ h hs).2
  · exact ⟨rfl, .nil⟩
  · intro line name rest ts _ _ hr
    refine ⟨?_, List.isChain_cons.mpr ⟨?_, hr.2⟩⟩
    · rw [sourceOf_cons, hr.1, text_definedTest]
      rfl
    · rintro b - ⟨ho, -⟩
      cases ho
  · intro line w kind rest ts hplain _ hr
    refine ⟨by rw [sourceOf_cons, hr.1]; rfl, List.isChain_cons.mpr ⟨apart hplain hr.1, hr.2⟩⟩
  · intro line c rest ts _ _ hr
    refine ⟨by rw [sourceOf_cons, hr.1]; rfl, List.isChain_cons.mpr ⟨?_, hr.2⟩⟩
    rintro b - ⟨ho, -⟩
    cases ho

end Shapes

end ShaderPress
