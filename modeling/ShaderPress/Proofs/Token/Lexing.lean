import ShaderPress.Token.Lexer

/-! # Induction over a successful lexing

One equation for each form says how the lexer goes on behind it.  From these follows
the one induction that every property of lexed tokens rests on: a stream is built form
by form, with the parts of a directive lexed in the same way, and the trail is put
together along with the tokens.
-/
namespace ShaderPress

namespace Scan
variable {α β : Type}

theorem bind_eq_ok {x : Scan α} {f : α → Scan β} {b : β} (h : (x >>= f).outcome = .ok b) :
    ∃ a, x.outcome = .ok a ∧ (f a).outcome = .ok b ∧ (x >>= f).trail = x.trail ++ (f a).trail := by
  cases hx : x.outcome with
  | error e =>
    rw [bind_error hx] at h
    cases h
  | ok a =>
    rw [bind_ok hx] at h
    exact ⟨a, rfl, h, by rw [bind_ok hx]⟩

theorem map_eq_ok {x : Scan α} {f : α → β} {b : β} (h : (f <$> x).outcome = .ok b) :
    ∃ a, x.outcome = .ok a ∧ b = f a := by
  rw [map_def] at h
  cases hx : x.outcome with
  | error e =>
    rw [hx] at h
    cases h
  | ok a =>
    rw [hx] at h
    cases h
    exact ⟨a, rfl, rfl⟩

end Scan

/-- Lexes a part of a directive; nothing there is no part. -/
def lexPart (policy : UnknownPolicy) (line : Nat) (s : List Char) : Scan (Option (List Token)) :=
  if s = [] then pure none else some <$> lexFrom policy line s

section Equations
variable {policy : UnknownPolicy} {line : Nat} {s : List Char}

/-- The text behind a form, lexed from the line on which the form ends. -/
def lexBehind (policy : UnknownPolicy) (line : Nat) (s text : List Char) : Scan (List Token) :=
  lexFrom policy (line + Text.newlines text) (s.drop text.length)

theorem lexFrom_nil : lexFrom policy line [] = pure [] := by
  rw [lexFrom]
  rfl

theorem lexFrom_malformed {keyword : Keyword} (h : Form.first? s = some (.malformed keyword)) :
    lexFrom policy line s = .fail (.malformedDirective keyword (Text.firstLine s) line) := by
  rw [lexFrom]
  split <;> rename_i h' <;> rw [h] at h' <;> cases h'
  rfl

theorem lexFrom_define {gap space arguments body : List Char} {name : Ident}
    (h : Form.first? s = some (.define gap space name arguments body)) :
    lexFrom policy line s = (do
      let a ← lexPart policy line arguments
      let b ← lexPart policy (line + Text.newlines arguments) body
      Scan.note (.defined name)
      let text := (Form.define gap space name arguments body).text
      (Token.define text line name a b :: ·) <$> lexBehind policy line s text) := by
  rw [lexFrom]
  split <;> rename_i h' <;> rw [h] at h' <;> cases h'
  by_cases ha : arguments = [] <;> by_cases hb : body = [] <;>
    simp only [lexPart, ha, hb, if_true, if_false] <;> rfl

theorem lexFrom_conditional {gap space : List Char} {test : Conditional} {name : Ident}
    (h : Form.first? s = some (.conditional gap test space name)) :
    lexFrom policy line s = (do
      Scan.note (.tested name)
      let text := (Form.conditional gap test space name).text
      (Token.conditional text line test name :: ·) <$> lexBehind policy line s text) := by
  rw [lexFrom]
  split <;> rename_i h' <;> rw [h] at h' <;> cases h'
  rfl

theorem lexFrom_definedTest {name : Ident} (h : Form.first? s = some (.definedTest name)) :
    lexFrom policy line s = (do
      Scan.note (.tested name)
      let text := (Form.definedTest name).text
      (Token.definedTest text line name :: ·) <$> lexBehind policy line s text) := by
  rw [lexFrom]
  split <;> rename_i h' <;> rw [h] at h' <;> cases h'
  rfl

theorem lexFrom_directive {gap body : List Char} (h : Form.first? s = some (.directive gap body)) :
    lexFrom policy line s = (do
      let b ← lexPart policy line body
      let text := (Form.directive gap body).text
      (Token.directive text line b :: ·) <$> lexBehind policy line s text) := by
  rw [lexFrom]
  split <;> rename_i h' <;> rw [h] at h' <;> cases h'
  by_cases hb : body = [] <;> simp only [lexPart, hb, if_true, if_false] <;> rfl

theorem lexFrom_lexeme {text : List Char} {kind : Lexeme}
    (h : Form.first? s = some (.lexeme text kind)) :
    lexFrom policy line s = (do
      if kind = .identifier then Scan.note (.referenced text)
      (Token.lexeme text line kind :: ·) <$> lexBehind policy line s text) := by
  rw [lexFrom]
  split <;> rename_i h' <;> rw [h] at h' <;> cases h'
  rfl

theorem lexFrom_unknown {c : Char} (h : Form.first? s = some (.unknown c)) :
    lexFrom policy line s =
      if policy = .reject then .fail (.illegalCharacter c line)
      else (Token.lexeme [c] line .unknown :: ·) <$> lexBehind policy line s [c] := by
  rw [lexFrom]
  split <;> rename_i h' <;> rw [h] at h' <;> cases h'
  rfl

end Equations

section Induction
variable {policy : UnknownPolicy} {motive : Nat → List Char → List Token → List Occurrence → Prop}

/-- What lexing a part gives: nothing for no part, a stream with its trail otherwise. -/
def PartHolds (motive : Nat → List Char → List Token → List Occurrence → Prop) (line : Nat)
    (s : List Char) (part : Option (List Token)) (trail : List Occurrence) : Prop :=
  (s = [] ∧ part = none ∧ trail = []) ∨
    s ≠ [] ∧ ∃ tokens, part = some tokens ∧ motive line s tokens trail

theorem partHolds_of_ok {line : Nat} {s : List Char} {part : Option (List Token)}
    (hm : ∀ ts, (lexFrom policy line s).outcome = .ok ts →
      motive line s ts (lexFrom policy line s).trail)
    (h : (lexPart policy line s).outcome = .ok part) :
    PartHolds motive line s part (lexPart policy line s).trail := by
  by_cases hs : s = []
  · rw [lexPart, if_pos hs] at h ⊢
    cases h
    exact Or.inl ⟨hs, rfl, rfl⟩
  · rw [lexPart, if_neg hs] at h ⊢
    obtain ⟨ts, hts, rfl⟩ := Scan.map_eq_ok h
    exact Or.inr ⟨hs, ts, rfl, hm ts hts⟩

/-- Induction over a successful lexing, with one case for each form. -/
theorem lexFrom_induction (nil : ∀ line, motive line [] [] [])
    (define : ∀ line s gap space name arguments body a b ts ta tb tr,
      Form.first? s = some (.define gap space name arguments body) →
      PartHolds motive line arguments a ta →
      PartHolds motive (line + Text.newlines arguments) body b tb →
      let text := (Form.define gap space name arguments body).text
      motive (line + Text.newlines text) (s.drop text.length) ts tr →
      motive line s (.define text line name a b :: ts) (ta ++ (tb ++ .defined name :: tr)))
    (conditional : ∀ line s gap test space name ts tr,
      Form.first? s = some (.conditional gap test space name) →
      let text := (Form.conditional gap test space name).text
      motive (line + Text.newlines text) (s.drop text.length) ts tr →
      motive line s (.conditional text line test name :: ts) (.tested name :: tr))
    (definedTest : ∀ line s name ts tr, Form.first? s = some (.definedTest name) →
      let text := (Form.definedTest name).text
      motive (line + Text.newlines text) (s.drop text.length) ts tr →
      motive line s (.definedTest text line name :: ts) (.tested name :: tr))
    (directive : ∀ line s gap body b ts tb tr,
      Form.first? s = some (.directive gap body) → PartHolds motive line body b tb →
      let text := (Form.directive gap body).text
      motive (line + Text.newlines text) (s.drop text.length) ts tr →
      motive line s (.directive text line b :: ts) (tb ++ tr))
    (lexeme : ∀ line s text kind ts tr, Form.first? s = some (.lexeme text kind) →
      motive (line + Text.newlines text) (s.drop text.length) ts tr →
      motive line s (.lexeme text line kind :: ts)
        (if kind = .identifier then .referenced text :: tr else tr))
    (unknown : ∀ line s c ts tr, policy ≠ .reject → Form.first? s = some (.unknown c) →
      motive (line + Text.newlines [c]) (s.drop 1) ts tr →
      motive line s (.lexeme [c] line .unknown :: ts) tr) :
    ∀ s line ts, (lexFrom policy line s).outcome = .ok ts →
      motive line s ts (lexFrom policy line s).trail := by
  intro s
  -- every stretch that is lexed inside or behind a form is shorter than the text
  induction hn : s.length using Nat.strongRecOn generalizing s with
  | ind n ih =>
  subst hn
  intro line ts h
  have part : ∀ {line' s' o}, s'.length < s.length → (lexPart policy line' s').outcome = .ok o →
      PartHolds motive line' s' o (lexPart policy line' s').trail :=
    fun hlt h' => partHolds_of_ok (ih _ hlt _ rfl _) h'
  cases hf : Form.first? s with
  | none =>
    obtain rfl := Form.first?_eq_none_iff.mp hf
    rw [lexFrom_nil] at h ⊢
    cases h
    exact nil line
  | some f =>
    have behind : ∀ {ts'}, (∀ keyword, f ≠ .malformed keyword) →
        (lexBehind policy line s f.text).outcome = .ok ts' →
        motive (line + Text.newlines f.text) (s.drop f.text.length) ts'
          (lexBehind policy line s f.text).trail := by
      intro ts' hm h'
      refine ih _ ?_ _ rfl _ _ h'
      rw [List.length_drop]
      exact Form.rest_lt hf hm
    cases f with
    | malformed keyword =>
      rw [lexFrom_malformed hf] at h
      cases h
    | define gap space name arguments body =>
      rw [lexFrom_define hf] at h ⊢
      obtain ⟨a, ha, h, ht⟩ := Scan.bind_eq_ok h
      rw [ht]
      obtain ⟨b, hb, h, ht⟩ := Scan.bind_eq_ok h
      rw [ht]
      obtain ⟨ts', hts, rfl⟩ := Scan.map_eq_ok h
      exact define line s gap space name arguments body a b ts' _ _ _ hf
        (part (Form.arguments_lt hf) ha) (part (Form.body_lt hf) hb) (behind (by simp) hts)
    | conditional gap test space name =>
      rw [lexFrom_conditional hf] at h ⊢
      obtain ⟨ts', hts, rfl⟩ := Scan.map_eq_ok h
      exact conditional line s gap test space name ts' _ hf (behind (by simp) hts)
    | definedTest name =>
      rw [lexFrom_definedTest hf] at h ⊢
      obtain ⟨ts', hts, rfl⟩ := Scan.map_eq_ok h
      exact definedTest line s name ts' _ hf (behind (by simp) hts)
    | directive gap body =>
      rw [lexFrom_directive hf] at h ⊢
      obtain ⟨b, hb, h, ht⟩ := Scan.bind_eq_ok h
      rw [ht]
      obtain ⟨ts', hts, rfl⟩ := Scan.map_eq_ok h
      exact directive line s gap body b ts' _ _ hf (part (Form.directiveBody_lt hf) hb)
        (behind (by simp) hts)
    | lexeme text kind =>
      rw [lexFrom_lexeme hf] at h ⊢
      by_cases hk : kind = .identifier
      · rw [if_pos hk] at h ⊢
        obtain ⟨ts', hts, rfl⟩ := Scan.map_eq_ok h
        have := lexeme line s text kind ts' _ hf (behind (by simp) hts)
        rwa [if_pos hk] at this
      · rw [if_neg hk] at h ⊢
        obtain ⟨ts', hts, rfl⟩ := Scan.map_eq_ok h
        have := lexeme line s text kind ts' _ hf (behind (by simp) hts)
        rwa [if_neg hk] at this
    | unknown c =>
      rw [lexFrom_unknown hf] at h ⊢
      by_cases hp : policy = .reject
      · rw [if_pos hp] at h
        cases h
      · rw [if_neg hp] at h ⊢
        obtain ⟨ts', hts, rfl⟩ := Scan.map_eq_ok h
        exact unknown line s c ts' _ hp hf (behind (by simp) hts)

end Induction

end ShaderPress
