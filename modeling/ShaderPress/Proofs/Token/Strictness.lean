import ShaderPress.Batch
import ShaderPress.Proofs.Token.Depth
import ShaderPress.Proofs.Token.Lexemes
import ShaderPress.Proofs.Token.Rules

/-! # Rejecting illegal characters

Lexing that rejects illegal characters and lexing that passes them go together up to the first
unknown token that the latter makes.  The unknown tokens are listed as they are made, arguments
before the body, also where a malformed directive ends the lexing later on.
-/
namespace ShaderPress

namespace Token

def isUnknown : Token → Bool
  | lexeme _ _ .unknown => true
  | _ => false

end Token

open Token

namespace Scan
variable {α β : Type}

/-- What is made in one stretch and, if that can be lexed, behind it. -/
def through (x : Scan α) (inside behind : List Token) : List Token :=
  inside ++ if x.outcome.isOk then behind else []

/-- A strict reading beside a lenient one that makes some unknown tokens: they are the same if it
makes none, and the strict one stops at the first. -/
inductive Strict (strict lenient : Scan α) : List Token → Prop
  | known (same : strict = lenient)
      (legal : ∀ c line, strict.outcome ≠ .error (.illegalCharacter c line)) :
      Strict strict lenient []
  | stops {c : Char} {line : Nat} (made : List Token)
      (h : strict.outcome = .error (.illegalCharacter c line)) :
      Strict strict lenient (.lexeme [c] line .unknown :: made)

theorem Strict.ok {x : Scan α} {a : α} (h : x.outcome = .ok a) : Strict x x [] :=
  .known rfl fun c line he => by rw [h] at he; cases he

theorem Strict.map {x x' : Scan α} {made : List Token} (h : Strict x x' made) (f : α → β) :
    Strict (f <$> x) (f <$> x') made := by
  cases h with
  | known same legal =>
    refine .known (by rw [same]) fun c line he => ?_
    rw [map_def] at he
    cases hx : x.outcome with
    | error e =>
      rw [hx] at he
      cases he
      exact legal c line hx
    | ok a =>
      rw [hx] at he
      cases he
  | stops made h => exact .stops made (by rw [map_def, h]; rfl)

theorem Strict.bind {x x' : Scan α} {f f' : α → Scan β} {inside behind : List Token}
    (h : Strict x x' inside) (hf : ∀ a, Strict (f a) (f' a) behind) :
    Strict (x >>= f) (x' >>= f') (through x' inside behind) := by
  cases h with
  | stops made h => exact .stops _ (by rw [bind_error h])
  | known same legal =>
    subst same
    cases hx : x.outcome with
    | error e =>
      rw [through, hx, bind_error hx, bind_error hx]
      refine .known rfl fun c line he => legal c line ?_
      rw [hx]
      exact congrArg Except.error (Except.error.inj he)
    | ok a =>
      have ha := hf a
      rw [through, hx, bind_ok hx, bind_ok hx]
      change Strict _ _ behind
      cases ha with
      | known same legal => exact .known (by rw [same]) legal
      | stops made h => exact .stops made h

theorem Strict.note {o : Occurrence} {x x' : Scan α} {made : List Token} (h : Strict x x' made) :
    Strict (do Scan.note o; x) (do Scan.note o; x') made :=
  (Strict.ok (x := Scan.note o) rfl).bind fun _ => h

end Scan

/-- The unknown tokens that lexing makes when it passes illegal characters, in the order in which
it makes them, up to the directive that is malformed if there is one. -/
def unknownsFrom (line : Nat) (s : List Char) : List Token :=
  match h : Form.first? s with
  | none | some (.malformed _) => []
  | some (.define gap space name arguments body) =>
    have := Form.arguments_lt h
    have := Form.body_lt h
    have := Form.rest_lt h (by simp)
    let text := (Form.define gap space name arguments body).text
    let bodyLine := line + Text.newlines arguments
    (lexPart .pass line arguments).through (unknownsFrom line arguments)
      ((lexPart .pass bodyLine body).through (unknownsFrom bodyLine body)
        (unknownsFrom (line + Text.newlines text) (s.drop text.length)))
  | some (.directive gap body) =>
    have := Form.directiveBody_lt h
    have := Form.rest_lt h (by simp)
    let text := (Form.directive gap body).text
    (lexPart .pass line body).through (unknownsFrom line body)
      (unknownsFrom (line + Text.newlines text) (s.drop text.length))
  | some (.conditional gap test space name) =>
    have := Form.rest_lt h (by simp)
    let text := (Form.conditional gap test space name).text
    unknownsFrom (line + Text.newlines text) (s.drop text.length)
  | some (.definedTest name) =>
    have := Form.rest_lt h (by simp)
    let text := (Form.definedTest name).text
    unknownsFrom (line + Text.newlines text) (s.drop text.length)
  | some (.lexeme text _) =>
    have := Form.rest_lt h (by simp)
    unknownsFrom (line + Text.newlines text) (s.drop text.length)
  | some (.unknown c) =>
    have := Form.rest_lt h (by simp)
    .lexeme [c] line .unknown :: unknownsFrom (line + Text.newlines [c]) (s.drop 1)
termination_by s.length
decreasing_by all_goals first | assumption | (rw [List.length_drop]; assumption)

def unknowns (source : List Char) : List Token := unknownsFrom 1 source

section
variable {line : Nat} {s : List Char}

/-- The unknown tokens made behind a form. -/
def unknownsBehind (line : Nat) (s text : List Char) : List Token :=
  unknownsFrom (line + Text.newlines text) (s.drop text.length)

theorem unknownsFrom_nil : unknownsFrom line [] = [] := by
  rw [unknownsFrom]
  rfl

theorem unknownsFrom_malformed {keyword : Keyword} (h : Form.first? s = some (.malformed keyword)) :
    unknownsFrom line s = [] := by
  rw [unknownsFrom]
  split <;> rename_i h' <;> rw [h] at h' <;> cases h'

theorem unknownsFrom_define {gap space arguments body : List Char} {name : Ident}
    (h : Form.first? s = some (.define gap space name arguments body)) :
    unknownsFrom line s = (lexPart .pass line arguments).through (unknownsFrom line arguments)
      ((lexPart .pass (line + Text.newlines arguments) body).through
        (unknownsFrom (line + Text.newlines arguments) body)
        (unknownsBehind line s (Form.define gap space name arguments body).text)) := by
  rw [unknownsFrom]
  split <;> rename_i h' <;> rw [h] at h' <;> cases h'
  rfl

theorem unknownsFrom_directive {gap body : List Char}
    (h : Form.first? s = some (.directive gap body)) :
    unknownsFrom line s = (lexPart .pass line body).through (unknownsFrom line body)
      (unknownsBehind line s (Form.directive gap body).text) := by
  rw [unknownsFrom]
  split <;> rename_i h' <;> rw [h] at h' <;> cases h'
  rfl

theorem unknownsFrom_conditional {gap space : List Char} {test : Conditional} {name : Ident}
    (h : Form.first? s = some (.conditional gap test space name)) :
    unknownsFrom line s =
      unknownsBehind line s (Form.conditional gap test space name).text := by
  rw [unknownsFrom]
  split <;> rename_i h' <;> rw [h] at h' <;> cases h'
  rfl

theorem unknownsFrom_definedTest {name : Ident} (h : Form.first? s = some (.definedTest name)) :
    unknownsFrom line s = unknownsBehind line s (Form.definedTest name).text := by
  rw [unknownsFrom]
  split <;> rename_i h' <;> rw [h] at h' <;> cases h'
  rfl

theorem unknownsFrom_lexeme {text : List Char} {kind : Lexeme}
    (h : Form.first? s = some (.lexeme text kind)) :
    unknownsFrom line s = unknownsBehind line s text := by
  rw [unknownsFrom]
  split <;> rename_i h' <;> rw [h] at h' <;> cases h'
  rfl

theorem unknownsFrom_unknown {c : Char} (h : Form.first? s = some (.unknown c)) :
    unknownsFrom line s = .lexeme [c] line .unknown :: unknownsBehind line s [c] := by
  rw [unknownsFrom]
  split <;> rename_i h' <;> rw [h] at h' <;> cases h'
  rfl

theorem strict_lexPart (h : Scan.Strict (lexFrom .reject line s) (lexFrom .pass line s)
      (unknownsFrom line s)) :
    Scan.Strict (lexPart .reject line s) (lexPart .pass line s) (unknownsFrom line s) := by
  by_cases hs : s = []
  · rw [lexPart, lexPart, if_pos hs, if_pos hs, hs, unknownsFrom_nil]
    exact .ok rfl
  · rw [lexPart, lexPart, if_neg hs, if_neg hs]
    exact h.map some

/-- Rejecting lexing goes as passing lexing does up to the first unknown token that this makes. -/
theorem strict_lexFrom (line : Nat) (s : List Char) :
    Scan.Strict (lexFrom .reject line s) (lexFrom .pass line s) (unknownsFrom line s) := by
  -- every stretch that is lexed inside or behind a form is shorter than the text
  induction hn : s.length using Nat.strongRecOn generalizing s line with
  | ind n ih =>
  subst hn
  have part : ∀ {line' s'}, s'.length < s.length →
      Scan.Strict (lexPart .reject line' s') (lexPart .pass line' s') (unknownsFrom line' s') :=
    fun hlt => strict_lexPart (ih _ hlt _ _ rfl)
  cases hf : Form.first? s with
  | none =>
    obtain rfl := Form.first?_eq_none_iff.mp hf
    rw [lexFrom_nil, lexFrom_nil, unknownsFrom_nil]
    exact .ok rfl
  | some f =>
    have behind : (∀ keyword, f ≠ .malformed keyword) →
        Scan.Strict (lexBehind .reject line s f.text) (lexBehind .pass line s f.text)
          (unknownsBehind line s f.text) := by
      intro hm
      refine ih _ ?_ _ _ rfl
      rw [List.length_drop]
      exact Form.rest_lt hf hm
    cases f with
    | malformed keyword =>
      rw [lexFrom_malformed hf, lexFrom_malformed hf, unknownsFrom_malformed hf]
      exact .known rfl nofun
    | define gap space name arguments body =>
      rw [lexFrom_define hf, lexFrom_define hf, unknownsFrom_define hf]
      refine (part (Form.arguments_lt hf)).bind fun a => ?_
      refine (part (Form.body_lt hf)).bind fun b => ?_
      exact ((behind (by simp)).map _).note
    | conditional gap test space name =>
      rw [lexFrom_conditional hf, lexFrom_conditional hf, unknownsFrom_conditional hf]
      exact ((behind (by simp)).map _).note
    | definedTest name =>
      rw [lexFrom_definedTest hf, lexFrom_definedTest hf, unknownsFrom_definedTest hf]
      exact ((behind (by simp)).map _).note
    | directive gap body =>
      rw [lexFrom_directive hf, lexFrom_directive hf, unknownsFrom_directive hf]
      exact (part (Form.directiveBody_lt hf)).bind fun b => (behind (by simp)).map _
    | lexeme text kind =>
      rw [lexFrom_lexeme hf, lexFrom_lexeme hf, unknownsFrom_lexeme hf]
      have hb := (behind (by simp)).map (Token.lexeme text line kind :: ·)
      split
      · exact hb.note
      · exact (Scan.Strict.ok (x := pure ()) rfl).bind fun _ => hb
    | unknown c =>
      rw [lexFrom_unknown hf, if_pos rfl, unknownsFrom_unknown hf]
      exact .stops _ rfl

/-- Where passing lexing succeeds, the unknown tokens it makes are those of its tokens, at every
depth. -/
theorem unknownsFrom_eq_filter {tokens : List Token}
    (h : (lexFrom .pass line s).outcome = .ok tokens) :
    unknownsFrom line s = (deep tokens).filter isUnknown := by
  induction hn : s.length using Nat.strongRecOn generalizing s line tokens with
  | ind n ih =>
  subst hn
  have part : ∀ {line' s' o}, s'.length < s.length → (lexPart .pass line' s').outcome = .ok o →
      unknownsFrom line' s' = (deepNested o).filter isUnknown := by
    intro line' s' o hlt ho
    by_cases hs : s' = []
    · rw [lexPart, if_pos hs] at ho
      cases ho
      rw [hs, unknownsFrom_nil]
      rfl
    · rw [lexPart, if_neg hs] at ho
      obtain ⟨ts, hts, rfl⟩ := Scan.map_eq_ok ho
      exact ih _ hlt hts rfl
  cases hf : Form.first? s with
  | none =>
    obtain rfl := Form.first?_eq_none_iff.mp hf
    rw [lexFrom_nil] at h
    cases h
    rw [unknownsFrom_nil]
    rfl
  | some f =>
    have behind : ∀ {ts}, (∀ keyword, f ≠ .malformed keyword) →
        (lexBehind .pass line s f.text).outcome = .ok ts →
        unknownsBehind line s f.text = (deep ts).filter isUnknown := by
      intro ts hm hts
      refine ih _ ?_ hts rfl
      rw [List.length_drop]
      exact Form.rest_lt hf hm
    cases f with
    | malformed keyword =>
      rw [lexFrom_malformed hf] at h
      cases h
    | define gap space name arguments body =>
      rw [lexFrom_define hf] at h
      obtain ⟨a, ha, h, -⟩ := Scan.bind_eq_ok h
      obtain ⟨b, hb, h, -⟩ := Scan.bind_eq_ok h
      obtain ⟨ts, hts, rfl⟩ := Scan.map_eq_ok h
      rw [unknownsFrom_define hf, Scan.through, Scan.through, ha, hb,
        part (Form.arguments_lt hf) ha, part (Form.body_lt hf) hb, behind (by simp) hts]
      simp only [deep, withParts, List.cons_append, List.append_assoc, List.filter_append,
        List.filter_cons_of_neg, isUnknown, Bool.false_eq_true, not_false_eq_true]
      rfl
    | directive gap body =>
      rw [lexFrom_directive hf] at h
      obtain ⟨b, hb, h, -⟩ := Scan.bind_eq_ok h
      obtain ⟨ts, hts, rfl⟩ := Scan.map_eq_ok h
      rw [unknownsFrom_directive hf, Scan.through, hb, part (Form.directiveBody_lt hf) hb,
        behind (by simp) hts]
      simp only [deep, withParts, List.cons_append, List.filter_append, List.filter_cons_of_neg,
        isUnknown, Bool.false_eq_true, not_false_eq_true]
      rfl
    | conditional gap test space name =>
      rw [lexFrom_conditional hf] at h
      obtain ⟨ts, hts, rfl⟩ := Scan.map_eq_ok h
      rw [unknownsFrom_conditional hf, behind (by simp) hts]
      rfl
    | definedTest name =>
      rw [lexFrom_definedTest hf] at h
      obtain ⟨ts, hts, rfl⟩ := Scan.map_eq_ok h
      rw [unknownsFrom_definedTest hf, behind (by simp) hts]
      rfl
    | lexeme text kind =>
      rw [outcome_lexFrom_lexeme hf] at h
      obtain ⟨ts, hts, rfl⟩ := Scan.map_eq_ok (f := (Token.lexeme text line kind :: ·)) h
      have hb : unknownsBehind line s text = _ := behind (by simp) hts
      have hk : kind ≠ .unknown := by
        rintro rfl
        exact (Form.pattern_of_first? hf).2 (Form.pattern_of_first? hf).1
      rw [unknownsFrom_lexeme hf, hb]
      cases kind <;> first | rfl | exact absurd rfl hk
    | unknown c =>
      rw [lexFrom_unknown hf, if_neg (by simp)] at h
      obtain ⟨ts, hts, rfl⟩ := Scan.map_eq_ok h
      have hb : unknownsBehind line s [c] = _ := behind (by simp) hts
      rw [unknownsFrom_unknown hf, hb]
      rfl

end

section
variable {c : Catalog} {policy : UnknownPolicy} {file source : List Char}

theorem read_eq_ok {s : Shader} : (Shader.read c policy file source).1 = .ok s ↔
    (lex policy source).outcome = .ok s.tokens ∧ s.name = file := by
  rw [Shader.read]
  cases (lex policy source).outcome with
  | error e => exact ⟨nofun, fun h => nomatch h.1⟩
  | ok tokens =>
    constructor
    · rintro ⟨⟩
      exact ⟨rfl, rfl⟩
    · obtain ⟨name, ts⟩ := s
      rintro ⟨⟨⟩, rfl⟩
      rfl

theorem read_eq_error {e : LexError} : (Shader.read c policy file source).1 = .error e ↔
    (lex policy source).outcome = .error e := by
  rw [Shader.read]
  cases (lex policy source).outcome with
  | error e' =>
    exact ⟨fun h => congrArg _ (Except.error.inj h), fun h => congrArg _ (Except.error.inj h)⟩
  | ok tokens => exact ⟨nofun, nofun⟩

end

/-- Rejecting illegal characters accepts the texts whose tokens are all known when illegal
characters are passed, with the same tokens and the same catalog.  It fails at a directive only
where passing them fails in the same way, and at a character exactly if that is the first unknown
token that passing them makes. -/
theorem read_reject (c : Catalog) (file source : List Char) :
    let strict := Shader.read c .reject file source
    let lenient := Shader.read c .pass file source
    (∀ s, strict.1 = .ok s ↔ lenient.1 = .ok s ∧ ∀ t ∈ deep s.tokens, t.isUnknown = false) ∧
    (∀ s, strict.1 = .ok s → strict.2 = lenient.2) ∧
    (∀ keyword text line, strict.1 = .error (.malformedDirective keyword text line) →
      lenient.1 = .error (.malformedDirective keyword text line)) ∧
    (∀ ch line, strict.1 = .error (.illegalCharacter ch line) ↔
      (unknowns source).head? = some (.lexeme [ch] line .unknown)) ∧
    ∀ s, lenient.1 = .ok s → unknowns source = (deep s.tokens).filter isUnknown := by
  intro strict lenient
  have hmade : ∀ s, lenient.1 = .ok s → unknowns source = (deep s.tokens).filter isUnknown :=
    fun s hs => unknownsFrom_eq_filter (read_eq_ok.mp hs).1
  have hstrict : Scan.Strict (lex .reject source) (lex .pass source) (unknowns source) :=
    strict_lexFrom 1 source
  generalize unknowns source = made at hmade hstrict ⊢
  cases hstrict with
  | known same legal =>
    have hread : strict = lenient := by
      simp only [strict, lenient, Shader.read, same]
    rw [hread]
    refine ⟨fun s => ⟨fun hs => ⟨hs, fun t ht => ?_⟩, And.left⟩, fun _ _ => rfl, fun _ _ _ he => he,
      fun ch line => ⟨fun he => ?_, nofun⟩, hmade⟩
    · exact Bool.eq_false_iff.mpr (List.filter_eq_nil_iff.mp (hmade s hs).symm t ht)
    · rw [← hread] at he
      exact absurd (read_eq_error.mp he) (legal ch line)
  | @stops c line made hstop =>
    have hread : strict.1 = .error (.illegalCharacter c line) := read_eq_error.mpr hstop
    rw [hread]
    refine ⟨fun s => ⟨nofun, fun hs => ?_⟩, nofun, nofun, fun ch l => ?_, hmade⟩
    · have hnone := List.filter_eq_nil_iff.mpr fun t ht => Bool.eq_false_iff.mp (hs.2 t ht)
      rw [← hmade s hs.1] at hnone
      cases hnone
    · constructor
      · rintro ⟨⟩
        rfl
      · rintro ⟨⟩
        rfl

end ShaderPress
