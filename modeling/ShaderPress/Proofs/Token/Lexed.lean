import ShaderPress.Proofs.Token.Depth
import ShaderPress.Proofs.Token.Rules

/-! # From forms to tokens

Every token of a lexed source, at any depth, has been made of a form: its text is the text
of the form, and its parts cover those of the form.  So a property of tokens at every depth
is one of the forms that the rules find, and the tokens of a stream cover the text that it
was lexed from.
-/
namespace ShaderPress

namespace Token

/-- The source that a stream was lexed from. -/
def sourceOf (tokens : List Token) : List Char := tokens.flatMap text

theorem sourceOf_cons (t : Token) (ts : List Token) : sourceOf (t :: ts) = t.text ++ sourceOf ts :=
  List.flatMap_cons

/-- The source that a part of a directive was lexed from; there is none of an absent part. -/
def partSource : Option (List Token) → List Char
  | none => []
  | some tokens => sourceOf tokens

end Token

namespace Form
open Token

/-- The tokens that lexing makes of a form. -/
inductive Yields : Form → Token → Prop
  | define (gap space : List Char) (name : Ident) (line : Nat) (arguments body : Option (List Token)) :
    Yields (.define gap space name (partSource arguments) (partSource body))
      (.define (Form.define gap space name (partSource arguments) (partSource body)).text line name
        arguments body)
  | conditional (gap : List Char) (test : Conditional) (space : List Char) (name : Ident)
      (line : Nat) :
    Yields (.conditional gap test space name)
      (.conditional (Form.conditional gap test space name).text line test name)
  | definedTest (name : Ident) (line : Nat) :
    Yields (.definedTest name) (.definedTest (Form.definedTest name).text line name)
  | directive (gap : List Char) (line : Nat) (body : Option (List Token)) :
    Yields (.directive gap (partSource body))
      (.directive (Form.directive gap (partSource body)).text line body)
  | lexeme (text : List Char) (line : Nat) (kind : Lexeme) :
    Yields (.lexeme text kind) (.lexeme text line kind)
  | unknown (c : Char) (line : Nat) : Yields (.unknown c) (.lexeme [c] line .unknown)

theorem Yields.text_eq {f : Form} {t : Token} (h : f.Yields t) : t.text = f.text := by
  cases h <;> rfl

theorem Yields.ne_malformed {f : Form} {t : Token} (h : f.Yields t) (keyword : Keyword) :
    f ≠ malformed keyword := by
  cases h <;> exact nofun

end Form

namespace Token
variable {policy : UnknownPolicy} {line : Nat} {s : List Char} {tokens : List Token}

/-- A token made of a form that stands at the start of some text. -/
def IsLexed (t : Token) : Prop := ∃ s f, Form.first? s = some f ∧ f.Yields t

/-- The tokens of a lexed stream cover its text, and each of them, at any depth, has been lexed. -/
theorem covers_of_lexFrom (h : (lexFrom policy line s).outcome = .ok tokens) :
    sourceOf tokens = s ∧ ∀ t ∈ deep tokens, t.IsLexed := by
  have behind : ∀ {s ts} {t : Token} {f : Form}, Form.first? s = some f → f.Yields t →
      sourceOf ts = s.drop f.text.length → sourceOf (t :: ts) = s := by
    intro s ts t f hf ht hts
    rw [sourceOf_cons, ht.text_eq, hts]
    rcases Form.covers_of_first? hf with ⟨keyword, hm⟩ | ⟨hp, -⟩
    · exact absurd hm (ht.ne_malformed keyword)
    · exact List.prefix_iff_eq_append.mp hp
  have part : ∀ {line s o tr},
      PartHolds (fun _ s ts _ => sourceOf ts = s ∧ ∀ t ∈ deep ts, t.IsLexed) line s o tr →
      s = partSource o ∧ ∀ t ∈ deepNested o, t.IsLexed := by
    intro line s o tr hp
    rcases hp with ⟨rfl, rfl, -⟩ | ⟨-, ts, rfl, rfl, hts⟩
    · exact ⟨rfl, fun t ht => absurd ht List.not_mem_nil⟩
    · exact ⟨rfl, hts⟩
  refine lexFrom_induction
    (motive := fun _ s ts _ => sourceOf ts = s ∧ ∀ t ∈ deep ts, t.IsLexed)
    ?_ ?_ ?_ ?_ ?_ ?_ ?_ s line tokens h
  · intro line
    exact ⟨rfl, fun t ht => absurd ht List.not_mem_nil⟩
  · intro line s gap space name arguments body a b ts ta tb tr hf ha hb text hr
    obtain ⟨rfl, harguments⟩ := part ha
    obtain ⟨rfl, hbody⟩ := part hb
    have hy := Form.Yields.define gap space name line a b
    refine ⟨behind hf hy hr.1, ?_⟩
    simp only [deep, withParts, List.cons_append, List.forall_mem_cons, List.forall_mem_append]
    exact ⟨⟨s, _, hf, hy⟩, ⟨harguments, hbody⟩, hr.2⟩
  · intro line s gap test space name ts tr hf text hr
    have hy := Form.Yields.conditional gap test space name line
    refine ⟨behind hf hy hr.1, ?_⟩
    exact List.forall_mem_cons.mpr ⟨⟨s, _, hf, hy⟩, hr.2⟩
  · intro line s name ts tr hf text hr
    have hy := Form.Yields.definedTest name line
    refine ⟨behind hf hy hr.1, ?_⟩
    exact List.forall_mem_cons.mpr ⟨⟨s, _, hf, hy⟩, hr.2⟩
  · intro line s gap body b ts tb tr hf hb text hr
    obtain ⟨rfl, hbody⟩ := part hb
    have hy := Form.Yields.directive gap line b
    refine ⟨behind hf hy hr.1, ?_⟩
    simp only [deep, withParts, List.cons_append, List.forall_mem_cons, List.forall_mem_append]
    exact ⟨⟨s, _, hf, hy⟩, hbody, hr.2⟩
  · intro line s text kind ts tr hf hr
    have hy := Form.Yields.lexeme text line kind
    refine ⟨behind hf hy hr.1, ?_⟩
    exact List.forall_mem_cons.mpr ⟨⟨s, _, hf, hy⟩, hr.2⟩
  · intro line s c ts tr _ hf hr
    have hy := Form.Yields.unknown c line
    refine ⟨behind hf hy hr.1, ?_⟩
    exact List.forall_mem_cons.mpr ⟨⟨s, _, hf, hy⟩, hr.2⟩

/-- Lexing loses no character: the tokens cover the text they were lexed from. -/
theorem sourceOf_lexFrom (h : (lexFrom policy line s).outcome = .ok tokens) : sourceOf tokens = s :=
  (covers_of_lexFrom h).1

theorem isLexed_of_lexFrom (h : (lexFrom policy line s).outcome = .ok tokens) :
    ∀ t ∈ deep tokens, t.IsLexed :=
  (covers_of_lexFrom h).2

theorem IsLexed.text_ne_nil {t : Token} (h : t.IsLexed) : t.text ≠ [] := by
  obtain ⟨s, f, hf, ht⟩ := h
  rw [ht.text_eq]
  rcases Form.covers_of_first? hf with ⟨keyword, hm⟩ | ⟨-, hne⟩
  · exact absurd hm (ht.ne_malformed keyword)
  · exact hne

end Token

end ShaderPress
