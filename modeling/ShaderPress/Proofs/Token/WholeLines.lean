import Mathlib.Data.List.Chain
import ShaderPress.Proofs.Token.Lexed
import ShaderPress.Proofs.Token.Streams

/-! # Behind a preprocessor form

The definition of a macro and any directive but a conditional take the rest of their line, as far
as a comment.  So no preprocessor form stands directly behind one of them, in any stream inside a
lexed source.
-/
namespace ShaderPress

namespace Pattern

/-- A body ends before a line end, before a comment or with the text. -/
theorem head?_drop_directiveBody (s : List Char) :
    (s.drop (directiveBody s).length).head? ≠ some '#' := by
  fun_induction directiveBody s with
  | case1 => simp
  | case2 s ih => exact ih
  | case3 => simp
  | case4 => simp
  | case5 => simp
  | case6 c s _ _ _ _ ih => exact ih

end Pattern

namespace Form
variable {s gap space arguments body : List Char} {name : Ident}

theorem head?_drop_define (h : first? s = some (.define gap space name arguments body)) :
    (s.drop (Form.define gap space name arguments body).text.length).head? ≠ some '#' := by
  generalize hf : Form.define gap space name arguments body = f at h ⊢
  cases found_of_first? h with
  | define hr =>
    rcases named?_eq_some hr with rfl | ⟨before, between, x, rest, rfl, rfl⟩
    · cases hf
    · have hdrop : ('#' :: (before ++ Keyword.define.text ++ between ++ x ++ rest)).drop
          (defineForm before between x rest).text.length =
            (rest.drop (Pattern.arguments rest).length).drop
              (Pattern.directiveBody (rest.drop (Pattern.arguments rest).length)).length := by
        have hlength : (defineForm before between x rest).text.length =
            ('#' :: (before ++ Keyword.define.text ++ between ++ x)).length +
              ((Pattern.arguments rest).length +
                (Pattern.directiveBody (rest.drop (Pattern.arguments rest).length)).length) := by
          simp only [defineForm, text, List.length_cons, List.length_append]
          omega
        have hhead : '#' :: (before ++ Keyword.define.text ++ between ++ x ++ rest) =
            '#' :: (before ++ Keyword.define.text ++ between ++ x) ++ rest := rfl
        rw [hlength, ← List.drop_drop, hhead, List.drop_left, List.drop_drop]
      rw [hdrop]
      exact Pattern.head?_drop_directiveBody _
  | conditional test hr =>
    rcases named?_eq_some hr with rfl | ⟨_, _, _, _, _, rfl⟩ <;> cases hf
  | definedTest hr =>
    obtain ⟨_, _, rfl, _⟩ := definedTest?_eq_some hr
    cases hf
  | directive hr =>
    obtain ⟨_, _, rfl, _⟩ := directive?_eq_some hr
    cases hf
  | lexeme => cases hf
  | unknown => cases hf

/-- A form starts as the text does at whose start it stands. -/
theorem head?_text {f : Form} (h : first? s = some f) (hf : ∀ keyword, f ≠ malformed keyword) :
    f.text.head? = s.head? := by
  rcases covers_of_first? h with ⟨keyword, rfl⟩ | ⟨hstart, hne⟩
  · exact absurd rfl (hf keyword)
  · obtain ⟨rest, rfl⟩ := hstart
    exact (List.head?_append_of_ne_nil _ hne).symm

theorem head?_drop_directive (h : first? s = some (.directive gap body)) :
    (s.drop (Form.directive gap body).text.length).head? ≠ some '#' := by
  generalize hf : Form.directive gap body = f at h ⊢
  cases found_of_first? h with
  | define hr | conditional test hr =>
    rcases named?_eq_some hr with rfl | ⟨_, _, _, _, _, rfl⟩ <;> cases hf
  | definedTest hr =>
    obtain ⟨_, _, rfl, _⟩ := definedTest?_eq_some hr
    cases hf
  | directive hr =>
    unfold directive? at hr
    split at hr
    · next s =>
      cases hr
      have hdrop : ('#' :: s).drop (Form.directive (Pattern.gap s)
          (Pattern.directiveBody (s.drop (Pattern.gap s).length))).text.length =
            (s.drop (Pattern.gap s).length).drop
              (Pattern.directiveBody (s.drop (Pattern.gap s).length)).length := by
        rw [text, List.length_cons, List.drop_succ_cons, List.length_append, List.drop_drop]
      rw [hdrop]
      exact Pattern.head?_drop_directiveBody _
    · cases hr
  | lexeme => cases hf
  | unknown => cases hf

end Form

namespace Token
variable {policy : UnknownPolicy} {line : Nat} {s : List Char} {tokens : List Token}

/-- A preprocessor form that takes the rest of its line. -/
def takesLine : Token → Bool
  | define .. | directive .. => true
  | _ => false

theorem forall_inside_cons {p : List Token → Prop} {t : Token} {ts : List Token} :
    (∀ stream ∈ (deep (t :: ts)).flatMap parts, p stream) ↔
      (∀ stream ∈ t.withParts.flatMap parts, p stream) ∧
        ∀ stream ∈ (deep ts).flatMap parts, p stream := by
  rw [deep, List.flatMap_append, List.forall_mem_append]

theorem forall_streams {p : List Token → Prop} : (∀ stream ∈ streams tokens, p stream) ↔
    p tokens ∧ ∀ stream ∈ (deep tokens).flatMap parts, p stream := List.forall_mem_cons

/-- What holds of the streams inside a part holds of the part and of the streams inside it. -/
theorem forall_part {p : List Token → Prop} {part : Option (List Token)} :
    ((∀ stream ∈ part.toList, p stream) ∧ ∀ stream ∈ (deepNested part).flatMap parts, p stream) ↔
      ∀ s, part = some s → ∀ stream ∈ streams s, p stream := by
  cases part with
  | none => simp [deepNested]
  | some s => simp [deepNested, forall_streams]

theorem forall_inside_define {p : List Token → Prop} {text : List Char} {name : Ident}
    {arguments body : Option (List Token)} :
    (∀ stream ∈ (define text line name arguments body).withParts.flatMap parts, p stream) ↔
      (∀ s, arguments = some s → ∀ stream ∈ streams s, p stream) ∧
        ∀ s, body = some s → ∀ stream ∈ streams s, p stream := by
  rw [← forall_part, ← forall_part, withParts, List.flatMap_cons, List.flatMap_append, parts,
    List.forall_mem_append, List.forall_mem_append, List.forall_mem_append]
  exact and_and_and_comm

theorem forall_inside_directive {p : List Token → Prop} {text : List Char}
    {body : Option (List Token)} :
    (∀ stream ∈ (directive text line body).withParts.flatMap parts, p stream) ↔
      ∀ s, body = some s → ∀ stream ∈ streams s, p stream := by
  rw [← forall_part, withParts, List.flatMap_cons, parts, List.forall_mem_append]

/-- No preprocessor form stands directly behind one that takes its line. -/
def EndsLines (stream : List Token) : Prop :=
  stream.IsChain fun t u => t.takesLine = true → u.isDirective = false

/-- The streams of a text end their lines, and only a hash starts one with a preprocessor form. -/
structure EndsLinesOf (s : List Char) (tokens : List Token) : Prop where
  starts : ∀ u ∈ tokens.head?, u.isDirective = true → s.head? = some '#'
  inside : ∀ stream ∈ streams tokens, EndsLines stream

theorem EndsLinesOf.cons {f : Form} {t : Token} (hf : Form.first? s = some f)
    (hmalformed : ∀ keyword, f ≠ .malformed keyword)
    (hhash : t.isDirective = true → f.text.head? = some '#')
    (hline : t.takesLine = true → (s.drop f.text.length).head? ≠ some '#')
    (hparts : ∀ stream ∈ t.withParts.flatMap parts, EndsLines stream)
    (h : EndsLinesOf (s.drop f.text.length) tokens) : EndsLinesOf s (t :: tokens) := by
  obtain ⟨hstream, hinside⟩ := forall_streams.mp h.inside
  refine ⟨fun u hu hdirective => ?_, forall_streams.mpr ⟨?_, forall_inside_cons.mpr ⟨hparts, hinside⟩⟩⟩
  · obtain rfl := Option.some.inj hu
    rw [← Form.head?_text hf hmalformed]
    exact hhash hdirective
  · refine List.isChain_cons.mpr ⟨fun u hu htakes => Bool.eq_false_iff.mpr fun hdirective => ?_, hstream⟩
    exact hline htakes (h.starts u hu hdirective)

theorem endsLines_of_lexFrom (h : (lexFrom policy line s).outcome = .ok tokens) :
    ∀ stream ∈ streams tokens, EndsLines stream := by
  have part : ∀ {line s o tr}, PartHolds (fun _ s ts _ => EndsLinesOf s ts) line s o tr →
      ∀ ts, o = some ts → ∀ stream ∈ streams ts, EndsLines stream := by
    rintro line s o tr hp ts rfl
    rcases hp with ⟨-, ho, -⟩ | ⟨-, ts', ho, hts⟩
    · cases ho
    · cases ho
      exact hts.inside
  refine (lexFrom_induction (motive := fun _ s ts _ => EndsLinesOf s ts) ?_ ?_ ?_ ?_ ?_ ?_ ?_
    s line tokens h).inside
  · exact fun _ => ⟨nofun, List.forall_mem_singleton.mpr .nil⟩
  · intro line s gap space name arguments body a b ts ta tb tr hf ha hb text hr
    exact hr.cons hf nofun (fun _ => rfl) (fun _ => Form.head?_drop_define hf)
      (forall_inside_define.mpr ⟨part ha, part hb⟩)
  · intro line s gap test space name ts tr hf text hr
    exact hr.cons hf nofun (fun _ => rfl) nofun nofun
  · intro line s name ts tr hf text hr
    exact hr.cons hf nofun nofun nofun nofun
  · intro line s gap body b ts tb tr hf hb text hr
    exact hr.cons hf nofun (fun _ => rfl) (fun _ => Form.head?_drop_directive hf)
      (forall_inside_directive.mpr (part hb))
  · intro line s text kind ts tr hf hr
    exact hr.cons hf nofun nofun nofun nofun
  · intro line s c ts tr _ hf hr
    exact hr.cons hf nofun nofun nofun nofun

end Token

end ShaderPress
