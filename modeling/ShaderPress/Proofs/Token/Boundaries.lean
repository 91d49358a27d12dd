import ShaderPress.Proofs.Token.Reading
import ShaderPress.Proofs.Token.Depth
import ShaderPress.Proofs.Token.Rules

/-! # What ends a word

A word of a source ends before an operator, before a hash and before a character that no
rule accepts, and an argument list opens with a parenthesis.  So what is written behind a
word without a space does not go on with it.
-/
namespace ShaderPress

namespace Form
open Pattern

theorem findSome?_lexeme_unknown {kind : Lexeme} {pattern : List Char → List Char}
    {rules : List (List Char → Option Form)} {s : List Char} {c : Char}
    (h : (lexeme? kind pattern :: rules).findSome? (· s) = some (.unknown c)) :
    pattern s = [] ∧ rules.findSome? (· s) = some (.unknown c) := by
  cases hp : pattern s with
  | nil =>
    rw [List.findSome?_cons, lexeme?_eq_none hp] at h
    exact ⟨rfl, h⟩
  | cons d w =>
    rw [List.findSome?_cons, lexeme?_of_ne hp (List.cons_ne_nil d w)] at h
    cases h

/-- A character of a word is accepted by one of the rules for numbers and identifiers. -/
theorem isIdentPart_of_unknown {s : List Char} {c d : Char}
    (h : first? (c :: s) = some (.unknown d)) : isIdentPart c = false := by
  refine Bool.eq_false_iff.mpr fun hc => ?_
  have hhash : (c :: s).head? ≠ some '#' := by
    rintro hh
    obtain rfl := Option.some.inj hh
    exact absurd hc (by decide)
  rw [first?_of_head_ne hhash] at h
  cases hd : definedTest? (c :: s) with
  | some f =>
    rw [hd] at h
    cases h
    obtain ⟨_, _, he, _⟩ := definedTest?_cases hd
    cases he
  | none =>
    rw [hd, Option.none_or, plain?_of_isIdentPart hc] at h
    obtain ⟨-, h⟩ := findSome?_lexeme_unknown h
    obtain ⟨-, h⟩ := findSome?_lexeme_unknown h
    obtain ⟨hint, h⟩ := findSome?_lexeme_unknown h
    obtain ⟨hname, -⟩ := findSome?_lexeme_unknown h
    have hstart : isIdentStart c = true → False := by
      intro hs
      have hsigil := isSigil_of_isIdentStart hs
      simp only [identifier, hsigil, Bool.false_eq_true, if_false, word, hs, if_true] at hname
      cases hname
    have hdigit : c.isDigit = true → False := by
      intro hdig
      have hdigits : digits (c :: s) ≠ [] := by
        rw [digits, List.takeWhile_cons, hdig]
        exact List.cons_ne_nil _ _
      rw [intLiteral_of_ne hdigits, List.append_eq_nil_iff] at hint
      exact hdigits hint.1
    exact (isIdentPart_iff.mp hc).elim hstart hdigit

/-- What a form says on the ends of words. -/
def EndsWords : Form → Prop
  | define _ _ _ arguments _ => arguments = [] ∨ ∃ t, arguments = '(' :: (t ++ [')'])
  | lexeme text .operator | lexeme text .tokenPaste | lexeme text .unknown =>
    ∃ c w, text = c :: w ∧ isIdentPart c = false
  | unknown c => isIdentPart c = false
  | _ => True

theorem endsWords_lexeme {kind : Lexeme} {s : List Char} (h : kind.pattern s ≠ []) :
    EndsWords (lexeme (kind.pattern s) kind) := by
  cases kind with
  | tokenPaste => exact ⟨'#', ['#'], tokenPaste_of_ne h, by decide⟩
  | operator =>
    change operator s ≠ [] at h
    cases s with
    | nil => exact absurd rfl h
    | cons c s =>
      rw [operator] at h
      split at h
      · next hc => exact ⟨c, [], if_pos hc, isIdentPart_of_mem_operators hc⟩
      · exact absurd rfl h
  | unknown => exact absurd rfl h
  | _ => trivial

theorem endsWords_of_first? {s : List Char} {f : Form} (h : first? s = some f) : EndsWords f := by
  cases found_of_first? h with
  | define hr =>
    rcases named?_eq_some hr with rfl | ⟨_, _, _, rest, _, rfl⟩
    · trivial
    · exact (arguments_cases rest).imp_right fun ⟨t, _, ht⟩ => ⟨t, ht⟩
  | conditional test hr => rcases named?_eq_some hr with rfl | ⟨_, _, _, _, _, rfl⟩ <;> trivial
  | definedTest hr =>
    obtain ⟨_, _, rfl, _⟩ := definedTest?_cases hr
    trivial
  | directive hr =>
    obtain ⟨_, _, rfl, _⟩ := directive?_eq_some hr
    trivial
  | lexeme kind hne => exact endsWords_lexeme hne
  | unknown c rest hs => exact isIdentPart_of_unknown (hs ▸ h)

/-- An operator is found where it stands, a slash where it starts no comment. -/
theorem first?_operator {c : Char} {s : List Char} (hc : c ∈ operators)
    (hslash : c = '/' → s.head? ≠ some '/' ∧ s.head? ≠ some '*') :
    first? (c :: s) = some (lexeme [c] .operator) := by
  have hhash : (c :: s).head? ≠ some '#' := by
    intro hh
    obtain rfl := Option.some.inj hh
    exact absurd hc (by decide)
  have hdefined : definedTest? (c :: s) = none := by
    cases hd : definedTest? (c :: s) with
    | none => rfl
    | some f =>
      obtain ⟨_, _, -, -, -, he⟩ := definedTest?_cases hd
      obtain ⟨rfl, -⟩ := List.cons.inj he
      exact absurd hc (by decide)
  rw [first?_of_head_ne hhash, hdefined, Option.none_or, plain?_operator hc hslash]

theorem first?_open (s : List Char) : first? ('(' :: s) = some (lexeme ['('] .operator) :=
  first?_operator (by decide) fun h => absurd h (by decide)

end Form

namespace Token
open Pattern

/-- A token that ends a word before it, and a definition whose arguments do. -/
def EndsWords : Token → Prop
  | define _ _ _ arguments _ =>
    ∀ s, arguments = some s → ∃ line rest, s = lexeme ['('] line .operator :: rest
  | lexeme text _ .operator | lexeme text _ .tokenPaste | lexeme text _ .unknown =>
    ∃ c w, text = c :: w ∧ isIdentPart c = false
  | _ => True

theorem endsWords_of_lexFrom {policy : UnknownPolicy} {line : Nat} {s : List Char}
    {tokens : List Token} (h : (lexFrom policy line s).outcome = .ok tokens) :
    ∀ t ∈ deep tokens, t.EndsWords := by
  -- an argument list is lexed with its parenthesis first
  have part : ∀ {line s o tr},
      PartHolds (fun _ s ts _ => (∀ t ∈ deep ts, t.EndsWords) ∧
        ∀ u, s = '(' :: u → ∃ line rest, ts = lexeme ['('] line .operator :: rest) line s o tr →
      ∀ t ∈ deepNested o, t.EndsWords := by
    intro line s o tr hp
    rcases hp with ⟨-, rfl, -⟩ | ⟨-, ts, rfl, hts⟩
    · exact fun t ht => absurd ht List.not_mem_nil
    · exact hts.1
  have other : ∀ {s u : List Char} {f : Form}, Form.first? s = some f →
      f ≠ .lexeme ['('] .operator → s ≠ '(' :: u := by
    rintro s u f hf hne rfl
    rw [Form.first?_open] at hf
    exact hne (Option.some.inj hf).symm
  refine (lexFrom_induction (motive := fun _ s ts _ => (∀ t ∈ deep ts, t.EndsWords) ∧
    ∀ u, s = '(' :: u → ∃ line rest, ts = lexeme ['('] line .operator :: rest)
    ?_ ?_ ?_ ?_ ?_ ?_ ?_ s line tokens h).1
  · exact fun _ => ⟨fun t ht => absurd ht List.not_mem_nil,
      fun u hu => absurd hu.symm (List.cons_ne_nil _ _)⟩
  · intro line s gap space name arguments body a b ts ta tb tr hf ha hb text hr
    refine ⟨?_, fun u hu => absurd hu (other hf (by simp))⟩
    simp only [deep, withParts, List.cons_append, List.forall_mem_cons, List.forall_mem_append]
    refine ⟨?_, ⟨part ha, part hb⟩, hr.1⟩
    rintro s rfl
    rcases Form.endsWords_of_first? hf with rfl | ⟨t, rfl⟩
    · rcases ha with ⟨-, he, -⟩ | ⟨hne, -⟩
      · cases he
      · exact absurd rfl hne
    · rcases ha with ⟨he, -⟩ | ⟨-, ts, he, hts⟩
      · cases he
      · cases he
        exact hts.2 _ rfl
  · intro line s gap test space name ts tr hf text hr
    refine ⟨?_, fun u hu => absurd hu (other hf (by simp))⟩
    exact List.forall_mem_cons.mpr ⟨trivial, hr.1⟩
  · intro line s name ts tr hf text hr
    refine ⟨?_, fun u hu => absurd hu (other hf (by simp))⟩
    exact List.forall_mem_cons.mpr ⟨trivial, hr.1⟩
  · intro line s gap body b ts tb tr hf hb text hr
    refine ⟨?_, fun u hu => absurd hu (other hf (by simp))⟩
    simp only [deep, withParts, List.cons_append, List.forall_mem_cons, List.forall_mem_append]
    exact ⟨trivial, part hb, hr.1⟩
  · intro line s text kind ts tr hf hr
    refine ⟨List.forall_mem_cons.mpr ⟨?_, hr.1⟩, ?_⟩
    · have hends := Form.endsWords_of_first? hf
      cases kind with
      | operator | tokenPaste | unknown => exact hends
      | _ => trivial
    · rintro u rfl
      rw [Form.first?_open] at hf
      cases hf
      exact ⟨line, ts, rfl⟩
  · intro line s c ts tr _ hf hr
    refine ⟨List.forall_mem_cons.mpr ⟨?_, hr.1⟩, fun u hu => absurd hu (other hf (by simp))⟩
    exact ⟨c, [], rfl, Form.endsWords_of_first? hf⟩

theorem keptByStrip_endsWords (dead : Ident → Bool) : KeptByStrip dead EndsWords := by
  refine ⟨fun _ _ => trivial, fun text line name a b h => ?_, fun _ _ _ _ => trivial⟩
  intro s hs
  cases a with
  | none =>
    rw [stripNested] at hs
    cases hs
  | some s =>
    obtain ⟨line, rest, rfl⟩ := h s rfl
    rw [stripNested] at hs
    cases hs
    exact ⟨line, strip dead rest, by simp only [strip, blankedComment, attach]⟩

theorem endsWords_of_mem_strip {policy : UnknownPolicy} {line : Nat} {s : List Char}
    {tokens : List Token} (h : (lexFrom policy line s).outcome = .ok tokens) (dead : Ident → Bool) :
    ∀ t ∈ deep (strip dead tokens), t.EndsWords :=
  (keptByStrip_endsWords dead).forall_deep_strip fun t ht _ => endsWords_of_lexFrom h t ht

end Token

end ShaderPress
