import Mathlib
import ShaderPress.Proofs.Ident.Words
import ShaderPress.Proofs.Token.Longest
import ShaderPress.Proofs.Token.Reading
import ShaderPress.Proofs.Token.Stretches
import ShaderPress.Proofs.Token.WholeLines

/-! # The table of rules

A rule matches a text that starts with a word of its language.  At every position of every stream
the first rule that matches names the token, and a lexeme takes the longest word of its rule's
language; a block comment takes the shortest one.
-/
namespace ShaderPress

namespace Grammar
open Computability Pattern

/-- A directive as far as a name behind its keyword. -/
def named (keyword : Language Char) : Language Char :=
  {['#']} * ((letter isGap)∗ * (keyword * (repeated (letter isGap) * name)))

theorem mem_named {keyword v : List Char} : v ∈ named {keyword} ↔ ∃ before space x,
    (∀ c ∈ before, isGap c = true) ∧ (space ≠ [] ∧ ∀ c ∈ space, isGap c = true) ∧ x ∈ name ∧
      '#' :: (before ++ (keyword ++ (space ++ x))) = v := by
  constructor
  · rintro ⟨_, rfl, _, ⟨before, hbefore, _, ⟨_, rfl, _, ⟨space, hspace, x, hx, rfl⟩, rfl⟩, rfl⟩,
      rfl⟩
    exact ⟨before, space, x, mem_kstar_letter.mp hbefore, mem_repeated_letter.mp hspace, hx, rfl⟩
  · rintro ⟨before, space, x, hbefore, hspace, hx, rfl⟩
    exact ⟨['#'], rfl, _, ⟨before, mem_kstar_letter.mpr hbefore, _, ⟨keyword, rfl, _,
      ⟨space, mem_repeated_letter.mpr hspace, x, hx, rfl⟩, rfl⟩, rfl⟩, rfl⟩

def arguments : Language Char := {['(']} * ((letter (· != ')'))∗ * {[')']})

def definedTest : Language Char := {Form.definedOpen} * (name * {[')']})

end Grammar

namespace Form

def isMalformed : Form → Bool
  | malformed _ => true
  | _ => false

theorem Yields.isMalformed_eq {f : Form} {t : Token} (h : f.Yields t) : f.isMalformed = false := by
  cases h <;> rfl

end Form

/-- The rules by which tokens are told apart; those for lexemes differ in their languages alone. -/
inductive Rule where
  | define
  | conditional
  | definedTest
  | directive
  | lexeme (kind : Lexeme)
deriving DecidableEq

namespace Rule
open Form Pattern

/-- The rules in the order in which they are tried. -/
def table : List Rule :=
  [define, conditional, definedTest, lexeme .tokenPaste, directive, lexeme .lineComment,
   lexeme .blockComment, lexeme .whitespace, lexeme .operator, lexeme .floatLiteral,
   lexeme .hexLiteral, lexeme .intLiteral, lexeme .identifier]

def language : Rule → Language Char
  | define => Grammar.named {Keyword.define.text} * Grammar.optional Grammar.arguments
  | conditional => Grammar.named ({Conditional.ifdef.keyword} + {Conditional.ifndef.keyword})
  | definedTest => Grammar.definedTest
  | directive => {['#']}
  | lexeme kind => kind.language

def Matches (r : Rule) (s : List Char) : Prop := ∃ v ∈ r.language, v <+: s

/-- What the lexer tries for a rule. -/
def tries : Rule → List (List Char → Option Form)
  | define => [define?]
  | conditional => [conditional? .ifdef, conditional? .ifndef]
  | definedTest => [definedTest?]
  | directive => [directive?]
  | lexeme kind => [lexeme? kind kind.pattern]

def find? (r : Rule) (s : List Char) : Option Form := r.tries.findSome? (· s)

theorem rules_eq : rules = table.flatMap tries ++ [unknown?] := rfl

variable {s : List Char} {f : Form}

theorem first?_eq (s : List Char) : first? s = (table.findSome? (·.find? s)).or (unknown? s) := by
  have hflat : ∀ rs : List Rule,
      (rs.flatMap tries).findSome? (· s) = rs.findSome? (·.find? s) := by
    intro rs
    induction rs with
    | nil => rfl
    | cons r rs ih =>
      rw [List.flatMap_cons, List.findSome?_append, ih, List.findSome?_cons, find?]
      cases r.tries.findSome? (· s) <;> rfl
  rw [first?, rules_eq, List.findSome?_append, hflat, List.findSome?_singleton]

/-- No gap goes on with a name. -/
theorem gap_name_append {name : List Char} (h : name ∈ Grammar.name) (rest : List Char) :
    gap (name ++ rest) = [] := by
  have start : ∀ {c : Char}, isIdentStart c = true → isGap c = false := by
    intro c hc
    refine Bool.eq_false_iff.mpr fun hgap => ?_
    rcases Bool.or_eq_true_iff.mp hgap with hgap | hgap <;>
      exact absurd hc (by rw [beq_iff_eq.mp hgap]; decide)
  have sigil : ∀ {c : Char}, Grammar.isSigil c = true → isGap c = false := by
    intro c hc
    rcases Bool.or_eq_true_iff.mp hc with hc | hc <;> rw [beq_iff_eq.mp hc] <;> decide
  obtain ⟨_, hsigil, w, hw, rfl⟩ := Grammar.mem_name.mp h
  rcases hsigil with rfl | ⟨c, hc, rfl⟩
  · cases w with
    | nil => exact hw.elim
    | cons c w => exact List.takeWhile_cons_of_neg (Bool.eq_false_iff.mp (start hw.1))
  · exact List.takeWhile_cons_of_neg (Bool.eq_false_iff.mp (sigil hc))

theorem gap_keyword_append (keyword : Keyword) (rest : List Char) :
    gap (keyword.text ++ rest) = [] := by
  cases keyword with
  | define => rfl
  | conditional test => cases test <;> rfl

theorem gap_append {before rest : List Char} (h : ∀ c ∈ before, isGap c = true)
    (hrest : gap rest = []) : gap (before ++ rest) = before := takeWhile_append_of_all h hrest

theorem forall_mem_gap (s : List Char) : ∀ c ∈ gap s, isGap c = true :=
  List.all_eq_true.mp List.all_takeWhile

theorem afterWord?_append (w rest : List Char) : afterWord? w (w ++ rest) = some rest := by
  have hw : w.isPrefixOf (w ++ rest) = true :=
    List.isPrefixOf_iff_prefix.mpr (List.prefix_append w rest)
  rw [afterWord?, if_pos hw, List.drop_left]

section
variable {keyword : Keyword} {form : List Char → List Char → Ident → List Char → Form}

theorem afterKeyword?_append {before : List Char} (h : ∀ c ∈ before, isGap c = true)
    (rest : List Char) :
    afterKeyword? keyword.text ('#' :: (before ++ (keyword.text ++ rest))) =
      some (before, rest) := by
  rw [afterKeyword?, gap_append h (gap_keyword_append keyword rest), List.drop_left,
    afterWord?_append]
  rfl

theorem forall_mem_of_afterKeyword? {w before t : List Char}
    (h : afterKeyword? w s = some (before, t)) : ∀ c ∈ before, isGap c = true := by
  unfold afterKeyword? at h
  split at h
  · next s =>
    obtain ⟨u, -, he⟩ := Option.map_eq_some_iff.mp h
    cases he
    exact forall_mem_gap s
  · cases h

theorem named_of_named? (h : named? keyword form s = some f) (hf : f ≠ malformed keyword) :
    ∃ v ∈ Grammar.named {keyword.text}, v <+: s := by
  unfold named? at h
  split at h
  · cases h
  · next before t ht =>
    simp only at h
    split at h
    · split at h
      · cases h
        exact absurd rfl hf
      · cases h
    · next hne =>
      simp only [Bool.or_eq_true, List.isEmpty_iff, not_or] at hne
      refine ⟨_, Grammar.mem_named.mpr ⟨before, gap t, identifier (t.drop (gap t).length),
        forall_mem_of_afterKeyword? ht, ⟨hne.1, forall_mem_gap t⟩, munches_identifier.mem _ hne.2,
        rfl⟩, ?_⟩
      rw [afterKeyword?_eq_some ht, List.append_assoc, List.prefix_cons_inj,
        List.prefix_append_right_inj, List.prefix_append_right_inj]
      exact prefix_append_drop (gap_isPrefix t) (identifier_isPrefix _)

theorem named?_of_named {v : List Char} (hv : v ∈ Grammar.named {keyword.text}) (h : v <+: s) :
    ∃ before space name rest, named? keyword form s = some (form before space name rest) := by
  obtain ⟨before, space, name, hbefore, ⟨hne, hspace⟩, hname, rfl⟩ := Grammar.mem_named.mp hv
  obtain ⟨rest, rfl⟩ := h
  have hidentifier : identifier (name ++ rest) ≠ [] :=
    (munches_identifier.longest name hname (List.prefix_append name rest)).ne_nil
      fun hnil => munches_identifier.nonempty (hnil ▸ hname)
  have hgap : gap (space ++ (name ++ rest)) = space :=
    gap_append hspace (gap_name_append hname rest)
  refine ⟨before, space, identifier (name ++ rest),
    (name ++ rest).drop (identifier (name ++ rest)).length, ?_⟩
  rw [List.cons_append, List.append_assoc, List.append_assoc, List.append_assoc, named?,
    afterKeyword?_append hbefore]
  simp only [hgap, List.drop_left, Bool.or_eq_true, List.isEmpty_iff, hne, hidentifier, or_self,
    if_false]

end

theorem identifier_name_append {name rest : List Char} (h : name ∈ Grammar.name)
    (hrest : EndsWord rest) : identifier (name ++ rest) = name := by
  obtain ⟨_, hsigil, w, hw, rfl⟩ := Grammar.mem_name.mp h
  rcases hsigil with rfl | ⟨c, hc, rfl⟩
  · exact identifier_append hw hrest
  · have hword : word (w ++ rest) = w := word_append hw hrest
    change identifier (c :: (w ++ rest)) = c :: w
    rw [identifier_cons_of_isSigil hc (by rw [hword]; exact hw.ne_nil), hword]

theorem definedTest_of_definedTest? (h : definedTest? s = some f) :
    ∃ v ∈ Grammar.definedTest, v <+: s := by
  obtain ⟨name, rest, -, hne, hname, rfl⟩ := definedTest?_cases h
  have hmem := munches_identifier.mem (name ++ ')' :: rest) (by rwa [hname])
  rw [hname] at hmem
  refine ⟨definedOpen ++ (name ++ [')']), ⟨_, rfl, _, ⟨name, hmem, _, rfl, rfl⟩, rfl⟩, rest, ?_⟩
  simp only [List.append_assoc, List.singleton_append]

theorem definedTest?_of_definedTest {v : List Char} (hv : v ∈ Grammar.definedTest) (h : v <+: s) :
    ∃ name, definedTest? s = some (.definedTest name) := by
  obtain ⟨_, rfl, _, ⟨name, hname, _, rfl, rfl⟩, rfl⟩ := hv
  obtain ⟨rest, rfl⟩ := h
  have hidentifier : identifier (name ++ ')' :: rest) = name :=
    identifier_name_append hname (endsWord_cons (by decide))
  have hne : name.isEmpty = false := by
    rw [List.isEmpty_eq_false_iff]
    exact fun hnil => munches_identifier.nonempty (hnil ▸ hname)
  refine ⟨name, ?_⟩
  change definedTest? (definedOpen ++ (name ++ [')']) ++ rest) = _
  rw [List.append_assoc, List.append_assoc, List.singleton_append, definedTest?, afterWord?_append]
  simp only [hidentifier, hne, List.drop_left]

/-- A rule finds something in a text, and this is not malformed. -/
def Finds (rule : List Char → Option Form) (s : List Char) : Prop :=
  ∃ f ∈ rule s, f.isMalformed = false

theorem finds_named?_iff {keyword : Keyword}
    {form : List Char → List Char → Ident → List Char → Form}
    (hform : ∀ before space name rest, (form before space name rest).isMalformed = false) :
    Finds (named? keyword form) s ↔ ∃ v ∈ Grammar.named {keyword.text}, v <+: s := by
  constructor
  · rintro ⟨f, h, hf⟩
    refine named_of_named? h ?_
    rintro rfl
    cases hf
  · rintro ⟨v, hv, h⟩
    obtain ⟨before, space, name, rest, h⟩ := named?_of_named hv h
    exact ⟨_, h, hform before space name rest⟩

theorem finds_define?_iff : Finds define? s ↔ Rule.define.Matches s := by
  refine (finds_named?_iff fun _ _ _ _ => rfl).trans ⟨?_, ?_⟩
  · rintro ⟨v, hv, h⟩
    exact ⟨v, ⟨v, hv, [], Or.inl rfl, List.append_nil v⟩, h⟩
  · rintro ⟨_, ⟨v, hv, a, -, rfl⟩, h⟩
    exact ⟨v, hv, (List.prefix_append v a).trans h⟩

theorem finds_conditional?_iff {test : Conditional} : Finds (conditional? test) s ↔
    ∃ v ∈ Grammar.named {test.keyword}, v <+: s :=
  finds_named?_iff fun _ _ _ _ => rfl

theorem finds_definedTest?_iff : Finds definedTest? s ↔ Rule.definedTest.Matches s := by
  constructor
  · rintro ⟨f, h, -⟩
    exact definedTest_of_definedTest? h
  · rintro ⟨v, hv, h⟩
    obtain ⟨name, h⟩ := definedTest?_of_definedTest hv h
    exact ⟨_, h, rfl⟩

theorem finds_directive?_iff : Finds directive? s ↔ Rule.directive.Matches s := by
  constructor
  · rintro ⟨f, h, -⟩
    unfold directive? at h
    split at h
    · next s => exact ⟨['#'], rfl, s, rfl⟩
    · cases h
  · rintro ⟨_, rfl, rest, rfl⟩
    exact ⟨_, rfl, rfl⟩

theorem finds_lexeme?_iff {kind : Lexeme} :
    Finds (lexeme? kind kind.pattern) s ↔ (Rule.lexeme kind).Matches s := by
  refine Iff.trans ⟨?_, ?_⟩ Lexeme.pattern_ne_nil_iff
  · rintro ⟨f, h, -⟩
    exact (lexeme?_eq_some h).2
  · intro h
    exact ⟨_, lexeme?_of_ne rfl h, rfl⟩

/-- A rule matches where the lexer finds something for it that is not malformed. -/
theorem matches_iff {r : Rule} : r.Matches s ↔ ∃ rule ∈ r.tries, Finds rule s := by
  have single : ∀ {rule}, Finds rule s ↔ ∃ g ∈ [rule], Finds g s := by simp
  cases r with
  | define => exact finds_define?_iff.symm.trans single
  | conditional =>
    have hlanguage : conditional.language = Grammar.named {Conditional.ifdef.keyword} +
        Grammar.named {Conditional.ifndef.keyword} := by
      simp only [language, Grammar.named, add_mul, mul_add]
    simp only [Matches, hlanguage, Language.mem_add, or_and_right, exists_or, tries,
      List.exists_mem_cons_iff, finds_conditional?_iff, List.not_mem_nil, false_and, exists_false,
      or_false]
  | definedTest => exact finds_definedTest?_iff.symm.trans single
  | directive => exact finds_directive?_iff.symm.trans single
  | lexeme kind => exact finds_lexeme?_iff.symm.trans single

instance (rule : List Char → Option Form) (s : List Char) : Decidable (Finds rule s) :=
  inferInstanceAs (Decidable (∃ f ∈ rule s, f.isMalformed = false))

instance (r : Rule) (s : List Char) : Decidable (r.Matches s) :=
  decidable_of_iff (∃ rule ∈ r.tries, Finds rule s) matches_iff.symm

/-- Nothing is found for a rule that does not match. -/
theorem not_matches_of_find? {r : Rule} (h : r.find? s = none) : ¬ r.Matches s := by
  rw [matches_iff]
  rintro ⟨rule, hrule, f, hf, -⟩
  have hnone : rule s = none := List.findSome?_eq_none_iff.mp h rule hrule
  cases hnone.symm.trans hf

theorem matches_of_find? {r : Rule} (h : r.find? s = some f) (hf : f.isMalformed = false) :
    r.Matches s := by
  obtain ⟨rule, hrule, hs⟩ := List.exists_of_findSome?_eq_some h
  exact matches_iff.mpr ⟨rule, hrule, f, hs, hf⟩

end Rule

/-- The rule that a token is made by.  There is none for a character that no rule accepts. -/
def Token.rule? : Token → Option Rule
  | define .. => some .define
  | conditional .. => some .conditional
  | definedTest .. => some .definedTest
  | directive .. => some .directive
  | lexeme _ _ .unknown => none
  | lexeme _ _ kind => some (.lexeme kind)

namespace Form
open Pattern
variable {s : List Char} {f : Form} {t : Token}

def rule? : Form → Option Rule
  | define .. => some .define
  | conditional .. => some .conditional
  | definedTest _ => some .definedTest
  | directive .. => some .directive
  | lexeme _ .unknown | unknown _ | malformed _ => none
  | lexeme _ kind => some (.lexeme kind)

theorem Yields.rule?_eq (h : f.Yields t) : t.rule? = f.rule? := by
  cases h with
  | lexeme text line kind => cases kind <;> rfl
  | _ => rfl

theorem rule?_of_find? {r : Rule} (h : r.find? s = some f) (hm : f.isMalformed = false) :
    f.rule? = some r := by
  obtain ⟨rule, hrule, h⟩ := List.exists_of_findSome?_eq_some h
  have named : ∀ {keyword form}, named? keyword form s = some f →
      (∀ before space name rest, (form before space name rest).rule? = some r) →
      f.rule? = some r := by
    intro keyword form h hform
    rcases named?_eq_some h with rfl | ⟨_, _, _, _, _, rfl⟩
    · cases hm
    · exact hform _ _ _ _
  cases r with
  | define =>
    obtain rfl := List.mem_singleton.mp hrule
    exact named h fun _ _ _ _ => rfl
  | conditional =>
    rcases List.mem_pair.mp hrule with rfl | rfl <;> exact named h fun _ _ _ _ => rfl
  | definedTest =>
    obtain rfl := List.mem_singleton.mp hrule
    obtain ⟨_, _, rfl, _⟩ := definedTest?_eq_some h
    rfl
  | directive =>
    obtain rfl := List.mem_singleton.mp hrule
    obtain ⟨_, _, rfl, _⟩ := directive?_eq_some h
    rfl
  | lexeme kind =>
    obtain rfl := List.mem_singleton.mp hrule
    obtain ⟨rfl, hne⟩ := lexeme?_eq_some h
    cases kind <;> first | rfl | exact absurd rfl hne

/-- The first rule of the table that matches a text is the one that its first token is made by. -/
theorem find?_matches (h : first? s = some f) (ht : f.Yields t) :
    Rule.table.find? (·.Matches s) = t.rule? := by
  rw [Rule.first?_eq] at h
  rcases Option.or_eq_some_iff.mp h with h | ⟨hnone, h⟩
  · obtain ⟨earlier, r, later, htable, hr, hearlier⟩ := List.findSome?_eq_some_iff.mp h
    rw [ht.rule?_eq, rule?_of_find? hr ht.isMalformed_eq]
    refine List.find?_eq_some_iff_append.mpr ⟨?_, earlier, later, htable, fun q hq => ?_⟩
    · exact decide_eq_true (Rule.matches_of_find? hr ht.isMalformed_eq)
    · rw [decide_eq_false (Rule.not_matches_of_find? (hearlier q hq)), Bool.not_false]
  · have hrule : t.rule? = none := by
      cases s with
      | nil => cases h
      | cons c s =>
        cases h
        cases ht
        rfl
    rw [hrule, List.find?_eq_none]
    intro r hr
    rw [decide_eq_true_eq]
    exact Rule.not_matches_of_find? (List.findSome?_eq_none_iff.mp hnone r hr)

/-- A lexeme takes the longest word of the language of its kind, and a comment the shortest. -/
theorem takes_of_yields {text : List Char} {line : Nat} {kind : Lexeme} (h : first? s = some f)
    (ht : f.Yields (.lexeme text line kind)) (hk : kind ≠ .unknown) : kind.Takes s text := by
  cases ht with
  | lexeme =>
    obtain ⟨rfl, hne⟩ := pattern_of_first? h
    exact Lexeme.takes_pattern hne
  | unknown => exact absurd rfl hk

end Form

namespace Lexeme
open Pattern

/-- The longest name of a text goes on as far as its characters can. -/
theorem endsWord_of_takes {w rest : List Char} (h : identifier.Takes (w ++ rest) w) :
    EndsWord rest := by
  obtain ⟨⟨hw, -⟩, hlongest⟩ := h
  intro c hc
  refine Bool.eq_false_iff.mpr fun hpart => ?_
  obtain ⟨sigil, hsigil, v, hv, rfl⟩ := Grammar.mem_name.mp hw
  obtain ⟨rest, rfl⟩ : ∃ t, rest = c :: t := List.head?_eq_some_iff.mp hc
  have hlonger : sigil ++ (v ++ [c]) ∈ Grammar.name := by
    refine Grammar.mem_name.mpr ⟨sigil, hsigil, v ++ [c], Ident.isWord_append hv ?_, rfl⟩
    exact List.forall_mem_singleton.mpr hpart
  have hle := hlongest _ hlonger ⟨rest, by simp⟩
  simp only [List.length_append, List.length_singleton] at hle
  omega

end Lexeme

namespace Token
variable {policy : UnknownPolicy} {line : Nat} {s : List Char} {tokens : List Token}

/-- Every token of the stream is made of the form that the rest of the stream starts with. -/
def IsCut (stream : List Token) : Prop :=
  ∀ t ts, t :: ts <:+ stream → ∃ f, Form.first? (sourceOf (t :: ts)) = some f ∧ f.Yields t

theorem IsCut.cons {f : Form} {t : Token} {ts : List Token} (h : IsCut ts)
    (hf : Form.first? (sourceOf (t :: ts)) = some f) (ht : f.Yields t) : IsCut (t :: ts) := by
  intro u us hu
  rcases List.suffix_cons_iff.mp hu with he | hu
  · cases he
    exact ⟨f, hf, ht⟩
  · exact h u us hu

/-- A lexed stream covers its text, and it and the streams inside it are cut by the rules. -/
theorem isCut_of_lexFrom (h : (lexFrom policy line s).outcome = .ok tokens) :
    ∀ stream ∈ streams tokens, IsCut stream := by
  have part : ∀ {line s o tr},
      PartHolds (fun _ s ts _ => sourceOf ts = s ∧ ∀ stream ∈ streams ts, IsCut stream)
        line s o tr →
      s = partSource o ∧ ∀ ts, o = some ts → ∀ stream ∈ streams ts, IsCut stream := by
    intro line s o tr hp
    rcases hp with ⟨rfl, rfl, -⟩ | ⟨-, ts, rfl, rfl, hts⟩
    · exact ⟨rfl, nofun⟩
    · exact ⟨rfl, by rintro _ ⟨⟩; exact hts⟩
  have cons : ∀ {s ts} {t : Token} {f : Form}, Form.first? s = some f → f.Yields t →
      (∀ stream ∈ t.withParts.flatMap parts, IsCut stream) →
      (sourceOf ts = s.drop f.text.length ∧ ∀ stream ∈ streams ts, IsCut stream) →
      sourceOf (t :: ts) = s ∧ ∀ stream ∈ streams (t :: ts), IsCut stream := by
    intro s ts t f hf ht hparts hts
    obtain ⟨hstream, hinside⟩ := forall_streams.mp hts.2
    have hsource : sourceOf (t :: ts) = s := by
      rw [sourceOf_cons, ht.text_eq, hts.1, Form.text_append_drop hf]
    have hcut : IsCut (t :: ts) := hstream.cons (by rwa [hsource]) ht
    exact ⟨hsource, forall_streams.mpr ⟨hcut, forall_inside_cons.mpr ⟨hparts, hinside⟩⟩⟩
  refine (lexFrom_induction
    (motive := fun _ s ts _ => sourceOf ts = s ∧ ∀ stream ∈ streams ts, IsCut stream)
    ?_ ?_ ?_ ?_ ?_ ?_ ?_ s line tokens h).2
  · have hnil : IsCut [] := fun t ts h => absurd (List.suffix_nil.mp h) nofun
    exact fun _ => ⟨rfl, List.forall_mem_singleton.mpr hnil⟩
  · intro line s gap space name arguments body a b ts ta tb tr hf ha hb text hr
    obtain ⟨rfl, harguments⟩ := part ha
    obtain ⟨rfl, hbody⟩ := part hb
    exact cons hf (.define gap space name line a b)
      (forall_inside_define.mpr ⟨harguments, hbody⟩) hr
  · intro line s gap test space name ts tr hf text hr
    exact cons hf (.conditional gap test space name line) nofun hr
  · intro line s name ts tr hf text hr
    exact cons hf (.definedTest name line) nofun hr
  · intro line s gap body b ts tb tr hf hb text hr
    obtain ⟨rfl, hbody⟩ := part hb
    exact cons hf (.directive gap line b) (forall_inside_directive.mpr hbody) hr
  · intro line s text kind ts tr hf hr
    exact cons hf (.lexeme text line kind) nofun hr
  · intro line s c ts tr _ hf hr
    exact cons hf (.unknown c line) nofun hr

end Token

/-- At every position of every stream the first rule that matches the rest of the stream names the
token, and a lexeme takes the longest word of its language; a block comment ends with the first end
mark, and nothing behind an identifier goes on with it. -/
theorem lex_maximalMunch {policy : UnknownPolicy} {source : List Char} {tokens : List Token}
    (h : (lex policy source).outcome = .ok tokens) : Token.sourceOf tokens = source ∧
    ∀ stream ∈ Token.streams tokens, ∀ t ts, t :: ts <:+ stream →
      Rule.table.find? (·.Matches (Token.sourceOf (t :: ts))) = t.rule? ∧
      ∀ text line kind, t = .lexeme text line kind →
        (kind ≠ .unknown → kind.Takes (Token.sourceOf (t :: ts)) text) ∧
        (kind = .identifier → Pattern.EndsWord (Token.sourceOf ts)) := by
  refine ⟨Token.sourceOf_lexFrom h, fun stream hstream t ts hsuffix => ?_⟩
  obtain ⟨f, hf, ht⟩ := Token.isCut_of_lexFrom h stream hstream t ts hsuffix
  refine ⟨Form.find?_matches hf ht, ?_⟩
  rintro text line kind rfl
  refine ⟨Form.takes_of_yields hf ht, ?_⟩
  rintro rfl
  exact Lexeme.endsWord_of_takes (Form.takes_of_yields hf ht nofun)

/-- A float whose fraction is empty, inside the body of a macro. -/
theorem lex_maximalMunch_of_exponent :
    let body := [Token.lexeme "1.e5".toList 1 .floatLiteral, .lexeme "f".toList 1 .identifier]
    let tokens := [Token.define "#define F() 1.e5f".toList 1 "F".toList
      (some [.lexeme "(".toList 1 .operator, .lexeme ")".toList 1 .operator])
      (some (.lexeme " ".toList 1 .whitespace :: body))]
    (lex .reject "#define F() 1.e5f".toList).outcome = .ok tokens ∧
      Lexeme.floatLiteral.Takes "1.e5f".toList "1.e5".toList := by
  intro body tokens
  have h : (lex .reject "#define F() 1.e5f".toList).outcome = .ok tokens := by
    simp only [tokens, body]
    cbv
  refine ⟨h, ?_⟩
  have hstream : .lexeme " ".toList 1 .whitespace :: body ∈ Token.streams tokens := by
    simp [tokens, Token.streams, Token.deep, Token.withParts, Token.parts, Token.deepNested, body]
  have hmunch := (lex_maximalMunch h).2 _ hstream _ _ (List.suffix_cons _ _)
  exact (hmunch.2 _ _ _ rfl).1 (by decide)

end ShaderPress
