import Mathlib
import ShaderPress.Proofs.Token.LogicalLine
import ShaderPress.Proofs.Token.Stretches

/-! # Line numbers

A token at any depth carries the number of the line on which it starts, and an error the number of
the line at whose form lexing has stopped.  Both are read off the text before that place: it has as
many line feeds as there are lines before.  Lexing hands its line on from stretch to stretch, so
the induction is over the text with a statement for every line that it may start on.
-/
namespace ShaderPress
open Form Text

namespace Token

/-- Tokens with the text before them, seen from further ahead. -/
def behind (lead : List Char) (ps : List (List Char × Token)) : List (List Char × Token) :=
  ps.map fun p => (lead ++ p.1, p.2)

theorem map_snd_behind (lead : List Char) (ps : List (List Char × Token)) :
    (behind lead ps).map Prod.snd = ps.map Prod.snd := List.map_map

mutual

/-- A token and the tokens of its parts, each with the text before it. -/
def placed : Token → List (List Char × Token)
  | define text line name arguments body =>
    let head := text.take (text.length - coveredBy arguments - coveredBy body)
    ([], define text line name arguments body) ::
      (behind head (placedPart arguments) ++
        behind (head ++ partSource arguments) (placedPart body))
  | directive text line body =>
    ([], directive text line body) ::
      behind (text.take (text.length - coveredBy body)) (placedPart body)
  | conditional text line test name => [([], conditional text line test name)]
  | definedTest text line name => [([], definedTest text line name)]
  | lexeme text line kind => [([], lexeme text line kind)]

def placedPart : Option (List Token) → List (List Char × Token)
  | none => []
  | some tokens => placedIn tokens

/-- The tokens of a stream at every depth, each with the text before it. -/
def placedIn : List Token → List (List Char × Token)
  | [] => []
  | t :: ts => t.placed ++ behind t.text (placedIn ts)

end

/-- No token is left out. -/
theorem map_snd_placedIn (tokens : List Token) : (placedIn tokens).map Prod.snd = deep tokens := by
  have part : ∀ {o : Option (List Token)},
      (∀ s, o = some s → (placedIn s).map Prod.snd = deep s) →
      (placedPart o).map Prod.snd = deepNested o := by
    intro o ho
    cases o with
    | none => rfl
    | some s => exact ho s rfl
  induction tokens using stream_induction with
  | nil => rfl
  | define text line name arguments body rest ha hb hr =>
    simp only [placedIn, placed, deep, withParts, List.cons_append, List.map_cons, List.map_append,
      map_snd_behind, part ha, part hb, hr]
  | directive text line body rest hb hr =>
    simp only [placedIn, placed, deep, withParts, List.cons_append, List.map_cons, List.map_append,
      map_snd_behind, part hb, hr]
  | conditional text line test name rest hr | definedTest text line name rest hr
  | lexeme text line kind rest hr =>
    simp only [placedIn, placed, deep, withParts, List.cons_append, List.nil_append, List.map_cons,
      map_snd_behind, hr]

/-- A token stands behind the text that is said to be before it, on the line that it carries. -/
def Numbered (line : Nat) (s : List Char) (p : List Char × Token) : Prop :=
  p.1 ++ p.2.text <+: s ∧ p.2.line = line + newlines p.1

theorem numbered_behind {line : Nat} {lead part s : List Char} (hs : lead ++ part <+: s)
    {ps : List (List Char × Token)} (h : ∀ p ∈ ps, Numbered (line + newlines lead) part p) :
    ∀ p ∈ behind lead ps, Numbered line s p := by
  intro q hq
  obtain ⟨p, hp, rfl⟩ := List.mem_map.mp hq
  obtain ⟨hstarts, hline⟩ := h p hp
  refine ⟨?_, ?_⟩
  · rw [List.append_assoc]
    exact ((List.prefix_append_right_inj lead).mpr hstarts).trans hs
  · rw [hline, newlines_append, Nat.add_assoc]

theorem numbered_self {line : Nat} {s : List Char} {t : Token} (ht : t.text <+: s)
    (hline : t.line = line) : Numbered line s ([], t) :=
  ⟨ht, hline⟩

theorem coveredBy_eq (part : Option (List Token)) : coveredBy part = (partSource part).length := by
  cases part <;> rfl

/-- What stands before the parts of a definition is found again from their lengths. -/
theorem take_text_define (gap space : List Char) (name : Ident) (a b : Option (List Token)) :
    let text := (Form.define gap space name (partSource a) (partSource b)).text
    text.take (text.length - coveredBy a - coveredBy b) = defineHead gap space name := by
  intro text
  have htext : text = defineHead gap space name ++ (partSource a ++ partSource b) := by
    rw [← List.append_assoc]
    rfl
  rw [coveredBy_eq, coveredBy_eq, htext]
  refine List.take_left' ?_
  simp only [List.length_append]
  omega

theorem take_text_directive (gap : List Char) (b : Option (List Token)) :
    let text := (Form.directive gap (partSource b)).text
    text.take (text.length - coveredBy b) = '#' :: gap := by
  intro text
  have htext : text = '#' :: gap ++ partSource b := rfl
  rw [coveredBy_eq, htext]
  refine List.take_left' ?_
  rw [List.length_append, Nat.add_sub_cancel]

theorem numbered_of_lexFrom {policy : UnknownPolicy} {line : Nat} {s : List Char}
    {tokens : List Token} (h : (lexFrom policy line s).outcome = .ok tokens) :
    ∀ p ∈ placedIn tokens, Numbered line s p := by
  -- the text of a part is known from its tokens, so it goes along in the induction
  have part : ∀ {line s o tr},
      PartHolds (fun line s ts _ => sourceOf ts = s ∧ ∀ p ∈ placedIn ts, Numbered line s p)
        line s o tr →
      s = partSource o ∧ ∀ p ∈ placedPart o, Numbered line s p := by
    intro line s o tr hp
    rcases hp with ⟨rfl, rfl, -⟩ | ⟨-, ts, rfl, rfl, hts⟩
    · exact ⟨rfl, fun p hp => absurd hp List.not_mem_nil⟩
    · exact ⟨rfl, hts⟩
  have source : ∀ {s ts} {t : Token} {f : Form}, Form.first? s = some f → t.text = f.text →
      sourceOf ts = s.drop f.text.length → sourceOf (t :: ts) = s := by
    intro s ts t f hf ht hts
    rw [sourceOf_cons, ht, hts, text_append_drop hf]
  have rest : ∀ {line s ts} {f : Form}, Form.first? s = some f →
      (∀ p ∈ placedIn ts, Numbered (line + newlines f.text) (s.drop f.text.length) p) →
      ∀ p ∈ behind f.text (placedIn ts), Numbered line s p := by
    intro line s ts f hf hts
    refine numbered_behind ?_ hts
    rw [text_append_drop hf]
  refine (lexFrom_induction
    (motive := fun line s ts _ => sourceOf ts = s ∧ ∀ p ∈ placedIn ts, Numbered line s p)
    ?_ ?_ ?_ ?_ ?_ ?_ ?_ s line tokens h).2
  · exact fun line => ⟨rfl, fun p hp => absurd hp List.not_mem_nil⟩
  · intro line s gap space name arguments body a b ts ta tb tr hf ha hb text hr
    obtain ⟨rfl, hna⟩ := part ha
    obtain ⟨rfl, hnb⟩ := part hb
    have hline := newlines_defineHead hf
    have hin := fun p => isPrefix_of_mem_stretches hf (p := p)
    refine ⟨source hf rfl hr.1, ?_⟩
    simp only [placedIn, placed, text, take_text_define, List.cons_append, List.forall_mem_cons,
      List.forall_mem_append]
    refine ⟨numbered_self (text_isPrefix hf) rfl, ⟨?_, ?_⟩, rest hf hr.2⟩
    · refine numbered_behind
        (hin (defineHead gap space name, partSource a) (by simp [stretches])) ?_
      rwa [hline]
    · refine numbered_behind
        (hin (defineHead gap space name ++ partSource a, partSource b) (by simp [stretches])) ?_
      rwa [newlines_append, hline, Nat.zero_add]
  · intro line s gap test space name ts tr hf text hr
    refine ⟨source hf rfl hr.1, List.forall_mem_cons.mpr ⟨?_, rest hf hr.2⟩⟩
    exact numbered_self (text_isPrefix hf) rfl
  · intro line s name ts tr hf text hr
    refine ⟨source hf rfl hr.1, List.forall_mem_cons.mpr ⟨?_, rest hf hr.2⟩⟩
    exact numbered_self (text_isPrefix hf) rfl
  · intro line s gap body b ts tb tr hf hb text hr
    obtain ⟨rfl, hnb⟩ := part hb
    have hline := newlines_directiveHead hf
    refine ⟨source hf rfl hr.1, ?_⟩
    simp only [placedIn, placed, text, take_text_directive, List.cons_append, List.forall_mem_cons,
      List.forall_mem_append]
    refine ⟨numbered_self (text_isPrefix hf) rfl, ?_, rest hf hr.2⟩
    refine numbered_behind
      (isPrefix_of_mem_stretches hf (p := ('#' :: gap, partSource b)) (by simp [stretches])) ?_
    rwa [hline]
  · intro line s text kind ts tr hf hr
    refine ⟨source hf rfl hr.1, List.forall_mem_cons.mpr ⟨?_, rest hf hr.2⟩⟩
    exact numbered_self (text_isPrefix hf) rfl
  · intro line s c ts tr _ hf hr
    refine ⟨source hf rfl hr.1, List.forall_mem_cons.mpr ⟨?_, rest hf hr.2⟩⟩
    exact numbered_self (text_isPrefix hf) rfl

end Token

/-- The error of a text whose first form is not accepted, for each line that it may start on. -/
def offence? (policy : UnknownPolicy) (s : List Char) : Option (Nat → LexError) :=
  match first? s, policy with
  | some (.malformed keyword), _ => some (.malformedDirective keyword (firstLine s))
  | some (.unknown c), .reject => some (.illegalCharacter c)
  | _, _ => none

theorem ne_malformed_of_offence? {policy : UnknownPolicy} {s : List Char} {f : Form}
    (h : first? s = some f) (ho : offence? policy s = none) (keyword : Keyword) :
    f ≠ .malformed keyword := by
  rintro rfl
  simp only [offence?, h, reduceCtorEq] at ho

/-- Where lexing stops: the text before the first form that is not accepted, in the order in which
stretches are lexed, and the rest of the stretch from this form on. -/
def stop? (policy : UnknownPolicy) (s : List Char) : Option (List Char × List Char) :=
  match h : first? s with
  | none => none
  | some f =>
    match ho : offence? policy s with
    | some _ => some ([], s)
    | none => (f.stretches s).attach.findSome? fun ⟨(lead, part), hp⟩ =>
      have := length_lt_of_mem_stretches h (ne_malformed_of_offence? h ho) hp
      (stop? policy part).map fun (before, rest) => (lead ++ before, rest)
termination_by s.length

/-- Where lexing stops in a stretch, seen from the text that it is a stretch of. -/
def stopIn? (policy : UnknownPolicy) (p : List Char × List Char) : Option (List Char × List Char) :=
  (stop? policy p.2).map fun (before, rest) => (p.1 ++ before, rest)

section
variable {policy : UnknownPolicy} {line : Nat} {s : List Char} {f : Form}

theorem stop?_nil : stop? policy [] = none := by
  rw [stop?]
  rfl

theorem stop?_of_offence {error : Nat → LexError} (h : first? s = some f)
    (ho : offence? policy s = some error) : stop? policy s = some ([], s) := by
  rw [stop?]
  split
  · next h' =>
    rw [h] at h'
    cases h'
  · split
    · rfl
    · next ho' =>
      rw [ho] at ho'
      cases ho'

theorem stop?_of_accepted (h : first? s = some f) (ho : offence? policy s = none) :
    stop? policy s = (f.stretches s).findSome? (stopIn? policy) := by
  rw [stop?]
  split
  · next h' =>
    rw [h] at h'
    cases h'
  · next g h' =>
    obtain rfl := Option.some.inj (h.symm.trans h')
    split
    · next ho' =>
      rw [ho] at ho'
      cases ho'
    · conv => rhs; rw [← List.attach_map_subtype_val (f.stretches s), List.findSome?_map]
      rfl

/-- What lexing gives that starts on a line of a text: it succeeds where nothing stops it, and
else fails with the error of the place where it stops. -/
def Accords {α : Type} (policy : UnknownPolicy) (line : Nat) (s : List Char) :
    Option (List Char × List Char) → Except LexError α → Prop
  | none, outcome => ∃ a, outcome = .ok a
  | some (before, rest), outcome => before ++ rest <+: s ∧
    ∃ error, offence? policy rest = some error ∧ outcome = .error (error (line + newlines before))

section
variable {α β : Type}

theorem Accords.map {place : Option (List Char × List Char)} {x : Scan α} (g : α → β)
    (h : Accords policy line s place x.outcome) :
    Accords policy line s place (g <$> x).outcome := by
  cases place with
  | none =>
    obtain ⟨a, ha⟩ := h
    exact ⟨g a, by rw [Scan.map_def, ha]; rfl⟩
  | some p =>
    obtain ⟨hp, error, ho, he⟩ := h
    exact ⟨hp, error, ho, by rw [Scan.map_def, he]; rfl⟩

theorem Accords.note {o : Occurrence} {place : Option (List Char × List Char)} {x : Scan α}
    (h : Accords policy line s place x.outcome) :
    Accords policy line s place (do Scan.note o; x).outcome := h

/-- A stretch of a text, with the line feeds before it. -/
theorem Accords.within {lead part : List Char} (hs : lead ++ part <+: s)
    {outcome : Except LexError α}
    (h : Accords policy (line + newlines lead) part (stop? policy part) outcome) :
    Accords policy line s (stopIn? policy (lead, part)) outcome := by
  rw [stopIn?]
  cases hp : stop? policy part with
  | none =>
    rw [hp] at h
    exact h
  | some p =>
    obtain ⟨before, rest⟩ := p
    rw [hp] at h
    obtain ⟨hstarts, error, ho, he⟩ := h
    refine ⟨?_, error, ho, ?_⟩
    · change lead ++ before ++ rest <+: s
      rw [List.append_assoc]
      exact ((List.prefix_append_right_inj lead).mpr hstarts).trans hs
    · change outcome = .error (error (line + newlines (lead ++ before)))
      rw [he, newlines_append, Nat.add_assoc]

/-- What comes behind a stretch is lexed only if that does not stop. -/
theorem Accords.bind {p : List Char × List Char} {ps : List (List Char × List Char)} {x : Scan α}
    {g : α → Scan β} (h : Accords policy line s (stopIn? policy p) x.outcome)
    (hg : ∀ a, Accords policy line s (ps.findSome? (stopIn? policy)) (g a).outcome) :
    Accords policy line s ((p :: ps).findSome? (stopIn? policy)) (x >>= g).outcome := by
  rw [List.findSome?_cons]
  cases hp : stopIn? policy p with
  | none =>
    rw [hp] at h
    obtain ⟨a, ha⟩ := h
    rw [Scan.bind_ok ha]
    exact hg a
  | some place =>
    rw [hp] at h
    obtain ⟨hstarts, error, ho, he⟩ := h
    rw [Scan.bind_error he]
    exact ⟨hstarts, error, ho, rfl⟩

end

theorem accords_lexPart (h : ∀ line, Accords policy line s (stop? policy s)
    (lexFrom policy line s).outcome) (line : Nat) :
    Accords policy line s (stop? policy s) (lexPart policy line s).outcome := by
  by_cases hs : s = []
  · rw [lexPart, if_pos hs, hs, stop?_nil]
    exact ⟨none, rfl⟩
  · rw [lexPart, if_neg hs]
    exact (h line).map some

/-- Lexing accords in every stretch of a form. -/
def AccordsInside (policy : UnknownPolicy) (s : List Char) (f : Form) : Prop :=
  ∀ p ∈ f.stretches s, ∀ line,
    Accords policy line p.2 (stop? policy p.2) (lexFrom policy line p.2).outcome

namespace AccordsInside

theorem part (h : AccordsInside policy s f) (hf : first? s = some f) (line : Nat)
    {p : List Char × List Char} (hp : p ∈ f.stretches s) : Accords policy line s (stopIn? policy p)
      (lexPart policy (line + newlines p.1) p.2).outcome :=
  (accords_lexPart (h p hp) _).within (isPrefix_of_mem_stretches hf hp)

/-- The last stretch is the rest of the text. -/
theorem last (h : AccordsInside policy s f) (hf : first? s = some f)
    (hp : (f.text, s.drop f.text.length) ∈ f.stretches s) (g : List Token → List Token) :
    Accords policy line s ([(f.text, s.drop f.text.length)].findSome? (stopIn? policy))
      (g <$> lexBehind policy line s f.text).outcome := by
  rw [List.findSome?_singleton]
  exact ((h _ hp _).within (isPrefix_of_mem_stretches hf hp)).map g

theorem define {gap space arguments body : List Char} {name : Ident}
    (h : AccordsInside policy s (define gap space name arguments body))
    (hf : first? s = some (define gap space name arguments body)) :
    Accords policy line s (stop? policy s) (lexFrom policy line s).outcome := by
  have ho : offence? policy s = none := by simp only [offence?, hf]
  have hline := newlines_defineHead hf
  have harguments : Accords policy line s (stopIn? policy (defineHead gap space name, arguments))
      (lexPart policy line arguments).outcome := by
    have hpart := h.part hf line List.mem_cons_self
    rwa [hline] at hpart
  have hbody : Accords policy line s (stopIn? policy (defineHead gap space name ++ arguments, body))
      (lexPart policy (line + newlines arguments) body).outcome := by
    have hpart := h.part hf line (List.mem_cons_of_mem _ List.mem_cons_self)
    rwa [newlines_append, hline, Nat.zero_add] at hpart
  rw [lexFrom_define hf, stop?_of_accepted hf ho]
  refine harguments.bind fun a => hbody.bind fun b => Accords.note ?_
  exact h.last hf (by simp [stretches]) _

theorem directive {gap body : List Char} (h : AccordsInside policy s (directive gap body))
    (hf : first? s = some (directive gap body)) :
    Accords policy line s (stop? policy s) (lexFrom policy line s).outcome := by
  have ho : offence? policy s = none := by simp only [offence?, hf]
  have hbody : Accords policy line s (stopIn? policy ('#' :: gap, body))
      (lexPart policy line body).outcome := by
    have hpart := h.part hf line List.mem_cons_self
    rwa [newlines_directiveHead hf] at hpart
  rw [lexFrom_directive hf, stop?_of_accepted hf ho]
  exact hbody.bind fun b => h.last hf (by simp [stretches]) _

end AccordsInside

theorem accords_lexFrom (policy : UnknownPolicy) (s : List Char) (line : Nat) :
    Accords policy line s (stop? policy s) (lexFrom policy line s).outcome := by
  -- every stretch is shorter than the text
  induction hn : s.length using Nat.strongRecOn generalizing s line with
  | ind n ih =>
  subst hn
  cases hf : first? s with
  | none =>
    obtain rfl := first?_eq_none_iff.mp hf
    rw [lexFrom_nil, stop?_nil]
    exact ⟨[], rfl⟩
  | some f =>
    have inside : offence? policy s = none → AccordsInside policy s f := fun ho p hp line' =>
      ih _ (length_lt_of_mem_stretches hf (ne_malformed_of_offence? hf ho) hp) p.2 line' rfl
    cases f with
    | malformed keyword =>
      have ho : offence? policy s = some (.malformedDirective keyword (firstLine s)) := by
        simp only [offence?, hf]
      rw [lexFrom_malformed hf, stop?_of_offence hf ho]
      exact ⟨List.prefix_refl s, _, ho, rfl⟩
    | unknown c =>
      cases policy with
      | reject =>
        have ho : offence? .reject s = some (.illegalCharacter c) := by simp only [offence?, hf]
        rw [lexFrom_unknown hf, if_pos rfl, stop?_of_offence hf ho]
        exact ⟨List.prefix_refl s, _, ho, rfl⟩
      | pass =>
        have ho : offence? .pass s = none := by simp only [offence?, hf]
        rw [lexFrom_unknown hf, if_neg (by simp), stop?_of_accepted hf ho]
        exact (inside ho).last hf List.mem_cons_self _
    | define gap space name arguments body =>
      exact (inside (by simp only [offence?, hf])).define hf
    | conditional gap test space name =>
      have ho : offence? policy s = none := by simp only [offence?, hf]
      rw [lexFrom_conditional hf, stop?_of_accepted hf ho]
      exact ((inside ho).last hf List.mem_cons_self _).note
    | definedTest name =>
      have ho : offence? policy s = none := by simp only [offence?, hf]
      rw [lexFrom_definedTest hf, stop?_of_accepted hf ho]
      exact ((inside ho).last hf List.mem_cons_self _).note
    | directive gap body =>
      exact (inside (by simp only [offence?, hf])).directive hf
    | lexeme text kind =>
      have ho : offence? policy s = none := by simp only [offence?, hf]
      rw [lexFrom_lexeme hf, stop?_of_accepted hf ho]
      split
      · exact ((inside ho).last hf List.mem_cons_self _).note
      · exact (inside ho).last hf List.mem_cons_self _

end

/-- Every token of a lexed source, at any depth, carries the number of the line on which it starts.
Lexing fails exactly where it stops at a form, with the number of the line of this form. -/
theorem lex_lineNumbers (policy : UnknownPolicy) (source : List Char) :
    (∀ tokens, (lex policy source).outcome = .ok tokens →
      (Token.placedIn tokens).map Prod.snd = Token.deep tokens ∧
      ∀ p ∈ Token.placedIn tokens, p.1 ++ p.2.text <+: source ∧ p.2.line = 1 + newlines p.1) ∧
    (∀ before rest, stop? policy source = some (before, rest) → before ++ rest <+: source) ∧
    ∀ e, (lex policy source).outcome = .error e ↔ ∃ before rest error,
      stop? policy source = some (before, rest) ∧ offence? policy rest = some error ∧
      e = error (1 + newlines before) := by
  have haccords := accords_lexFrom policy source 1
  refine ⟨fun tokens h => ⟨Token.map_snd_placedIn tokens, Token.numbered_of_lexFrom h⟩, ?_, ?_⟩
  · intro before rest hstop
    rw [hstop] at haccords
    exact haccords.1
  · intro e
    cases hstop : stop? policy source with
    | none =>
      rw [hstop] at haccords
      obtain ⟨tokens, htokens⟩ := haccords
      rw [lex, htokens]
      exact ⟨nofun, nofun⟩
    | some p =>
      obtain ⟨before, rest⟩ := p
      rw [hstop] at haccords
      obtain ⟨-, error, ho, he⟩ := haccords
      rw [lex, he]
      constructor
      · rintro ⟨⟩
        exact ⟨before, rest, error, rfl, ho, rfl⟩
      · rintro ⟨_, _, error', ⟨⟩, ho', rfl⟩
        rw [Option.some.inj (ho.symm.trans ho')]

/-- A continued argument list before a character that no token starts with. -/
theorem lex_lineNumbers_of_continuation :
    let source := "#define F(a,\nb) a\\\n@".toList
    (lex .reject source).outcome = .error (.illegalCharacter '@' 3) ∧
      ∃ before rest error, stop? .reject source = some (before, rest) ∧
        offence? .reject rest = some error ∧
        LexError.illegalCharacter '@' 3 = error (1 + newlines before) := by
  intro source
  have h : (lex .reject source).outcome = .error (.illegalCharacter '@' 3) := by
    simp only [source]
    cbv
  exact ⟨h, ((lex_lineNumbers _ _).2.2 _).mp h⟩

end ShaderPress
