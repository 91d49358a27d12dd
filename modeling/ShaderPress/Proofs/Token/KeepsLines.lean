import ShaderPress.Proofs.Shader.Significant
import ShaderPress.Proofs.Token.Relining

/-! # Sources that keep their lines

Four things do depend on how lines end: a body or a line comment with an escaped line end, a
directive without a body at the end of its line, and the text of an error in a body that goes up
to the end of its line.  A source without them is lexed as the same significant tokens whichever
of its line feeds have a carriage return before them.
-/
namespace ShaderPress
open Text Token

namespace Scan
variable {α β γ δ : Type} {R : α → β → Prop} {S : γ → δ → Prop}

/-- Two readings with one trail that fail with one error or give related results. -/
inductive Related (R : α → β → Prop) : Scan α → Scan β → Prop
  | ok (trail : List Occurrence) {a : α} {b : β} (h : R a b) :
    Related R ⟨trail, .ok a⟩ ⟨trail, .ok b⟩
  | error (trail : List Occurrence) (e : LexError) : Related R ⟨trail, .error e⟩ ⟨trail, .error e⟩

theorem Related.map {x : Scan α} {y : Scan β} {f : α → γ} {g : β → δ} (h : Related R x y)
    (hf : ∀ {a b}, R a b → S (f a) (g b)) : Related S (f <$> x) (g <$> y) := by
  cases h with
  | ok trail h => exact .ok trail (hf h)
  | error trail e => exact .error trail e

theorem Related.bind {x : Scan α} {y : Scan β} {f : α → Scan γ} {g : β → Scan δ}
    (h : Related R x y) (hf : ∀ {a b}, R a b → Related S (f a) (g b)) :
    Related S (x >>= f) (y >>= g) := by
  cases h with
  | error trail e =>
    rw [bind_error rfl, bind_error rfl]
    exact .error trail e
  | @ok trail a b h =>
    have hab := hf h
    rw [bind_ok rfl, bind_ok rfl]
    generalize f a = x at hab ⊢
    generalize g b = y at hab ⊢
    cases hab with
    | ok _ h => exact .ok _ h
    | error _ e => exact .error _ e

theorem Related.note {x : Scan γ} {y : Scan δ} (o : Occurrence) (h : Related S x y) :
    Related S (do Scan.note o; x) (do Scan.note o; y) :=
  (Related.ok [o] rfl : Related Eq (Scan.note o) (Scan.note o)).bind fun _ => h

end Scan

/-- A body with no escaped line end, and with something in it if the line ends behind it. -/
def keepsBody (followed : Bool) (body rest : List Char) : Bool :=
  !body.contains '\n' && !(body.isEmpty && Pattern.lineEnds followed rest)

/-- A source in which nothing depends on how lines end; `followed` tells whether a line feed
follows on it. -/
def keepsLines (followed : Bool) (s : List Char) : Bool :=
  match h : Form.first? s with
  | none => true
  | some (.malformed _) => !followed || s.contains '\n'
  | some (.define gap space name arguments body) =>
    have := Form.arguments_lt h
    have := Form.body_lt h
    have := Form.rest_lt h (by simp)
    let rest := s.drop (Form.define gap space name arguments body).text.length
    keepsBody followed body rest && keepsLines false arguments &&
      keepsLines (Pattern.lineEnds followed rest) body && keepsLines followed rest
  | some (.directive gap body) =>
    have := Form.directiveBody_lt h
    have := Form.rest_lt h (by simp)
    let rest := s.drop (Form.directive gap body).text.length
    keepsBody followed body rest && keepsLines (Pattern.lineEnds followed rest) body &&
      keepsLines followed rest
  | some (.conditional gap test space name) =>
    have := Form.rest_lt h (by simp)
    keepsLines followed (s.drop (Form.conditional gap test space name).text.length)
  | some (.definedTest name) =>
    have := Form.rest_lt h (by simp)
    keepsLines followed (s.drop (Form.definedTest name).text.length)
  | some (.lexeme text kind) =>
    have := Form.rest_lt h (by simp)
    (kind != .lineComment || !text.contains '\n') && keepsLines followed (s.drop text.length)
  | some (.unknown c) =>
    have := Form.rest_lt h (by simp)
    keepsLines followed (s.drop 1)
termination_by s.length
decreasing_by all_goals first | assumption | (rw [List.length_drop]; assumption)

section Equations
variable {followed : Bool} {s : List Char}

theorem keepsLines_malformed {keyword : Keyword} (h : Form.first? s = some (.malformed keyword)) :
    keepsLines followed s = (!followed || s.contains '\n') := by
  rw [keepsLines]
  split <;> rename_i h' <;> rw [h] at h' <;> cases h'

theorem keepsLines_define {gap space arguments body : List Char} {name : Ident}
    (h : Form.first? s = some (.define gap space name arguments body)) :
    let rest := s.drop (Form.define gap space name arguments body).text.length
    keepsLines followed s = (keepsBody followed body rest && keepsLines false arguments &&
      keepsLines (Pattern.lineEnds followed rest) body && keepsLines followed rest) := by
  intro rest
  rw [keepsLines]
  split <;> rename_i h' <;> rw [h] at h' <;> cases h'
  rfl

theorem keepsLines_directive {gap body : List Char}
    (h : Form.first? s = some (.directive gap body)) :
    let rest := s.drop (Form.directive gap body).text.length
    keepsLines followed s = (keepsBody followed body rest &&
      keepsLines (Pattern.lineEnds followed rest) body && keepsLines followed rest) := by
  intro rest
  rw [keepsLines]
  split <;> rename_i h' <;> rw [h] at h' <;> cases h'
  rfl

theorem keepsLines_lexeme {text : List Char} {kind : Lexeme}
    (h : Form.first? s = some (.lexeme text kind)) : keepsLines followed s =
      ((kind != .lineComment || !text.contains '\n') &&
        keepsLines followed (s.drop text.length)) := by
  rw [keepsLines]
  split <;> rename_i h' <;> rw [h] at h' <;> cases h'
  rfl

theorem keepsLines_plain {f : Form} (h : Form.first? s = some f) (hf : f.IsPlain) :
    keepsLines followed s = keepsLines followed (s.drop f.text.length) := by
  cases f with
  | define | directive | malformed => exact hf.elim
  | lexeme text kind =>
    rw [keepsLines_lexeme h]
    cases kind with
    | lineComment => exact hf.elim
    | _ => rfl
  | conditional | definedTest | unknown =>
    rw [keepsLines]
    split <;> rename_i h' <;> rw [h] at h' <;> cases h'
    rfl

end Equations

/-- Streams with the same significant tokens, behind a blank or not. -/
def SameTokens (tokens tokens' : List Token) : Prop :=
  ∀ separated, significantFrom separated tokens = significantFrom separated tokens'

def SameParts (part part' : Option (List Token)) : Prop :=
  inPart (spaced false) part = inPart (spaced false) part'

section
variable {followed : Bool} {policy : UnknownPolicy} {line : Nat} {s s' : List Char}
  {tokens tokens' : List Token} {t t' : Token}

theorem sameTokens_cons (hb : t.isBlank = false) (ht : significantOf t = significantOf t')
    (h : SameTokens tokens tokens') : SameTokens (t :: tokens) (t' :: tokens') := by
  intro separated
  have hb' : t'.isBlank = false := by rw [← isBlank_significantOf, ← ht, isBlank_significantOf, hb]
  rw [significantFrom_cons hb, significantFrom_cons hb', ht, h]

theorem sameTokens_blank (hb : t.isBlank = true) (hb' : t'.isBlank = true)
    (h : SameTokens tokens tokens') : SameTokens (t :: tokens) (t' :: tokens') := by
  intro separated
  rw [significantFrom_blank hb, significantFrom_blank hb', h]

theorem sameTokens_cons_self (t : Token) (h : SameTokens tokens tokens') :
    SameTokens (t :: tokens) (t :: tokens') := by
  cases hb : t.isBlank with
  | true => exact sameTokens_blank hb hb h
  | false => exact sameTokens_cons hb rfl h

theorem lexPart_sameLines (h : SameLines followed s s') (hnil : s = [] → s' = [])
    (hlex : Scan.Related SameTokens (lexFrom policy line s) (lexFrom policy line s')) :
    Scan.Related SameParts (lexPart policy line s) (lexPart policy line s') := by
  rw [lexPart, lexPart]
  by_cases hs : s = []
  · rw [if_pos hs, if_pos (hnil hs)]
    exact .ok [] rfl
  · have hs' : s' ≠ [] := by
      rintro rfl
      cases h
      exact hs rfl
    rw [if_neg hs, if_neg hs']
    refine hlex.map fun ht => ?_
    rw [SameParts, inPart_some, inPart_some]
    exact congrArg some (ht false)

/-- A carriage return alone is one blank. -/
theorem lexFrom_return :
    lexFrom policy line ['\r'] = ⟨[], .ok [.lexeme ['\r'] line .whitespace]⟩ := by
  rw [lexFrom_lexeme (Form.first?_return [])]
  simp only [lexBehind, Pattern.whitespace, List.length_singleton, List.drop_succ_cons,
    List.drop_zero, lexFrom_nil]
  rfl

theorem keepsBody_sameLines (h : SameLines followed s s')
    (hkeeps : keepsBody followed (Pattern.directiveBody s)
      (s.drop (Pattern.directiveBody s).length) = true) :
    Pattern.SameStretch followed
        (Pattern.lineEnds followed (s.drop (Pattern.directiveBody s).length)) s s'
        (Pattern.directiveBody s) (Pattern.directiveBody s') ∧
      (Pattern.directiveBody s = [] → Pattern.directiveBody s' = []) := by
  simp only [keepsBody, Bool.and_eq_true, Bool.not_eq_true', List.contains_eq_mem,
    decide_eq_false_iff_not, Bool.and_eq_false_iff, List.isEmpty_eq_false_iff] at hkeeps
  have hbody := Pattern.directiveBody_sameLines h hkeeps.1
  refine ⟨hbody, fun hnil => ?_⟩
  have hown := hbody.own
  rw [hkeeps.2.resolve_left (not_not_intro hnil), hnil] at hown
  exact hown.eq_nil

theorem drop_append_append (p w t : List Char) :
    (p ++ t).drop (p ++ w).length = t.drop w.length := by
  rw [List.length_append, List.drop_length_add_append]

theorem lexFrom_lexeme_of_ne {text : List Char} {kind : Lexeme}
    (h : Form.first? s = some (.lexeme text kind)) (hk : kind ≠ .identifier) :
    lexFrom policy line s =
      (Token.lexeme text line kind :: ·) <$> lexBehind policy line s text := by
  rw [lexFrom_lexeme h, if_neg hk]

/-- Texts shorter than `n` are lexed as the same significant tokens whatever ends their lines. -/
def ReadsShorter (policy : UnknownPolicy) (n : Nat) : Prop :=
  ∀ {followed : Bool} {s s' : List Char} (line : Nat), s.length < n → SameLines followed s s' →
    keepsLines followed s = true →
    Scan.Related SameTokens (lexFrom policy line s) (lexFrom policy line s')

theorem lexBehind_sameLines (ih : ReadsShorter policy s.length) {text text' : List Char}
    (hlt : (s.drop text.length).length < s.length) (hlines : newlines text' = newlines text)
    (hrest : SameLines followed (s.drop text.length) (s'.drop text'.length))
    (hkeeps : keepsLines followed (s.drop text.length) = true) :
    Scan.Related SameTokens (lexBehind policy line s text) (lexBehind policy line s' text') := by
  rw [lexBehind, lexBehind, hlines]
  exact ih _ hlt hrest hkeeps

theorem drop_text_lt {f : Form} (hf : Form.first? s = some f)
    (hm : ∀ keyword, f ≠ .malformed keyword) : (s.drop f.text.length).length < s.length := by
  rw [List.length_drop]
  exact Form.rest_lt hf hm

theorem lexFrom_define_sameLines (ih : ReadsShorter policy s.length) {before space : List Char}
    {name : Ident} {t t' : List Char}
    (hs : s = '#' :: (before ++ Keyword.define.text ++ space ++ name ++ t))
    (hs' : s' = '#' :: (before ++ Keyword.define.text ++ space ++ name ++ t'))
    (ht : SameLines followed t t')
    (hf : Form.first? s = some (Form.defineForm before space name t))
    (hf' : Form.first? s' = some (Form.defineForm before space name t'))
    (hkeeps : keepsLines followed s = true) :
    Scan.Related SameTokens (lexFrom policy line s) (lexFrom policy line s') := by
  obtain ⟨front, hs, hs', htext⟩ : ∃ front, s = front ++ t ∧ s' = front ++ t' ∧
      ∀ t, (Form.defineForm before space name t).text = front ++ (Pattern.arguments t ++
        Pattern.directiveBody (t.drop (Pattern.arguments t).length)) := by
    refine ⟨'#' :: (before ++ Keyword.define.text ++ space ++ name), hs, hs', fun t => ?_⟩
    simp only [Form.defineForm, Form.text, List.cons_append, List.append_assoc]
  have hrest : ∀ t, (front ++ t).drop (Form.defineForm before space name t).text.length =
      (t.drop (Pattern.arguments t).length).drop
        (Pattern.directiveBody (t.drop (Pattern.arguments t).length)).length := by
    intro t
    rw [htext, drop_append_append, List.length_append, List.drop_drop]
  rw [keepsLines_define hf, ← Form.defineForm, hs, hrest] at hkeeps
  simp only [Bool.and_eq_true] at hkeeps
  obtain ⟨⟨⟨hkeeps, harguments⟩, hbody⟩, hbehind⟩ := hkeeps
  have ha := Pattern.arguments_sameLines ht
  obtain ⟨hb, hnil⟩ := keepsBody_sameLines ha.rest hkeeps
  have hnext : Scan.Related SameTokens
      (lexBehind policy line s (Form.defineForm before space name t).text)
      (lexBehind policy line s' (Form.defineForm before space name t').text) := by
    have hdrop : SameLines followed (s.drop (Form.defineForm before space name t).text.length)
        (s'.drop (Form.defineForm before space name t').text.length) := by
      rw [hs, hs', hrest, hrest]
      exact hb.rest
    refine lexBehind_sameLines ih (drop_text_lt hf (by simp [Form.defineForm])) ?_ hdrop ?_
    · simp only [htext, newlines_append, ha.own.newlines, hb.own.newlines]
    · rw [hs, hrest]
      exact hbehind
  have hempty : Pattern.arguments t = [] → Pattern.arguments t' = [] := by
    intro h
    have hown := ha.own
    rw [h] at hown
    exact hown.eq_nil
  rw [lexFrom_define hf, lexFrom_define hf', ha.own.newlines]
  refine (lexPart_sameLines ha.own hempty
    (ih _ (Form.arguments_lt hf) ha.own harguments)).bind fun hparts => ?_
  refine (lexPart_sameLines hb.own hnil
    (ih _ (Form.body_lt hf) hb.own hbody)).bind fun hparts' => ?_
  refine .note _ (hnext.map fun ht => sameTokens_cons rfl ?_ ht)
  simp only [significantOf, inParts, bare]
  exact congrArg₂ (Token.define [] 0 name) hparts hparts'

theorem lexFrom_directive_sameLines (ih : ReadsShorter policy s.length) {before t t' : List Char}
    (hs : s = '#' :: (before ++ t)) (hs' : s' = '#' :: (before ++ t'))
    (ht : SameLines followed t t')
    (hf : Form.first? s = some (.directive before (Pattern.directiveBody t)))
    (hf' : Form.first? s' = some (.directive before (Pattern.directiveBody t')))
    (hkeeps : keepsLines followed s = true) :
    Scan.Related SameTokens (lexFrom policy line s) (lexFrom policy line s') := by
  obtain ⟨front, hs, hs', htext⟩ : ∃ front, s = front ++ t ∧ s' = front ++ t' ∧
      ∀ body, (Form.directive before body).text = front ++ body :=
    ⟨'#' :: before, hs, hs', fun _ => rfl⟩
  have hrest : ∀ t, (front ++ t).drop
      (Form.directive before (Pattern.directiveBody t)).text.length =
        t.drop (Pattern.directiveBody t).length := by
    intro t
    rw [htext, drop_append_append]
  rw [keepsLines_directive hf, hs, hrest] at hkeeps
  simp only [Bool.and_eq_true] at hkeeps
  obtain ⟨⟨hkeeps, hbody⟩, hbehind⟩ := hkeeps
  obtain ⟨hb, hnil⟩ := keepsBody_sameLines ht hkeeps
  have hnext : Scan.Related SameTokens
      (lexBehind policy line s (Form.directive before (Pattern.directiveBody t)).text)
      (lexBehind policy line s' (Form.directive before (Pattern.directiveBody t')).text) := by
    have hdrop : SameLines followed
        (s.drop (Form.directive before (Pattern.directiveBody t)).text.length)
        (s'.drop (Form.directive before (Pattern.directiveBody t')).text.length) := by
      rw [hs, hs', hrest, hrest]
      exact hb.rest
    refine lexBehind_sameLines ih (drop_text_lt hf (by simp)) ?_ hdrop ?_
    · simp only [htext, newlines_append, hb.own.newlines]
    · rw [hs, hrest]
      exact hbehind
  rw [lexFrom_directive hf, lexFrom_directive hf']
  refine (lexPart_sameLines hb.own hnil
    (ih _ (Form.directiveBody_lt hf) hb.own hbody)).bind fun hparts => ?_
  refine hnext.map fun ht => sameTokens_cons rfl ?_ ht
  simp only [significantOf, inParts, bare]
  exact congrArg (Token.directive [] 0) hparts

/-- A blank or a comment may differ from the other in its text. -/
theorem lexFrom_blank_sameLines (ih : ReadsShorter policy s.length) {w w' : List Char}
    {kind : Lexeme} (hblank : ∀ text line, (Token.lexeme text line kind).isBlank = true)
    (hw : Pattern.SameStretch followed true s s' w w')
    (hf : Form.first? s = some (.lexeme w kind)) (hf' : Form.first? s' = some (.lexeme w' kind))
    (hkeeps : keepsLines followed s = true) :
    Scan.Related SameTokens (lexFrom policy line s) (lexFrom policy line s') := by
  have hname : kind ≠ .identifier := by
    rintro rfl
    cases hblank [] 0
  rw [keepsLines_lexeme hf, Bool.and_eq_true] at hkeeps
  rw [lexFrom_lexeme_of_ne hf hname, lexFrom_lexeme_of_ne hf' hname]
  have hnext : Scan.Related SameTokens (lexBehind policy line s w) (lexBehind policy line s' w') :=
    lexBehind_sameLines ih (drop_text_lt hf (by simp)) hw.own.newlines hw.rest hkeeps.2
  exact hnext.map (sameTokens_blank (hblank _ _) (hblank _ _))

theorem lexFrom_same_sameLines (ih : ReadsShorter policy s.length) {f : Form}
    (hplain : f.IsPlain) (hf : Form.first? s = some f) (hf' : Form.first? s' = some f)
    (hrest : SameLines followed (s.drop f.text.length) (s'.drop f.text.length))
    (hkeeps : keepsLines followed s = true) :
    Scan.Related SameTokens (lexFrom policy line s) (lexFrom policy line s') := by
  rw [keepsLines_plain hf hplain] at hkeeps
  have hnext : (∀ keyword, f ≠ .malformed keyword) → ∀ t : Token,
      Scan.Related SameTokens ((t :: ·) <$> lexBehind policy line s f.text)
        ((t :: ·) <$> lexBehind policy line s' f.text) := by
    intro hm t
    exact (lexBehind_sameLines ih (drop_text_lt hf hm) rfl hrest hkeeps).map
      (sameTokens_cons_self t)
  cases f with
  | define | directive | malformed => exact hplain.elim
  | conditional gap test space name =>
    rw [lexFrom_conditional hf, lexFrom_conditional hf']
    exact .note _ (hnext (by simp) _)
  | definedTest name =>
    rw [lexFrom_definedTest hf, lexFrom_definedTest hf']
    exact .note _ (hnext (by simp) _)
  | lexeme text kind =>
    by_cases hk : kind = .identifier
    · rw [lexFrom_lexeme hf, lexFrom_lexeme hf', if_pos hk, if_pos hk]
      exact .note _ (hnext (by simp) _)
    · rw [lexFrom_lexeme_of_ne hf hk, lexFrom_lexeme_of_ne hf' hk]
      exact hnext (by simp) _
  | unknown c =>
    rw [lexFrom_unknown hf, lexFrom_unknown hf']
    split
    · exact .error [] _
    · exact hnext (by simp) _

/-- A source that keeps its lines is lexed as the same significant tokens whatever ends them. -/
theorem lexFrom_sameLines (policy : UnknownPolicy) (line : Nat) (h : SameLines followed s s')
    (hkeeps : keepsLines followed s = true) :
    Scan.Related SameTokens (lexFrom policy line s) (lexFrom policy line s') := by
  -- every stretch that is lexed inside or behind a form is shorter than the text
  induction hn : s.length using Nat.strongRecOn generalizing followed line s s' with
  | ind n hshorter =>
  subst hn
  have ih : ReadsShorter policy s.length :=
    fun line hlt h hkeeps => hshorter _ hlt line h hkeeps rfl
  by_cases hs : s = []
  · subst hs
    rw [lexFrom_nil]
    cases h with
    | nil =>
      rw [lexFrom_nil]
      exact .ok [] fun _ => rfl
    | last =>
      rw [lexFrom_return]
      refine .ok [] fun separated => ?_
      rw [significantFrom_blank rfl, significantFrom_nil, significantFrom_nil]
  · have hfirst := Form.first?_sameLines h hs
    cases hf : Form.first? s with
    | none => exact absurd (Form.first?_eq_none_iff.mp hf) hs
    | some f =>
    cases hf' : Form.first? s' with
    | none =>
      rw [hf, hf'] at hfirst
      cases hfirst
    | some f' =>
    rw [hf, hf'] at hfirst
    cases hfirst with
    | some hform =>
    cases hform with
    | malformed keyword =>
      rw [keepsLines_malformed hf, Bool.or_eq_true, Bool.not_eq_true'] at hkeeps
      have hline := firstLine_sameLines h (hkeeps.imp_right fun h => List.contains_iff_mem.mp h)
      rw [lexFrom_malformed hf, lexFrom_malformed hf', hline]
      exact .error [] _
    | define before space name hs hs' ht =>
      exact lexFrom_define_sameLines ih hs hs' ht hf hf' hkeeps
    | directive before hs hs' ht => exact lexFrom_directive_sameLines ih hs hs' ht hf hf' hkeeps
    | @lineComment t t' hs hs' ht =>
      have hw : Pattern.SameStretch followed true s s' ('/' :: '/' :: Pattern.lineRest t)
          ('/' :: '/' :: Pattern.lineRest t') := by
        have hkept := hkeeps
        rw [keepsLines_lexeme hf, Bool.and_eq_true] at hkept
        subst hs hs'
        refine ((Pattern.lineRest_sameLines ht ?_).char ?_ ?_).char ?_ ?_
        · simpa using hkept.1
        all_goals decide
      exact lexFrom_blank_sameLines ih (fun _ _ => rfl) hw hf hf' hkeeps
    | @blank w w' kind hk hw =>
      refine lexFrom_blank_sameLines ih (fun _ _ => ?_) hw hf hf' hkeeps
      rcases hk with rfl | rfl <;> rfl
    | same hplain hrest => exact lexFrom_same_sameLines ih hplain hf hf' hrest hkeeps

end

end ShaderPress
