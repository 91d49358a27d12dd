import Mathlib
import ShaderPress.Proofs.Shader.Halting
import ShaderPress.Proofs.Shader.LineEnd
import ShaderPress.Proofs.Shader.Readback

/-! # Preprocessor lines that are read back

A preprocessor line is written in its plain spelling on a line of its own, so the lexer finds
it again, with its parts, if these parts fill that line and no more: no directive stands in
them, an argument list closes with its last token, a body is not blank, and the first word of
another directive is not written as a keyword.  A stream of such lines and of other tokens is
read back as it was written.
-/
namespace ShaderPress

namespace Token

def isDefinedTest : Token → Bool
  | definedTest .. => true
  | _ => false

/-- An argument list closes with its last token and with none before it. -/
def closesList : List Token → Bool
  | [] => false
  | [t] => t.operator? == some [')']
  | t :: u :: ts => t.operator? != some [')'] && !t.isDefinedTest && closesList (u :: ts)

/-- The identifier that a stream starts with. -/
def leadingWord? : List Token → Option Ident
  | lexeme text _ .identifier :: _ => some text
  | _ => none

/-- The words behind a hash that name what stands in the line. -/
def lineKeywords : List (List Char) :=
  [Keyword.define.text, Conditional.ifdef.keyword, Conditional.ifndef.keyword]

theorem text_mem_lineKeywords (keyword : Keyword) : keyword.text ∈ lineKeywords := by
  cases keyword with
  | define => exact List.mem_cons_self
  | conditional test => cases test <;> decide

theorem exists_of_leadingWord? {s : List Token} {x : Ident} (h : leadingWord? s = some x) :
    ∃ line ts, s = lexeme x line .identifier :: ts := by
  unfold leadingWord? at h
  split at h
  · cases h
    exact ⟨_, _, rfl⟩
  · cases h

theorem lastWritten?_ne_none_of_closesList {s : List Token} (h : closesList s = true) :
    lastWritten? s ≠ none := by
  induction s with
  | nil => cases h
  | cons t ts ih =>
    cases ts with
    | nil =>
      obtain ⟨line, rfl⟩ := operator?_eq_some (beq_iff_eq.mp h)
      rw [lastWritten?_cons rfl]
      exact Option.some_ne_none _
    | cons u ts =>
      rw [closesList, Bool.and_eq_true] at h
      cases hw : t.isWhitespace with
      | true => rw [lastWritten?_cons_of_isWhitespace hw]; exact ih h.2
      | false =>
        rw [lastWritten?_cons hw]
        exact Option.some_ne_none _

end Token

namespace Layout
open Token

/-- Behind a part without directives that is not blank no line starts. -/
theorem newline_nestedPieces_of_inline {part : Option (List Token)}
    (hinline : ∀ s, part = some s → ∀ u ∈ s, u.isDirective = false)
    (hwritten : ∀ s, part = some s → lastWritten? s ≠ none) :
    (nestedPieces false false part).2 = false := by
  cases part with
  | none => rw [nestedPieces_none]
  | some s =>
    obtain ⟨u, hu⟩ := Option.ne_none_iff_exists'.mp (hwritten s rfl)
    have hmem : u ∈ s := (List.mem_filter.mp (List.mem_of_getLast? hu)).1
    have hstate : (nestedPieces false false (some s)).2 = (partState .within (some s)).atStart :=
      newline_nestedPieces (some s) rfl
    rw [hstate, partState, atStart_streamState, hu, Option.elim_some, hinline s rfl u hmem]

end Layout

namespace EmitContext
open Form Ident Layout Pattern Token
variable {cx : EmitContext} {preserve : Bool} {c : Cursor} {policy : UnknownPolicy} {line : Nat}
  {s : List Token} {t : Token} {text own rest : List Char}

/-- The characters that a token is written with. -/
theorem mem_tokenPieces (hformed : t.Formed) (hdirective : t.isDirective = false)
    (hblank : t.isBlank = false) (hw : cx.SpellsWords preserve)
    (h : cx.spell preserve (tokenPieces false c t).1 = .ok own) {d : Char} (hd : d ∈ own) :
    IsNumeric d ∨ d = '#' ∨ (d ∈ operators ∧ t.operator? = some [d]) ∨
      t.isDefinedTest = true ∧ (d = '(' ∨ d = ')') := by
  rcases spell_tokenPieces_of_formed hformed hdirective hw h with
    ⟨w, line, x, rfl, hword, rfl⟩ | ⟨x, line, rfl, hword, -⟩ | ⟨line, kind, rfl, hk⟩
  · have hopen : ∀ e ∈ definedOpen, (isIdentPart e || e == '(') = true :=
      List.all_eq_true.mp (by decide)
    simp only [Bool.or_eq_true, beq_iff_eq] at hopen
    rw [List.mem_append, List.mem_append, List.mem_singleton] at hd
    rcases hd with hd | hd | rfl
    · rcases hopen d hd with hd | rfl
      · exact Or.inl (Or.inl hd)
      · exact Or.inr (Or.inr (Or.inr ⟨rfl, Or.inl rfl⟩))
    · exact Or.inl (Or.inl (isIdentPart_of_mem hword d hd))
    · exact Or.inr (Or.inr (Or.inr ⟨rfl, Or.inr rfl⟩))
  · exact Or.inl (Or.inl (isIdentPart_of_mem hword d hd))
  · cases kind with
    | identifier => exact absurd rfl hk
    | tokenPaste =>
      obtain rfl : own = ['#', '#'] := hformed
      exact Or.inr (Or.inl (by simpa using hd))
    | operator =>
      obtain ⟨e, he, rfl⟩ := hformed
      obtain rfl := List.mem_singleton.mp hd
      exact Or.inr (Or.inr (Or.inl ⟨he, rfl⟩))
    | floatLiteral => exact Or.inl (IsFloat.isNumeric hformed d hd)
    | hexLiteral => exact Or.inl (IsHex.isNumeric hformed d hd)
    | intLiteral => exact Or.inl (IsInt.isNumeric hformed d hd)
    | unknown => exact hformed.elim
    | whitespace | lineComment | blockComment => cases hblank

/-- A line end behind what a token stops at is one more text that it stops at. -/
theorem stops_append_newline (hdirective : t.isDirective = false) (h : t.Stops text)
    (rest : List Char) : t.Stops (text ++ '\n' :: rest) := by
  cases text with
  | nil =>
    exact ⟨fun _ => endsWord_cons (by decide), fun _ => by simp, fun _ => by simp,
      fun hd => absurd (hdirective.symm.trans hd) Bool.false_ne_true⟩
  | cons d text =>
    refine ⟨fun hn => endsWord_cons (h.word hn d rfl), h.int, h.slash,
      fun hd => absurd (hdirective.symm.trans hd) Bool.false_ne_true⟩

/-- A token is part of the body of a directive. -/
theorem directiveBody_tokenPieces (hformed : t.Formed) (hdirective : t.isDirective = false)
    (hblank : t.isBlank = false) (hw : cx.SpellsWords preserve)
    (h : cx.spell preserve (tokenPieces false c t).1 = .ok own) (hstops : t.Stops rest) :
    directiveBody (own ++ rest) = own ++ directiveBody rest := by
  by_cases hslash : t.operator? = some ['/']
  · obtain ⟨line, rfl⟩ := operator?_eq_some hslash
    rw [tokenPieces_lexeme (by decide), spell_singleton_eq_ok] at h
    cases h
    exact directiveBody_cons_of_ne (by decide) (by decide) fun _ => hstops.slash rfl
  · refine directiveBody_append fun d hd => ?_
    rcases mem_tokenPieces hformed hdirective hblank hw h hd with
      (hd | hd) | rfl | ⟨hd, ho⟩ | ⟨-, rfl | rfl⟩
    · refine ⟨?_, ?_, ?_⟩ <;> rintro rfl <;> exact absurd hd (by decide)
    · refine ⟨?_, ?_, ?_⟩ <;> rintro rfl <;> exact absurd hd (by decide)
    · decide
    · refine ⟨?_, ?_, fun he => hslash (he ▸ ho)⟩ <;> rintro rfl <;> exact absurd hd (by decide)
    · decide
    · decide

/-- A stream without directives whose tokens are found again. -/
structure Inline (cx : EmitContext) (preserve : Bool) (policy : UnknownPolicy) (s : List Token) :
    Prop where
  apart : Apart s
  inline : ∀ u ∈ s, u.isDirective = false
  again : ∀ u ∈ s, u.isBlank = false → ReadAgain cx preserve policy u

theorem Inline.tail (h : Inline cx preserve policy (t :: s)) : Inline cx preserve policy s :=
  ⟨h.apart.tail, (List.forall_mem_cons.mp h.inline).2, (List.forall_mem_cons.mp h.again).2⟩

theorem Inline.gapBefore_cases (h : Inline cx preserve policy (t :: s)) (c : Cursor) :
    gapBefore c t = [] ∨ gapBefore c t = [' '] := by
  rcases EmitContext.gapBefore_cases c t with ⟨he, -⟩ | ⟨-, hd, -⟩ | ⟨he, -⟩
  · exact Or.inl he
  · rw [h.inline t List.mem_cons_self] at hd
    cases hd
  · exact Or.inr he

/-- The text of an inline stream is a whole body up to a line end behind it. -/
theorem Inline.directiveBody (h : Inline cx preserve policy s) (hw : cx.SpellsWords preserve)
    (ht : cx.spell preserve (streamPieces false c s).1 = .ok text) (rest : List Char) :
    directiveBody (text ++ '\n' :: rest) = text := by
  induction s generalizing c text with
  | nil =>
    rw [streamPieces_nil] at ht
    cases ht
    exact directiveBody_newline rest
  | cons t s ih =>
    cases hb : t.isWhitespace with
    | true =>
      rw [streamPieces_whitespace_cons hb] at ht
      exact ih h.tail ht
    | false =>
      obtain ⟨own, behind, rfl, hown, hbehind⟩ := spell_streamPieces_cons hb ht
      have hdirective := h.inline t List.mem_cons_self
      have hstops := stops_append_newline hdirective (stops_of_apart h.apart hb hw hbehind) rest
      have hgap : ∀ s, Pattern.directiveBody (gapBefore c t ++ s) =
          gapBefore c t ++ Pattern.directiveBody s := by
        intro s
        rcases h.gapBefore_cases c with he | he <;> rw [he]
        · rfl
        · exact directiveBody_cons_of_ne (by decide) (by decide) fun he => absurd he (by decide)
      rw [List.append_assoc, List.append_assoc, hgap,
        directiveBody_tokenPieces (h.apart.formed t List.mem_cons_self) hdirective
          (h.apart.isBlank hb) hw hown hstops, ih h.tail hbehind]

/-- The text of an argument list closes with its last character and with none before it. -/
theorem Inline.closes (h : Inline cx preserve policy s) (hclose : closesList s = true)
    (hw : cx.SpellsWords preserve)
    (ht : cx.spell preserve (streamPieces false c s).1 = .ok text) :
    ∃ w, ')' ∉ w ∧ text = w ++ [')'] := by
  have hgap : ∀ {t s}, Inline cx preserve policy (t :: s) → ∀ c, ')' ∉ gapBefore c t := by
    intro t s h c
    rcases h.gapBefore_cases c with he | he <;> rw [he] <;> decide
  induction s generalizing c text with
  | nil => cases hclose
  | cons t s ih =>
    cases s with
    | nil =>
      obtain ⟨line, rfl⟩ := operator?_eq_some (beq_iff_eq.mp hclose)
      obtain ⟨own, behind, rfl, hown, hbehind⟩ := spell_streamPieces_cons rfl ht
      rw [tokenPieces_lexeme (by decide), spell_singleton_eq_ok] at hown
      rw [streamPieces_nil] at hbehind
      cases hown
      cases hbehind
      exact ⟨_, hgap h c, rfl⟩
    | cons u s =>
      rw [closesList, Bool.and_eq_true, Bool.and_eq_true, Bool.not_eq_true'] at hclose
      cases hb : t.isWhitespace with
      | true =>
        rw [streamPieces_whitespace_cons hb] at ht
        exact ih h.tail hclose.2 ht
      | false =>
        obtain ⟨own, behind, rfl, hown, hbehind⟩ := spell_streamPieces_cons hb ht
        obtain ⟨w, hw', rfl⟩ := ih h.tail hclose.2 hbehind
        have hne : ')' ∉ own := by
          intro hm
          rcases mem_tokenPieces (h.apart.formed t List.mem_cons_self)
            (h.inline t List.mem_cons_self) (h.apart.isBlank hb) hw hown hm with
            (hd | hd) | hd | ⟨-, ho⟩ | ⟨htest, -⟩
          · exact absurd hd (by decide)
          · exact absurd hd (by decide)
          · exact absurd hd (by decide)
          · exact bne_iff_ne.mp hclose.1.1 ho
          · exact absurd (hclose.1.2.symm.trans htest) Bool.false_ne_true
        refine ⟨gapBefore c t ++ (own ++ w), ?_, by simp only [List.append_assoc]⟩
        simp only [List.mem_append, not_or]
        exact ⟨hgap h c, hne, hw'⟩

theorem Inline.exists_lexFrom (h : Inline cx preserve policy s) (hw : cx.SpellsWords preserve)
    (ht : cx.spell preserve (streamPieces false start s).1 = .ok text) (line : Nat) :
    ∃ again, (lexFrom policy line text).outcome = .ok again ∧
      outlineFrom asRead none false again = outlineFrom (cx.respell preserve) none false s :=
  lexFrom_streamPieces h.apart hw h.again ht line

theorem outlineFrom_none (spell : Bool → Ident → List Char) (separated : Bool)
    (tokens : List Token) : outlineFrom spell none separated tokens =
      outlineFrom spell none false tokens := by
  cases tokens with
  | nil => rw [outlineFrom_nil, outlineFrom_nil]
  | cons t ts =>
    cases hb : t.isBlank with
    | true => rw [outlineFrom_blank hb, outlineFrom_blank hb]
    | false =>
      rw [outlineFrom_cons hb, outlineFrom_cons hb]
      cases separated <;> rfl

theorem lexPart_eq_ok {again : List Token} (hne : text ≠ [])
    (h : (lexFrom policy line text).outcome = .ok again) :
    (lexPart policy line text).outcome = .ok (some again) := by
  rw [lexPart, if_neg hne, Scan.map_def, h]
  rfl

/-- An argument list that closes with its last token is found again behind the name of a macro. -/
theorem exists_lexPart_arguments {part : Option (List Token)}
    (h : ∀ s, part = some s → Inline cx preserve policy s ∧ closesList s = true ∧
      ∃ line ts, s = lexeme ['('] line .operator :: ts) (hw : cx.SpellsWords preserve)
    (ht : cx.spell preserve (nestedPieces false false part).1 = .ok text)
    (hrest : rest.head? ≠ some '(') :
    Pattern.arguments (text ++ rest) = text ∧ (EndsWord rest → EndsWord (text ++ rest)) ∧
      ∀ line, ∃ again, (lexPart policy line text).outcome = .ok again ∧
        outlinePart asRead again = outlinePart (cx.respell preserve) part := by
  cases part with
  | none =>
    rw [nestedPieces_none] at ht
    cases ht
    refine ⟨arguments_of_ne ?_, id, fun line => ⟨none, rfl, rfl⟩⟩
    rintro t he
    exact hrest (congrArg List.head? he)
  | some s =>
    obtain ⟨hinline, hclose, line, ts, rfl⟩ := h s rfl
    rw [nestedPieces_some] at ht
    obtain ⟨w, hm, rfl⟩ := hinline.closes hclose hw ht
    obtain ⟨own, behind, he, hown, -⟩ := spell_streamPieces_cons rfl ht
    rw [tokenPieces_lexeme (by decide), spell_singleton_eq_ok] at hown
    cases hown
    -- the parenthesis that opens the list is not the one that closes it
    obtain ⟨w, rfl⟩ : ∃ v, w = '(' :: v := by
      cases w with
      | nil => cases he
      | cons d w => exact ⟨w, by rw [(List.cons.inj he).1]⟩
    have hne : '(' :: w ++ [')'] ≠ [] := List.cons_ne_nil _ _
    refine ⟨?_, fun _ => endsWord_cons (by decide), fun line => ?_⟩
    · rw [List.append_assoc]
      exact arguments_of_mem fun hc => hm (List.mem_cons_of_mem _ hc)
    · obtain ⟨again, hagain, houtline⟩ := hinline.exists_lexFrom hw ht line
      exact ⟨some again, lexPart_eq_ok hne hagain, congrArg some houtline⟩

/-- The body of a macro is found again behind a space. -/
theorem exists_lexPart_body {part : Option (List Token)}
    (h : ∀ s, part = some s → Inline cx preserve policy s) (hw : cx.SpellsWords preserve)
    {newline : Bool} (ht : cx.spell preserve (nestedPieces false newline part).1 = .ok text) :
    let body := (if part = none then [] else [' ']) ++ text
    (∀ rest, Pattern.directiveBody (body ++ '\n' :: rest) = body) ∧
      (∀ rest, (body ++ '\n' :: rest).head? ≠ some '(' ∧ EndsWord (body ++ '\n' :: rest)) ∧
      ∀ line, ∃ again, (lexPart policy line body).outcome = .ok again ∧
        outlinePart asRead again = outlinePart (cx.respell preserve) part := by
  intro body
  cases part with
  | none =>
    rw [nestedPieces_none] at ht
    cases ht
    exact ⟨directiveBody_newline, fun rest => ⟨by simp [body], endsWord_cons (by decide)⟩,
      fun line => ⟨none, rfl, rfl⟩⟩
  | some s =>
    have hinline := h s rfl
    rw [nestedPieces_some] at ht
    have hbody : body = ' ' :: text := by simp [body]
    clear_value body
    subst hbody
    refine ⟨fun rest => ?_, fun rest => ⟨by simp, endsWord_cons (by decide)⟩, fun line => ?_⟩
    · have hstep : Pattern.directiveBody (' ' :: (text ++ '\n' :: rest)) = _ :=
        directiveBody_cons_of_ne (by decide) (by decide) fun he => absurd he (by decide)
      rw [List.cons_append, hstep, hinline.directiveBody hw ht rest]
    · have hspace := (begins_streamPieces hinline.apart hw ht).whitespace_eq_nil rfl rfl rfl
      have hfirst : first? ([' '] ++ text) = some (.lexeme [' '] .whitespace) :=
        first?_blank (by decide) hspace
      obtain ⟨again, hagain, houtline⟩ := hinline.exists_lexFrom hw ht (line + Text.newlines [' '])
      have hlex : (lexFrom policy line ([' '] ++ text)).outcome = _ := lexFrom_append hfirst
      rw [hagain] at hlex
      refine ⟨some (lexeme [' '] line .whitespace :: again),
        lexPart_eq_ok (List.cons_ne_nil _ _) hlex, ?_⟩
      rw [outlinePart, outlinePart, outlineFrom_blank rfl, outlineFrom_none, houtline]

/-- A directive that is found up to the line end behind it is found again. -/
theorem readAgain_of_line (hdirective : t.isDirective = true)
    (h : ∀ c own rest line, cx.spell preserve (tokenPieces false c t).1 = .ok own →
      ∃ u line', (∀ followsPoint', outlineOf asRead followsPoint' u =
          outlineOf (cx.respell preserve) (followsPoint c) t) ∧
        (lexFrom policy line (own ++ rest)).outcome =
          (lexFrom policy line' ('\n' :: rest)).outcome.map (u :: ·)) :
    ReadAgain cx preserve policy t := by
  intro c own rest line hown hstops
  obtain ⟨u, line', hu, hlex⟩ := h c own rest line hown
  have hfirst : first? (['\n'] ++ rest) = some (.lexeme ['\n'] .whitespace) :=
    first?_blank (by decide) (hstops.line hdirective)
  have hb := congrArg isBlank (hu false)
  have ho := congrArg operator? (hu false)
  rw [isBlank_outlineOf, isBlank_outlineOf, isBlank_of_isDirective hdirective] at hb
  rw [operator?_outlineOf, operator?_outlineOf] at ho
  refine ⟨[u, lexeme ['\n'] line' .whitespace], line' + Text.newlines ['\n'], ?_,
    fun separated again => ?_⟩
  · rw [hlex, ← List.singleton_append, lexFrom_append hfirst]
    cases (lexFrom policy (line' + Text.newlines ['\n']) rest).outcome <;> rfl
  · rw [List.cons_append, outlineFrom_cons hb, hu, ho, operator?_of_isDirective hdirective,
      List.singleton_append,
      outlineFrom_blank rfl, outlineFrom_none]

theorem readAgain_conditional {test : Conditional} {w : List Char} {name : Ident}
    (hname : IsName name) (hw : cx.SpellsWords preserve) :
    ReadAgain cx preserve policy (.conditional w line test name) := by
  refine readAgain_of_line rfl fun c own rest line' hown => ?_
  obtain ⟨spelled, hn, rfl⟩ := spell_conditional hown
  let form := Form.conditional [] test [' '] spelled
  have htext : '#' :: (test.keyword ++ [' ']) ++ spelled ++ ['\n'] ++ rest =
      form.text ++ '\n' :: rest := by simp [form, Form.text]
  have hfirst : first? (form.text ++ '\n' :: rest) = some form := by
    have hfound := first?_conditional test (hw name hname spelled hn)
      (endsWord_cons (c := '\n') (s := rest) (by decide))
    simpa [form, Form.text] using hfound
  refine ⟨.conditional form.text line' test spelled, line' + Text.newlines form.text,
    fun _ => ?_, ?_⟩
  · simp only [outlineOf, asRead]
    exact congrArg _ (nameOf_eq hn).symm
  · rw [htext, outcome_lexFrom_conditional hfirst, lexBehind_append]

theorem readAgain_define {w : List Char} {name : Ident} {arguments body : Option (List Token)}
    (hname : IsName name)
    (ha : ∀ s, arguments = some s → Inline cx preserve policy s ∧ closesList s = true ∧
      ∃ line ts, s = lexeme ['('] line .operator :: ts)
    (hb : ∀ s, body = some s → Inline cx preserve policy s ∧ lastWritten? s ≠ none)
    (hw : cx.SpellsWords preserve) :
    ReadAgain cx preserve policy (.define w line name arguments body) := by
  refine readAgain_of_line rfl fun c own rest line' hown => ?_
  obtain ⟨spelled, list, inner, close, hn, hlist, hinner, hclose, rfl⟩ := spell_define hown
  have hstart : (nestedPieces false false arguments).2 = false :=
    newline_nestedPieces_of_inline (fun s hs => (ha s hs).1.inline)
      fun s hs => lastWritten?_ne_none_of_closesList (ha s hs).2.1
  have hend : (nestedPieces false false body).2 = false :=
    newline_nestedPieces_of_inline (fun s hs => (hb s hs).1.inline) fun s hs => (hb s hs).2
  rw [hstart] at hinner hclose
  rw [hend] at hclose
  cases hclose
  have hbody := exists_lexPart_body (fun s hs => (hb s hs).1) hw hinner
  generalize htail : (if body = none then [] else [' ']) ++ inner = tail at hbody
  obtain ⟨hdirective, hhead, hlexBody⟩ := hbody
  obtain ⟨hclosed, hends, hlexList⟩ := exists_lexPart_arguments ha hw hlist (hhead rest).1
  obtain ⟨a, ha', houtlineA⟩ := hlexList line'
  obtain ⟨b, hb', houtlineB⟩ := hlexBody (line' + Text.newlines list)
  let form := Form.define [] [' '] spelled list tail
  have htext : ['#', 'd', 'e', 'f', 'i', 'n', 'e', ' '] ++ spelled ++ list ++
      (if body = none then [] else [' ']) ++ inner ++ (['\n'] ++ []) ++ rest =
      form.text ++ '\n' :: rest := by
    subst htail
    simp [form, Form.text, Keyword.text]
  have hfirst : first? (form.text ++ '\n' :: rest) = some form := by
    have hfound := first?_define (hw name hname spelled hn) (hends (hhead rest).2) hclosed
      (hdirective rest)
    simpa [form, Form.text] using hfound
  refine ⟨.define form.text line' spelled a b, line' + Text.newlines form.text, fun _ => ?_, ?_⟩
  · simp only [outlineOf, houtlineA, houtlineB, asRead]
    exact congrArg (define [] 0 · _ _) (nameOf_eq hn).symm
  · rw [htext, outcome_lexFrom_define hfirst ha' hb', lexBehind_append]

/-- A line is found whole behind its hash if it starts with a word that is not written as a
keyword. -/
theorem first?_directive_of_inline {x : Ident} {ts : List Token}
    (h : Inline cx preserve policy (lexeme x line .identifier :: ts))
    (hne : ∀ keyword : Keyword, cx.respell preserve false x ≠ keyword.text)
    (hw : cx.SpellsWords preserve)
    (ht : cx.spell preserve (streamPieces false start (lexeme x line .identifier :: ts)).1 =
      .ok text) (rest : List Char) :
    text ≠ [] ∧ first? ('#' :: (text ++ '\n' :: rest)) = some (.directive [] text) := by
  have hbody := h.directiveBody hw ht rest
  obtain ⟨own, behind, rfl, hown, hbehind⟩ := spell_streamPieces_cons rfl ht
  have hgap : gapBefore start (lexeme x line .identifier) = [] := rfl
  obtain ⟨hrespell, hword⟩ := spell_identifier hown
  have hown : IsWord own := hword hw (h.apart.formed _ List.mem_cons_self)
  have hstops := stops_append_newline rfl (stops_of_apart h.apart rfl hw hbehind) rest
  rw [hgap, List.nil_append] at hbody ⊢
  refine ⟨fun he => hown.ne_nil (List.append_eq_nil_iff.mp he).1,
    first?_directive_word hown (hstops.word rfl) (fun keyword => ?_) hbody⟩
  rw [hrespell]
  exact hne keyword

/-- A directive is found again if it is empty or starts with such a word. -/
theorem readAgain_directive {w : List Char} {body : Option (List Token)}
    (hb : ∀ s, body = some s → Inline cx preserve policy s ∧ ∃ x, leadingWord? s = some x ∧
      ∀ keyword : Keyword, cx.respell preserve false x ≠ keyword.text)
    (hw : cx.SpellsWords preserve) :
    ReadAgain cx preserve policy (.directive w line body) := by
  refine readAgain_of_line rfl fun c own rest line' hown => ?_
  obtain ⟨inner, close, hinner, hclose, rfl⟩ := spell_directive hown
  suffices h : (nestedPieces false false body).2 = false ∧
      first? ('#' :: (inner ++ '\n' :: rest)) = some (.directive [] inner) ∧
      ∃ again, (lexPart policy line' inner).outcome = .ok again ∧
        outlinePart asRead again = outlinePart (cx.respell preserve) body by
    obtain ⟨hend, hfirst, b, hb', houtline⟩ := h
    rw [hend] at hclose
    cases hclose
    let form := Form.directive [] inner
    have htext : '#' :: inner ++ (['\n'] ++ []) ++ rest = form.text ++ '\n' :: rest := by
      simp [form, Form.text]
    have hform : first? (form.text ++ '\n' :: rest) = some form := by
      simpa [form, Form.text] using hfirst
    refine ⟨.directive form.text line' b, line' + Text.newlines form.text, fun _ => ?_, ?_⟩
    · simp only [outlineOf, houtline]
    · rw [htext, outcome_lexFrom_directive hform hb', lexBehind_append]
  cases body with
  | none =>
    rw [nestedPieces_none] at hinner ⊢
    cases hinner
    exact ⟨rfl, first?_directive_nil rest, none, rfl, rfl⟩
  | some s =>
    obtain ⟨hinline, x, hx, hne⟩ := hb s rfl
    obtain ⟨line, ts, rfl⟩ := exists_of_leadingWord? hx
    have hend := @newline_nestedPieces_of_inline (some (lexeme x line .identifier :: ts))
      (fun s hs => Option.some.inj hs ▸ hinline.inline) fun s hs => by
        rw [← Option.some.inj hs, lastWritten?_cons rfl]
        exact Option.some_ne_none _
    rw [nestedPieces_some] at hinner
    obtain ⟨hnonempty, hfirst⟩ := first?_directive_of_inline hinline hne hw hinner rest
    obtain ⟨again, hagain, houtline⟩ := hinline.exists_lexFrom hw hinner line'
    exact ⟨hend, hfirst, some again, lexPart_eq_ok hnonempty hagain, congrArg some houtline⟩

/-- The parts of a preprocessor line fill it, as it is written. -/
def fillsLine (cx : EmitContext) (preserve : Bool) : Token → Bool
  | .define _ _ _ arguments body =>
    arguments.all closesList && body.all fun s => (lastWritten? s).isSome
  | .directive _ _ body => body.all fun s =>
    (leadingWord? s).any fun x => !lineKeywords.contains (cx.respell preserve false x)
  | _ => true

/-- A stream whose text is read back: its preprocessor lines are filled, no blank keeps a slash
from a comment or an integer from a point, and no name is written as `defined`. -/
structure Legible (cx : EmitContext) (preserve : Bool) (tokens : List Token) : Prop where
  inline : ∀ t ∈ tokens, ∀ part ∈ t.parts, ∀ u ∈ part, u.isDirective = false
  fills : ∀ t ∈ tokens, cx.fillsLine preserve t = true
  slash : ∀ stream ∈ streams tokens, KeepsSlashes stream
  int : ∀ stream ∈ streams tokens, KeepsIntsFromPoints stream
  defined : ∀ x ∈ mentioned tokens, ∀ followsPoint, cx.respell preserve followsPoint x ≠ definedWord

instance (cx : EmitContext) (preserve : Bool) (tokens : List Token) :
    Decidable (cx.Legible preserve tokens) :=
  decidable_of_iff ((∀ t ∈ tokens, ∀ part ∈ t.parts, ∀ u ∈ part, u.isDirective = false) ∧
      (∀ t ∈ tokens, cx.fillsLine preserve t = true) ∧
      (∀ stream ∈ streams tokens, KeepsSlashes stream) ∧
      (∀ stream ∈ streams tokens, KeepsIntsFromPoints stream) ∧
      ∀ x ∈ mentioned tokens, ∀ followsPoint, cx.respell preserve followsPoint x ≠ definedWord)
    ⟨fun h => ⟨h.1, h.2.1, h.2.2.1, h.2.2.2.1, h.2.2.2.2⟩,
      fun h => ⟨h.inline, h.fills, h.slash, h.int, h.defined⟩⟩

/-- The text of a legible stream without comments is lexed as its tokens, respelled. -/
theorem readsBack_of_legible {tokens : List Token} (h : cx.Legible true tokens)
    (hformed : ∀ t ∈ deep tokens, t.Formed) (hends : ∀ t ∈ deep tokens, t.EndsWords)
    (hcomment : ∀ t ∈ deep tokens, t.isComment = false) (hw : cx.SpellsWords true)
    (ht : cx.spell true (streamPieces false start tokens).1 = .ok text) :
    cx.ReadsBack tokens text := by
  have hself : ∀ {s}, ∀ t ∈ s, t ∈ deep s :=
    fun t ht => mem_deep_of_mem_withParts ht (self_mem_withParts t)
  have hapart : ∀ s ∈ streams tokens, deep s ⊆ deep tokens → Apart s := by
    intro s hs hdeep
    refine ⟨fun t ht => hformed t (hdeep (hself t ht)), fun t ht => hcomment t (hdeep (hself t ht)),
      h.slash s hs, ?_⟩
    have hfilter : s.filter (fun t => !t.isWhitespace) = s.filter fun t => !t.isBlank :=
      List.filter_congr fun t ht => by
        rw [isBlank, hcomment t (hdeep (hself t ht)), Bool.or_false]
    rw [hfilter]
    exact h.int s hs
  have hflat : ∀ u ∈ deep tokens, u.isDirective = false → u.isBlank = false →
      ReadAgain cx true cx.options.unknown u := by
    intro u hu hdirective hblank
    refine readAgain_of_formed (hformed u hu) hdirective hblank hw ?_
    rintro x line rfl
    exact h.defined x (List.mem_filterMap.mpr ⟨_, hu, rfl⟩)
  have hpart : ∀ t ∈ tokens, ∀ s ∈ t.parts, Inline cx true cx.options.unknown s := by
    intro t ht s hs
    have hdeep := deep_subset_of_mem_parts ht hs
    have hstream : s ∈ streams tokens :=
      List.mem_cons_of_mem _ (List.mem_flatMap.mpr ⟨t, hself t ht, hs⟩)
    exact ⟨hapart s hstream hdeep, h.inline t ht s hs,
      fun u hu => hflat u (hdeep (hself u hu)) (h.inline t ht s hs u hu)⟩
  have hread : ∀ t ∈ tokens, t.isBlank = false → ReadAgain cx true cx.options.unknown t := by
    intro t ht hblank
    have hfills := h.fills t ht
    cases t with
    | define w line name arguments body =>
      rw [fillsLine, Bool.and_eq_true] at hfills
      refine readAgain_define (hformed _ (hself _ ht)) (fun s hs => ?_) (fun s hs => ?_) hw
      · subst hs
        exact ⟨hpart _ ht s (List.mem_append_left _ List.mem_cons_self), hfills.1,
          hends _ (hself _ ht) s rfl⟩
      · subst hs
        exact ⟨hpart _ ht s (List.mem_append_right _ List.mem_cons_self),
          Option.isSome_iff_ne_none.mp hfills.2⟩
    | conditional w line test name => exact readAgain_conditional (hformed _ (hself _ ht)) hw
    | directive w line body =>
      refine readAgain_directive (fun s hs => ?_) hw
      subst hs
      obtain ⟨x, hx, hkeyword⟩ := (Option.any_eq_true _ _).mp hfills
      refine ⟨hpart _ ht s List.mem_cons_self, x, hx, fun keyword he => ?_⟩
      rw [he] at hkeyword
      simp [text_mem_lineKeywords keyword] at hkeyword
    | definedTest | lexeme => exact hflat _ (hself _ ht) rfl hblank
  obtain ⟨again, hagain, houtline⟩ := lexFrom_streamPieces
    (hapart tokens (self_mem_streams tokens) (List.Subset.refl _)) hw hread ht 1
  exact ⟨again, hagain, houtline⟩

/-- A macro with a parameter, and a test of another macro. -/
example : Legible ⟨⟨[]⟩, Catalog.empty, {}⟩ true
    [.define "#define F(x) x+x".toList 1 ['F']
      (some [.lexeme ['('] 1 .operator, .lexeme ['x'] 1 .identifier, .lexeme [')'] 1 .operator])
      (some [.lexeme [' '] 1 .whitespace, .lexeme ['x'] 1 .identifier, .lexeme ['+'] 1 .operator,
        .lexeme ['x'] 1 .identifier]),
    .directive "#if K".toList 2 (some [.lexeme ['i', 'f'] 2 .identifier,
      .lexeme [' '] 2 .whitespace, .lexeme ['K'] 2 .identifier])] := by decide

end EmitContext

end ShaderPress
