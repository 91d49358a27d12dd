import ShaderPress.Proofs.Rename.Words
import ShaderPress.Proofs.Shader.Directive
import ShaderPress.Proofs.Shader.Spelling
import ShaderPress.Proofs.Token.Formed

/-! # A written stream is read back

A token is written so that it ends where it ended, whatever is written behind it: a word or
number is followed by a space, a line end, a hash or an operator, a slash by no slash or
star, an integer by a point only where a blank in the source kept the two apart, and a
preprocessor line by no blank.  So the text of a stream without preprocessor lines is read as
the lexemes of its tokens.
-/
namespace ShaderPress

namespace EmitContext

/-- What an identifier is called; one without a name keeps its spelling. -/
def nameOf (cx : EmitContext) (preserve : Bool) (x : Ident) : List Char :=
  match cx.spelling preserve x with
  | .ok name => name
  | .error _ => x

/-- What is written for an identifier: its canonical spelling where it is an accessor behind a
point, its name elsewhere. -/
def respell (cx : EmitContext) (preserve followsPoint : Bool) (x : Ident) : List Char :=
  match followsPoint, Ident.canonicalSwizzle? x with
  | true, some swizzle => swizzle
  | _, _ => cx.nameOf preserve x

/-- Names that are words, for all names of a source. -/
def SpellsWords (cx : EmitContext) (preserve : Bool) : Prop :=
  ∀ x, Ident.IsName x → ∀ name, cx.spelling preserve x = .ok name → Pattern.IsWord name

end EmitContext

namespace Token
open Pattern

def isUnsuffixedInt : Token → Bool
  | lexeme text _ .intLiteral => text.getLast? != some 'u'
  | _ => false

/-- No slash stands directly before a slash or a star. -/
def KeepsSlashes (tokens : List Token) : Prop := tokens.IsChain fun a b =>
  ¬ (a.operator? = some ['/'] ∧ (b.operator? = some ['/'] ∨ b.operator? = some ['*']))

instance (tokens : List Token) : Decidable (KeepsSlashes tokens) :=
  inferInstanceAs (Decidable (tokens.IsChain _))

/-- A stream of formed tokens without comments, in which no slash starts a comment and no
unsuffixed integer stands before a point. -/
structure Apart (tokens : List Token) : Prop where
  formed : ∀ t ∈ tokens, t.Formed
  comment : ∀ t ∈ tokens, t.isComment = false
  slash : KeepsSlashes tokens
  int : (tokens.filter fun t => !t.isWhitespace).IsChain fun a b =>
    ¬ (a.isUnsuffixedInt = true ∧ b.isPoint = true)

/-- Such a stream without preprocessor lines and token pastes. -/
structure Readable (tokens : List Token) : Prop extends Apart tokens where
  shaped : ∀ t ∈ tokens, t.Shaped

theorem Apart.tail {t : Token} {ts : List Token} (h : Apart (t :: ts)) : Apart ts := by
  obtain ⟨hformed, hcomment, hslash, hint⟩ := h
  refine ⟨(List.forall_mem_cons.mp hformed).2, (List.forall_mem_cons.mp hcomment).2, hslash.tail,
    ?_⟩
  rw [List.filter_cons] at hint
  split at hint
  · exact hint.tail
  · exact hint

theorem Apart.isBlank {t : Token} {ts : List Token} (h : Apart (t :: ts))
    (hw : t.isWhitespace = false) : t.isBlank = false := by
  rw [Token.isBlank, hw, h.comment t List.mem_cons_self]
  rfl

theorem Readable.tail {t : Token} {ts : List Token} (h : Readable (t :: ts)) : Readable ts :=
  ⟨h.toApart.tail, (List.forall_mem_cons.mp h.shaped).2⟩

/-- A text behind a token that does not go on with it. -/
structure Stops (t : Token) (rest : List Char) : Prop where
  word : t.needsSpacing = true → EndsWord rest
  int : t.isUnsuffixedInt = true → rest.head? ≠ some '.'
  slash : t.operator? = some ['/'] → rest.head? ≠ some '/' ∧ rest.head? ≠ some '*'
  line : t.isDirective = true → whitespace rest = []

theorem isDirective_of_shaped {t : Token} (h : t.Shaped) : t.isDirective = false := by
  cases t <;> first | rfl | exact h.elim

end Token

namespace EmitContext
open Form Ident Layout Pattern Token
variable {cx : EmitContext} {preserve : Bool} {c : Cursor}

theorem spell_singleton_eq_ok {p : Piece} {text : List Char} :
    cx.spell preserve [p] = .ok text ↔ cx.spellPiece preserve p = .ok text := by
  rw [spell_cons_eq_ok]
  constructor
  · rintro ⟨a, b, ha, hb, rfl⟩
    cases hb
    rwa [List.append_nil]
  · exact fun h => ⟨text, [], h, rfl, (List.append_nil text).symm⟩

theorem nameOf_eq {x : Ident} {name : List Char} (h : cx.spelling preserve x = .ok name) :
    cx.nameOf preserve x = name := by
  simp only [nameOf, h]

theorem spell_identifier {x : Ident} {text : List Char}
    (h : cx.spell preserve [Layout.identifier c x] = .ok text) :
    text = cx.respell preserve (followsPoint c) x ∧
      (cx.SpellsWords preserve → IsName x → IsWord text) := by
  rw [spell_singleton_eq_ok] at h
  have named : cx.spelling preserve x = .ok text → text = cx.nameOf preserve x ∧
      (cx.SpellsWords preserve → IsName x → IsWord text) :=
    fun hn => ⟨(nameOf_eq hn).symm, fun hw hx => hw x hx text hn⟩
  by_cases hp : c.operator = some ['.']
  · have hf : followsPoint c = true := by simp [followsPoint, hp]
    cases hs : canonicalSwizzle? x with
    | some swizzle =>
      simp only [Layout.identifier, hp, hs, if_true] at h
      cases h
      exact ⟨by simp only [respell, hf, hs], fun _ _ => isWord_canonicalSwizzle? hs⟩
    | none =>
      simp only [Layout.identifier, hp, hs, if_true] at h
      simpa only [respell, hf, hs] using named h
  · have hf : followsPoint c = false := by simp [followsPoint, hp]
    simp only [Layout.identifier, hp, if_false] at h
    simpa only [respell, hf] using named h

/-- What a formed token is written as if it is no preprocessor line: a test with the name of what
it tests, an identifier respelled and any other lexeme as it stands. -/
theorem spell_tokenPieces_of_formed {t : Token} (hformed : t.Formed) (hd : t.isDirective = false)
    (hw : cx.SpellsWords preserve) {text : List Char}
    (h : cx.spell preserve (tokenPieces false c t).1 = .ok text) :
    (∃ w line x, t = .definedTest w line x ∧ IsWord (cx.nameOf preserve x) ∧
      text = definedOpen ++ (cx.nameOf preserve x ++ [')'])) ∨
    (∃ x line, t = .lexeme x line .identifier ∧ IsWord text ∧
      text = cx.respell preserve (followsPoint c) x) ∨
    ∃ line kind, t = .lexeme text line kind ∧ kind ≠ .identifier := by
  cases t with
  | definedTest w line x =>
    rw [tokenPieces, spell_fixed_eq_ok] at h
    obtain ⟨tail, h, rfl⟩ := h
    obtain ⟨spelled, close, hn, hclose, rfl⟩ := spell_cons_eq_ok.mp h
    rw [spell_singleton_eq_ok] at hclose
    cases hclose
    have hname : cx.nameOf preserve x = spelled := nameOf_eq hn
    refine Or.inl ⟨w, line, x, rfl, ?_, ?_⟩
    · rw [hname]
      exact hw x hformed spelled hn
    · rw [hname]
      rfl
  | lexeme w line kind =>
    by_cases hk : kind = .identifier
    · subst hk
      rw [tokenPieces] at h
      obtain ⟨htext, hword⟩ := spell_identifier h
      exact Or.inr (Or.inl ⟨w, line, rfl, hword hw hformed, htext⟩)
    · rw [tokenPieces_lexeme hk, spell_singleton_eq_ok] at h
      cases h
      exact Or.inr (Or.inr ⟨line, kind, rfl, hk⟩)
  | _ => cases hd

theorem hash_of_isDirective {t : Token} (hd : t.isDirective = true) {text : List Char}
    (h : cx.spell preserve (tokenPieces false c t).1 = .ok text) : ∃ s, text = '#' :: s := by
  cases t with
  | define | conditional | directive =>
    rw [tokenPieces] at h
    obtain ⟨s, -, rfl⟩ := spell_fixed_eq_ok.mp h
    exact ⟨_, rfl⟩
  | _ => cases hd

/-- How the text of a token starts: a word or number with a character of a word, a preprocessor
line or token paste with a hash. -/
theorem head_tokenPieces {t : Token} (hformed : t.Formed) (hblank : t.isBlank = false)
    (hw : cx.SpellsWords preserve) {text : List Char}
    (h : cx.spell preserve (tokenPieces false c t).1 = .ok text) :
    (t.needsSpacing = true ∧ ∃ d s, text = d :: s ∧ isIdentPart d = true) ∨
      (∃ d ∈ operators, t.operator? = some [d] ∧ text = [d]) ∨ ∃ s, text = '#' :: s := by
  have number : ∀ {d w : List Char}, IsDigits d →
      ∃ a s, d ++ w = a :: s ∧ isIdentPart a = true := by
    intro d w hd
    obtain ⟨a, s, rfl⟩ := List.exists_cons_of_ne_nil hd.nonempty
    exact ⟨a, s ++ w, rfl, isIdentPart_of_isDigit (hd.digit a List.mem_cons_self)⟩
  cases hdirective : t.isDirective with
  | true => exact Or.inr (Or.inr (hash_of_isDirective hdirective h))
  | false =>
    rcases spell_tokenPieces_of_formed hformed hdirective hw h with
      ⟨w, line, x, rfl, -, rfl⟩ | ⟨x, line, rfl, hword, -⟩ | ⟨line, kind, rfl, hk⟩
    · exact Or.inl ⟨rfl, _, _, rfl, by decide⟩
    · refine Or.inl ⟨rfl, ?_⟩
      cases text with
      | nil => exact hword.elim
      | cons d s => exact ⟨d, s, rfl, isIdentPart_of_isIdentStart hword.1⟩
    · cases kind with
      | identifier => exact absurd rfl hk
      | tokenPaste => exact Or.inr (Or.inr ⟨['#'], hformed⟩)
      | operator =>
        obtain ⟨d, hd, rfl⟩ := hformed
        exact Or.inr (Or.inl ⟨d, hd, rfl, rfl⟩)
      | floatLiteral =>
        refine Or.inl ⟨rfl, ?_⟩
        cases hformed with
        | point hd | exponent hd => exact number hd
      | hexLiteral =>
        refine Or.inl ⟨rfl, ?_⟩
        cases hformed
        exact ⟨_, _, rfl, by decide⟩
      | intLiteral =>
        refine Or.inl ⟨rfl, ?_⟩
        cases hformed with
        | plain hd => simpa using number (w := []) hd
        | unsigned hd => exact number hd
      | unknown => exact hformed.elim
      | whitespace | lineComment | blockComment => cases hblank

theorem whitespace_of_tokenPieces {t : Token} (hformed : t.Formed) (hblank : t.isBlank = false)
    (hw : cx.SpellsWords preserve) {text : List Char}
    (h : cx.spell preserve (tokenPieces false c t).1 = .ok text) (rest : List Char) :
    whitespace (text ++ rest) = [] := by
  rcases head_tokenPieces hformed hblank hw h with
    ⟨-, d, s, rfl, hd⟩ | ⟨d, hd, -, rfl⟩ | ⟨s, rfl⟩
  · refine whitespace_cons_of_ne (isBlank_of_isIdentPart hd) ?_
    rintro rfl
    exact absurd hd (by decide)
  · refine whitespace_cons_of_ne (isBlank_of_mem_operators hd) ?_
    rintro rfl
    exact absurd hd (by decide)
  · exact whitespace_cons_of_ne (by decide) (by decide)

/-- A lexeme that is no name is found again in front of a text that it stops at. -/
theorem plain?_of_shaped {w : List Char} {line : Nat} {kind : Lexeme}
    (hshaped : (lexeme w line kind).Shaped) (hblank : (lexeme w line kind).isBlank = false)
    (hk : kind ≠ .identifier) {rest : List Char} (hstops : (lexeme w line kind).Stops rest) :
    plain? (w ++ rest) = some (.lexeme w kind) := by
  cases kind with
  | identifier => exact absurd rfl hk
  | operator =>
    obtain ⟨d, hd, rfl⟩ := hshaped
    refine plain?_operator hd ?_
    rintro rfl
    exact hstops.slash rfl
  | floatLiteral => exact plain?_float hshaped (hstops.word rfl)
  | hexLiteral => exact plain?_hex hshaped (hstops.word rfl)
  | intLiteral =>
    refine plain?_int hshaped (hstops.word rfl) ?_
    by_cases hu : w.getLast? = some 'u'
    · exact Or.inl hu
    · exact Or.inr (hstops.int (by simpa [isUnsuffixedInt] using hu))
  | tokenPaste | unknown => exact hshaped.elim
  | whitespace | lineComment | blockComment => cases hblank

/-- A token is read back whole in front of a text that it stops at. -/
theorem readPlain_tokenPieces {t : Token} (hshaped : t.Shaped) (hblank : t.isBlank = false)
    (hw : cx.SpellsWords preserve) {text rest : List Char}
    (h : cx.spell preserve (tokenPieces false c t).1 = .ok text) (hstops : t.Stops rest) :
    readPlain (text ++ rest) =
      lexemesOf (cx.respell preserve) (followsPoint c) t ++ readPlain rest := by
  rcases spell_tokenPieces_of_formed hshaped.formed (isDirective_of_shaped hshaped) hw h with
    ⟨w, line, x, rfl, hword, rfl⟩ | ⟨x, line, rfl, hword, rfl⟩ | ⟨line, kind, rfl, hk⟩
  · have hends : EndsWord (')' :: rest) := endsWord_cons (by decide)
    change _ = definedLexemes (cx.nameOf preserve x) ++ _
    rw [List.append_assoc, List.append_assoc, List.singleton_append, readPlain_definedOpen,
      readPlain_append (by decide) (plain?_word hword hends), readPlain_close]
    rfl
  · exact readPlain_append (by decide) (plain?_word hword (hstops.word rfl))
  · rw [readPlain_lexeme (plain?_of_shaped hshaped hblank hk hstops), List.drop_left]
    cases kind <;> first | rfl | exact absurd rfl hk

/-- Whether a space is called for before a token. -/
def callsForSpace (c : Cursor) (t : Token) : Bool :=
  t.needsSpacing && c.needsSpacing || c.separated && mergesWith c.operator t.operator?

theorem streamPieces_whitespace_cons {t : Token} (ht : t.isWhitespace = true) (ts : List Token) :
    streamPieces false c (t :: ts) = streamPieces false { c with separated := true } ts := by
  rw [streamPieces, if_pos ht, if_neg Bool.false_ne_true]

/-- What stands before a token: a line end before a preprocessor line that does not start one, or
a space if it is called for. -/
def gapBefore (c : Cursor) (t : Token) : List Char :=
  if t.isDirective && !c.newline then ['\n'] else if callsForSpace c t then [' '] else []

/-- What stands before a token is a single blank, if anything. -/
theorem gapBefore_cases (c : Cursor) (t : Token) : gapBefore c t = [] ∧ callsForSpace c t = false ∨
    gapBefore c t = ['\n'] ∧ t.isDirective = true ∧ c.newline = false ∨
      gapBefore c t = [' '] ∧ callsForSpace c t = true := by
  rw [gapBefore]
  cases hd : t.isDirective && !c.newline with
  | true =>
    rw [Bool.and_eq_true, Bool.not_eq_true'] at hd
    exact Or.inr (Or.inl ⟨rfl, hd⟩)
  | false =>
    cases callsForSpace c t with
    | true => exact Or.inr (Or.inr ⟨rfl, rfl⟩)
    | false => exact Or.inl ⟨rfl, rfl⟩

/-- The text of a stream is that of its first token, what stands before it, and that of the
others. -/
theorem spell_streamPieces_cons {t : Token} (hw : t.isWhitespace = false) {ts : List Token}
    {text : List Char} (h : cx.spell preserve (streamPieces false c (t :: ts)).1 = .ok text) :
    ∃ own rest, text = gapBefore c t ++ (own ++ rest) ∧
      cx.spell preserve (tokenPieces false c t).1 = .ok own ∧
      cx.spell preserve (streamPieces false (advance false c t) ts).1 = .ok rest := by
  rw [streamPieces_cons, Layout.written, hw, if_neg Bool.false_ne_true,
    spell_append_eq_ok] at h
  obtain ⟨front, rest, hfront, hrest, rfl⟩ := h
  obtain ⟨space, own, hspace, hown, rfl⟩ := spell_append_eq_ok.mp hfront
  refine ⟨own, rest, ?_, hown, hrest⟩
  have he : space = gapBefore c t := by
    rw [separator] at hspace
    rw [gapBefore, callsForSpace]
    generalize (t.isDirective && !c.newline) = line at hspace ⊢
    generalize (t.needsSpacing && c.needsSpacing) = words at hspace ⊢
    generalize (c.separated && mergesWith c.operator t.operator?) = operators at hspace ⊢
    cases line <;> cases words <;> cases operators <;> cases hspace <;> rfl
  rw [← he, List.append_assoc]

/-- How the text of a stream begins behind a cursor. -/
inductive Begins (c : Cursor) (ts : List Token) : List Char → Prop
  | nil : Begins c ts []
  | space (s : List Char) (h : c.needsSpacing = true ∨ c.operator ≠ none) : Begins c ts (' ' :: s)
  | line (s : List Char) (h : c.newline = false) : Begins c ts ('\n' :: s)
  | hash (s : List Char) : Begins c ts ('#' :: s)
  | word (d : Char) (s : List Char) (hd : isIdentPart d = true) (h : c.needsSpacing = false) :
    Begins c ts (d :: s)
  /-- The first token is an operator, which does not merge with one before the blanks. -/
  | operator (d : Char) (s : List Char) (pre post : List Token) (t : Token) (hd : d ∈ operators)
    (hts : ts = pre ++ t :: post) (hpre : ∀ u ∈ pre, u.isWhitespace = true)
    (ht : t.isWhitespace = false) (ho : t.operator? = some [d])
    (hmerge : c.separated = true ∨ pre ≠ [] → mergesWith c.operator (some [d]) = false) :
    Begins c ts (d :: s)

theorem Begins.whitespace_eq_nil {ts : List Token} {text : List Char} (h : Begins c ts text)
    (hs : c.needsSpacing = false) (ho : c.operator = none) (hn : c.newline = true) :
    whitespace text = [] := by
  cases h with
  | nil => rfl
  | space s h => exact h.elim (fun h => absurd (hs.symm.trans h) Bool.false_ne_true) (absurd ho)
  | line s h => exact absurd (h.symm.trans hn) Bool.false_ne_true
  | hash s => exact whitespace_cons_of_ne (by decide) (by decide)
  | word d s hd =>
    refine whitespace_cons_of_ne (isBlank_of_isIdentPart hd) ?_
    rintro rfl
    exact absurd hd (by decide)
  | operator d s pre post t hd =>
    refine whitespace_cons_of_ne (isBlank_of_mem_operators hd) ?_
    rintro rfl
    exact absurd hd (by decide)

theorem operator_of_callsForSpace {t : Token} (h : callsForSpace c t = true) :
    c.needsSpacing = true ∨ c.operator ≠ none := by
  rw [callsForSpace, Bool.or_eq_true, Bool.and_eq_true, Bool.and_eq_true] at h
  refine h.imp And.right fun h hn => ?_
  have hm := h.2
  rw [hn] at hm
  cases hm

theorem begins_streamPieces {ts : List Token} (h : Apart ts) (hw : cx.SpellsWords preserve)
    {text : List Char} (ht : cx.spell preserve (streamPieces false c ts).1 = .ok text) :
    Begins c ts text := by
  induction ts generalizing c with
  | nil =>
    rw [streamPieces_nil] at ht
    cases ht
    exact .nil
  | cons t ts ih =>
    cases hb : t.isWhitespace with
    | true =>
      rw [streamPieces_whitespace_cons hb] at ht
      cases ih h.tail ht with
      | nil => exact .nil
      | space s hs => exact .space s hs
      | line s hs => exact .line s hs
      | hash s => exact .hash s
      | word d s hd hs => exact .word d s hd hs
      | operator d s pre post u hd hts hpre hu ho hmerge =>
        exact .operator d s (t :: pre) post u hd (by rw [hts, List.cons_append])
          (List.forall_mem_cons.mpr ⟨hb, hpre⟩) hu ho fun _ => hmerge (Or.inl rfl)
    | false =>
      obtain ⟨own, rest, rfl, hown, -⟩ := spell_streamPieces_cons hb ht
      rcases gapBefore_cases c t with ⟨he, hcall⟩ | ⟨he, -, hn⟩ | ⟨he, hcall⟩
      · rw [he, List.nil_append]
        rw [callsForSpace, Bool.or_eq_false_iff] at hcall
        rcases head_tokenPieces (h.formed t List.mem_cons_self) (h.isBlank hb) hw hown with
          ⟨hspace, d, s, rfl, hd⟩ | ⟨d, hd, ho, rfl⟩ | ⟨s, rfl⟩
        · rw [hspace, Bool.true_and] at hcall
          exact .word d (s ++ rest) hd hcall.1
        · refine .operator d rest [] ts t hd rfl (fun u hu => absurd hu List.not_mem_nil) hb ho ?_
          rintro (hsep | hne)
          · rw [hsep, ho, Bool.true_and] at hcall
            exact hcall.2
          · exact absurd rfl hne
        · exact .hash (s ++ rest)
      · rw [he]
        exact .line _ hn
      · rw [he]
        exact .space _ (operator_of_callsForSpace hcall)

/-- What is written behind a token does not go on with it. -/
theorem stops_of_apart {t : Token} {ts : List Token} (h : Apart (t :: ts))
    (hb : t.isWhitespace = false) (hw : cx.SpellsWords preserve) {rest : List Char}
    (hrest : cx.spell preserve (streamPieces false (advance false c t) ts).1 = .ok rest) :
    t.Stops rest := by
  have hadvance : advance false c t = afterToken false (tokenPieces false c t).2 t := by
    rw [advance, hb, if_neg Bool.false_ne_true]
  rw [hadvance] at hrest
  have hbegins := begins_streamPieces h.tail hw hrest
  have hline : t.isDirective = true → whitespace rest = [] := by
    intro hd
    exact hbegins.whitespace_eq_nil (needsSpacing_of_isDirective hd) (operator?_of_isDirective hd)
      (by simp [afterToken, hd])
  cases hbegins with
  | nil =>
    refine ⟨fun _ d hd => ?_, fun _ => by simp, fun _ => by simp, hline⟩
    cases hd
  | space s | line s | hash s =>
    exact ⟨fun _ => endsWord_cons (by decide), fun _ => by simp, fun _ => by simp, hline⟩
  | word d s hd hspace =>
    have hne : ∀ e, isIdentPart e = false → (d :: s).head? ≠ some e := by
      intro e he hh
      obtain rfl := Option.some.inj hh
      rw [hd] at he
      cases he
    exact ⟨fun hn => absurd (hspace.symm.trans hn) Bool.false_ne_true, fun _ => hne '.' (by decide),
      fun _ => ⟨hne '/' (by decide), hne '*' (by decide)⟩, hline⟩
  | operator d s pre post u hd hts hpre hu ho hmerge =>
    subst hts
    refine ⟨fun _ => endsWord_cons (isIdentPart_of_mem_operators hd), fun hn hp => ?_, fun hn => ?_,
      hline⟩
    · obtain rfl := Option.some.inj hp
      have hint := h.int
      have hfilter : (t :: (pre ++ u :: post)).filter (fun t => !t.isWhitespace) =
          t :: u :: post.filter fun t => !t.isWhitespace := by
        have hnil : pre.filter (fun t => !t.isWhitespace) = [] :=
          List.filter_eq_nil_iff.mpr fun v hv => by simp [hpre v hv]
        simp [List.filter_append, hnil, hb, hu]
      rw [hfilter, List.isChain_cons_cons] at hint
      exact hint.1 ⟨hn, by simp [isPoint, ho]⟩
    · have hslash : ¬ (d = '/' ∨ d = '*') := by
        intro hd
        by_cases hnil : pre = []
        · subst hnil
          have hchain := (List.isChain_cons_cons.mp h.slash).1
          refine hchain ⟨hn, ?_⟩
          rw [ho]
          exact hd.imp (fun h => by rw [h]) fun h => by rw [h]
        · have hm := hmerge (Or.inr hnil)
          change mergesWith t.operator? (some [d]) = false at hm
          rw [hn] at hm
          rcases hd with rfl | rfl <;> cases hm
      exact ⟨fun hp => hslash (Or.inl (Option.some.inj hp)),
        fun hp => hslash (Or.inr (Option.some.inj hp))⟩

/-- The text of a stream is read as the lexemes of its tokens, each identifier respelled. -/
theorem readPlain_streamPieces {ts : List Token} (h : Readable ts) (hw : cx.SpellsWords preserve)
    {text : List Char} (ht : cx.spell preserve (streamPieces false c ts).1 = .ok text) :
    readPlain text = lexemes (cx.respell preserve) (followsPoint c) ts := by
  induction ts generalizing c text with
  | nil =>
    rw [streamPieces_nil] at ht
    cases ht
    rw [readPlain_nil, lexemes]
  | cons t ts ih =>
    cases hb : t.isWhitespace with
    | true =>
      have hnone : lexemesOf (cx.respell preserve) (followsPoint c) t = [] := by
        cases t with
        | lexeme text line kind => cases kind <;> first | rfl | cases hb
        | _ => cases hb
      rw [streamPieces_whitespace_cons hb] at ht
      rw [lexemes, hnone, hb, ih h.tail ht]
      rfl
    | false =>
      have hshaped := h.shaped t List.mem_cons_self
      have hblank := h.isBlank hb
      obtain ⟨own, rest, rfl, hown, hrest⟩ := spell_streamPieces_cons hb ht
      have hstops := stops_of_apart h.toApart hb hw hrest
      have hread := readPlain_tokenPieces hshaped hblank hw hown hstops
      have hspace := whitespace_of_tokenPieces hshaped.formed hblank hw hown rest
      have htext : readPlain (gapBefore c t ++ (own ++ rest)) = readPlain (own ++ rest) := by
        rcases gapBefore_cases c t with ⟨he, -⟩ | ⟨-, hd, -⟩ | ⟨he, -⟩
        · rw [he, List.nil_append]
        · rw [isDirective_of_shaped hshaped] at hd
          cases hd
        · rw [he]
          exact readPlain_space hspace
      have hpoint : followsPoint (advance false c t) = t.isPoint := by
        rw [followsPoint_advance (h.comment t List.mem_cons_self), hblank,
          if_neg Bool.false_ne_true]
      rw [htext, hread, ih h.tail hrest, lexemes, hb, if_neg Bool.false_ne_true, hpoint]

end EmitContext

end ShaderPress
