import ShaderPress.Proofs.Shader.Rereading
import ShaderPress.Proofs.Shader.Spacing
import ShaderPress.Proofs.Token.PlainLines

/-! # Texts that are read back

The text of a stream without preprocessor lines is not only read as the lexemes of the
stream: the lexer finds the tokens themselves, with a blank wherever two operators were
kept apart.  The exception is a `defined` that the source writes apart from its
parenthesis, since the written text makes a test of it.
-/
namespace ShaderPress

namespace Form
open Ident Pattern
variable {s w name rest : List Char} {kind : Lexeme}

theorem first?_definedTest (hname : IsWord name) :
    first? (definedOpen ++ (name ++ ')' :: rest)) = some (definedTest name) := by
  have hid : identifier (name ++ ')' :: rest) = name :=
    identifier_append hname (endsWord_cons (by decide))
  have hafter : afterWord? definedOpen (definedOpen ++ (name ++ ')' :: rest)) =
      some (name ++ ')' :: rest) := by
    rw [afterWord?, if_pos (List.isPrefixOf_iff_prefix.mpr (List.prefix_append _ _)),
      List.drop_left]
  have hne : name.isEmpty = false := by
    rw [List.isEmpty_eq_false_iff]
    exact hname.ne_nil
  have hhead : (definedOpen ++ (name ++ ')' :: rest)).head? ≠ some '#' := by
    intro hh
    cases hh
  rw [first?_of_head_ne hhead, definedTest?, hafter]
  simp only [hid, hne, List.drop_left, Option.some_or]

theorem plain?_hash (s : List Char) : plain? ('#' :: s) = some (unknown '#') := by
  have hid : identifier ('#' :: s) = [] := rfl
  rw [plain?_cons_of_isDigit_eq_false (by decide) (by decide) (by decide) (by decide)]
  simp only [List.findSome?_cons, lexeme?_eq_none hid, unknown?]

/-- What the plain rules find is found, but for the word that opens a test. -/
theorem first?_of_plain? (h : plain? s = some (lexeme w kind))
    (hw : kind = .identifier → w ≠ definedWord) : first? s = some (lexeme w kind) := by
  have hhash : s.head? ≠ some '#' := by
    intro hh
    obtain ⟨t, rfl⟩ := List.head?_eq_some_iff.mp hh
    rw [plain?_hash] at h
    cases h
  rw [first?_of_head_ne hhash]
  cases hd : definedTest? s with
  | none => rw [Option.none_or, h]
  | some f =>
    obtain ⟨name, rest, -, -, -, he⟩ := definedTest?_cases hd
    have hs : s = definedWord ++ '(' :: (name ++ ')' :: rest) := he
    rw [hs, plain?_definedWord] at h
    cases h
    exact absurd rfl (hw rfl)

end Form

namespace EmitContext
open Form Ident Layout Pattern Token
variable {cx : EmitContext} {preserve : Bool} {c : Cursor} {policy : UnknownPolicy} {line : Nat}

theorem lexFrom_append {w rest : List Char} {kind : Lexeme}
    (h : first? (w ++ rest) = some (.lexeme w kind)) :
    (lexFrom policy line (w ++ rest)).outcome =
      (lexFrom policy (line + Text.newlines w) rest).outcome.map (lexeme w line kind :: ·) := by
  rw [outcome_lexFrom_lexeme h, lexBehind_append]

/-- A token is found again in front of a text that it stops at: the tokens that are read have
the outline of the token respelled. -/
def ReadAgain (cx : EmitContext) (preserve : Bool) (policy : UnknownPolicy) (t : Token) : Prop :=
  ∀ c own rest line, cx.spell preserve (tokenPieces false c t).1 = .ok own → t.Stops rest →
    ∃ us line', (lexFrom policy line (own ++ rest)).outcome =
        (lexFrom policy line' rest).outcome.map (us ++ ·) ∧
      ∀ separated again, outlineFrom asRead c.operator separated (us ++ again) =
        gapBlank (separated && mergesWith c.operator t.operator?) ++
          outlineOf (cx.respell preserve) (followsPoint c) t ::
            outlineFrom asRead t.operator? false again

theorem readAgain_of_formed {t : Token} (hformed : t.Formed) (hdirective : t.isDirective = false)
    (hblank : t.isBlank = false) (hw : cx.SpellsWords preserve)
    (hdefined : ∀ x line, t = lexeme x line .identifier → ∀ followsPoint,
      cx.respell preserve followsPoint x ≠ definedWord) : ReadAgain cx preserve policy t := by
  intro c own rest line hown hstops
  -- a single token is found, which has the outline of the token respelled
  suffices h : ∃ u line', (∀ followsPoint', outlineOf asRead followsPoint' u =
        outlineOf (cx.respell preserve) (followsPoint c) t) ∧
      (lexFrom policy line (own ++ rest)).outcome =
        (lexFrom policy line' rest).outcome.map (u :: ·) by
    obtain ⟨u, line', hu, hlex⟩ := h
    have hb := congrArg isBlank (hu false)
    have ho := congrArg operator? (hu false)
    rw [isBlank_outlineOf, isBlank_outlineOf, hblank] at hb
    rw [operator?_outlineOf, operator?_outlineOf] at ho
    refine ⟨[u], line', hlex, fun separated again => ?_⟩
    rw [List.singleton_append, outlineFrom_cons hb, hu, ho]
  rcases spell_tokenPieces_of_formed hformed hdirective hw hown with
    ⟨w, line', x, rfl, hword, rfl⟩ | ⟨x, line', rfl, hword, rfl⟩ | ⟨line', kind, rfl, hk⟩
  · have htext : definedOpen ++ (cx.nameOf preserve x ++ [')']) ++ rest =
        (Form.definedTest (cx.nameOf preserve x)).text ++ rest := by simp [Form.text]
    have hfirst : first? ((Form.definedTest (cx.nameOf preserve x)).text ++ rest) =
        some (.definedTest (cx.nameOf preserve x)) := by
      rw [← text_definedTest]
      exact first?_definedTest hword
    refine ⟨definedTest (Form.definedTest (cx.nameOf preserve x)).text line
      (cx.nameOf preserve x), line + Text.newlines (Form.definedTest (cx.nameOf preserve x)).text,
      fun _ => rfl, ?_⟩
    rw [htext, outcome_lexFrom_definedTest hfirst, lexBehind_append]
  · have hfirst := first?_of_plain? (plain?_word hword (hstops.word rfl))
      fun _ => hdefined x line' rfl _
    exact ⟨_, _, fun _ => rfl, lexFrom_append hfirst⟩
  · have hfirst : first? (own ++ rest) = some (.lexeme own kind) := by
      by_cases hpaste : kind = .tokenPaste
      · subst hpaste
        obtain rfl : own = ['#', '#'] := hformed
        exact first?_tokenPaste rest
      · exact first?_of_plain? (plain?_of_shaped (hformed.shaped hpaste) hblank hk hstops)
          fun he => absurd he hk
    refine ⟨_, _, fun _ => ?_, lexFrom_append hfirst⟩
    cases kind <;> first | rfl | exact absurd rfl hk

theorem gapBlank_of_isDirective {t : Token} (ht : t.isDirective = true) (separated : Bool)
    (operator : Option (List Char)) :
    gapBlank (separated && mergesWith operator t.operator?) = [] := by
  rw [operator?_of_isDirective ht]
  cases operator <;> cases separated <;> rfl

/-- A space between two operators is called for only where they were apart. -/
theorem merges_of_callsForSpace {t : Token} (h : callsForSpace c t = true) :
    (true && mergesWith c.operator t.operator?) =
      (c.separated && mergesWith c.operator t.operator?) := by
  rw [callsForSpace, Bool.or_eq_true, Bool.and_eq_true, Bool.and_eq_true] at h
  rcases h with ⟨hword, -⟩ | ⟨hseparated, -⟩
  · have hnone : t.operator? = none := by
      cases t with
      | lexeme text line kind => cases kind <;> first | rfl | cases hword
      | _ => rfl
    have hmerges : mergesWith c.operator none = false := by
      cases c.operator <;> rfl
    rw [hnone, hmerges, Bool.and_false, Bool.and_false]
  · rw [hseparated]

/-- Lexing the text of a stream whose tokens are found again gives its outline, respelled. -/
theorem lexFrom_streamPieces {ts : List Token} (h : Apart ts) (hw : cx.SpellsWords preserve)
    (hread : ∀ t ∈ ts, t.isBlank = false → ReadAgain cx preserve policy t) {text : List Char}
    (ht : cx.spell preserve (streamPieces false c ts).1 = .ok text) (line : Nat) :
    ∃ again, (lexFrom policy line text).outcome = .ok again ∧
      outlineFrom asRead c.operator false again =
        outlineFrom (cx.respell preserve) c.operator c.separated ts := by
  induction ts generalizing c text line with
  | nil =>
    rw [streamPieces_nil] at ht
    cases ht
    refine ⟨[], ?_, ?_⟩
    · rw [lexFrom_nil]
      rfl
    · rw [outlineFrom_nil, outlineFrom_nil]
  | cons t ts ih =>
    rw [List.forall_mem_cons] at hread
    cases hb : t.isWhitespace with
    | true =>
      have hblank : t.isBlank = true := by rw [isBlank, hb, Bool.true_or]
      rw [streamPieces_whitespace_cons hb] at ht
      rw [outlineFrom_blank hblank]
      exact ih h.tail hread.2 ht line
    | false =>
      have hblank := h.isBlank hb
      obtain ⟨own, rest, rfl, hown, hrest⟩ := spell_streamPieces_cons hb ht
      have hspace := whitespace_of_tokenPieces (h.formed t List.mem_cons_self) hblank hw hown rest
      have hhere : ∀ line, ∃ again, (lexFrom policy line (own ++ rest)).outcome = .ok again ∧
          ∀ separated, outlineFrom asRead c.operator separated again =
            gapBlank (separated && mergesWith c.operator t.operator?) ++
              outlineOf (cx.respell preserve) (followsPoint c) t ::
                outlineFrom (cx.respell preserve) t.operator? false ts := by
        intro line
        obtain ⟨us, line', hlex, houtline⟩ :=
          hread.1 hblank c own rest line hown (stops_of_apart h hb hw hrest)
        obtain ⟨again, hagain, hlater⟩ := ih h.tail hread.2 hrest line'
        have hadvance : advance false c t = afterToken false (tokenPieces false c t).2 t := by
          rw [advance, hb, if_neg Bool.false_ne_true]
        rw [hadvance] at hlater
        refine ⟨us ++ again, by rw [hlex, hagain]; rfl, fun separated => ?_⟩
        rw [houtline]
        exact congrArg (fun l => _ ++ _ :: l) hlater
      -- what stands before the token is read as a blank
      have hblankBefore : ∀ b, Text.isBlank b = true → ∃ again,
          (lexFrom policy line ([b] ++ (own ++ rest))).outcome = .ok again ∧
          outlineFrom asRead c.operator false again =
            gapBlank (true && mergesWith c.operator t.operator?) ++
              outlineOf (cx.respell preserve) (followsPoint c) t ::
                outlineFrom (cx.respell preserve) t.operator? false ts := by
        intro b hb
        have hfirst : first? ([b] ++ (own ++ rest)) = some (.lexeme [b] .whitespace) :=
          first?_blank hb hspace
        obtain ⟨again, hagain, houtline⟩ := hhere (line + Text.newlines [b])
        refine ⟨lexeme [b] line .whitespace :: again, ?_, ?_⟩
        · rw [lexFrom_append hfirst, hagain]
          rfl
        · rw [outlineFrom_blank rfl, houtline]
      rw [outlineFrom_cons hblank]
      rcases gapBefore_cases c t with ⟨he, hcall⟩ | ⟨he, hdirective, -⟩ | ⟨he, hcall⟩
      · obtain ⟨again, hagain, houtline⟩ := hhere line
        rw [callsForSpace, Bool.or_eq_false_iff] at hcall
        refine ⟨again, by rw [he, List.nil_append, hagain], ?_⟩
        rw [houtline, hcall.2, Bool.false_and]
        rfl
      · obtain ⟨again, hagain, houtline⟩ := hblankBefore '\n' (by decide)
        refine ⟨again, by rw [he, hagain], ?_⟩
        rw [houtline, gapBlank_of_isDirective hdirective, gapBlank_of_isDirective hdirective]
        rfl
      · obtain ⟨again, hagain, houtline⟩ := hblankBefore ' ' (by decide)
        refine ⟨again, by rw [he, hagain], ?_⟩
        rw [houtline, merges_of_callsForSpace hcall]
        rfl

theorem outlineFrom_map_blankedComment {spell : Bool → Ident → List Char}
    {operator : Option (List Char)} {separated : Bool} {tokens : List Token} :
    outlineFrom spell operator separated (tokens.map blankedComment) =
      outlineFrom spell operator separated tokens := by
  induction tokens generalizing operator separated with
  | nil => rfl
  | cons t ts ih =>
    rw [List.map_cons]
    cases hb : t.isBlank with
    | true =>
      have hblank : t.blankedComment.isBlank = true := by
        rw [isBlank, isWhitespace_blankedComment, hb, Bool.true_or]
      rw [outlineFrom_blank hblank, outlineFrom_blank hb, ih]
    | false => rw [blankedComment_of_isBlank hb, outlineFrom_cons hb, outlineFrom_cons hb, ih]

/-- A word but `defined` is not written so. -/
theorem respell_ne_definedWord {catalog : Catalog} {t : RenameTable} {options : MinifyOptions}
    (h : RenameTable.allocate catalog false = .ok t) (hc : catalog.switches = []) {x : Ident}
    (hx : IsWord x) (hne : x ≠ definedWord) (preserve followsPoint : Bool) :
    respell ⟨t, catalog, options⟩ preserve followsPoint x ≠ definedWord := by
  have short : ∀ {w : List Char}, w.length ≤ NameStyle.maxLength → w ≠ definedWord := by
    rintro w hw rfl
    exact absurd hw (by decide)
  have hname : t.nameOf x ≠ definedWord := by
    rw [RenameTable.nameOf]
    cases hn : t.get? x with
    | none => exact hne
    | some name =>
      rcases RenameTable.get?_cases h hn with he | hgenerated
      · rw [he, literal_of_isWord hx]
        exact hne
      · exact short hgenerated.short
  rw [respell_eq hc]
  cases followsPoint with
  | false => exact hname
  | true =>
    cases hs : canonicalSwizzle? x with
    | none => exact hname
    | some swizzle =>
      obtain ⟨hlength, ⟨-, hfour⟩, -⟩ := canonicalSwizzle?_eq_some hs
      exact short (Nat.le_trans (Nat.le_of_eq hlength) (Nat.le_trans hfour (by decide)))

end EmitContext

namespace Token
open EmitContext Form Ident Layout Pattern

/-- A text without preprocessor lines is read back as it was written, comments aside. -/
theorem readsBack_of_lexFrom {source text : List Char} {tokens : List Token} {cx : EmitContext}
    (h : (lex .reject source).outcome = .ok tokens) (hs : '#' ∉ source)
    (hclosed : ClosesComments tokens) (hints : KeepsIntsFromPoints tokens)
    (hw : cx.SpellsWords true)
    (hdefined : ∀ x line, lexeme x line .identifier ∈ tokens → ∀ followsPoint,
      cx.respell true followsPoint x ≠ definedWord)
    (ht : cx.spell true (streamPieces false start (strip keepAll tokens)).1 = .ok text) :
    cx.ReadsBack (strip keepAll tokens) text := by
  have hreadable := readable_of_lexFrom h hs hclosed hints
  have hnames : ∀ x line, lexeme x line .identifier ∈ tokens.map blankedComment →
      ∀ followsPoint, cx.respell true followsPoint x ≠ definedWord := by
    intro x line hx
    obtain ⟨t, hmem, he⟩ := List.mem_map.mp hx
    cases hb : t.isBlank with
    | true =>
      have hblank := isWhitespace_blankedComment t
      rw [he, hb] at hblank
      cases hblank
    | false =>
      rw [blankedComment_of_isBlank hb] at he
      exact hdefined x line (he ▸ hmem)
  rw [strip_of_shaped keepAll (shaped_of_lexFrom h hs), (sameLayout_joined _ _).1] at ht
  have hread : ∀ u ∈ tokens.map blankedComment, u.isBlank = false →
      ReadAgain cx true cx.options.unknown u :=
    fun u hu hb => readAgain_of_formed (hreadable.formed u hu)
      (isDirective_of_shaped (hreadable.shaped u hu)) hb hw fun x line he => hnames x line (he ▸ hu)
  obtain ⟨again, hagain, houtline⟩ := lexFrom_streamPieces hreadable.toApart hw hread ht 1
  refine ⟨again, hagain, ?_⟩
  rw [outline_strip_keepAll]
  exact houtline.trans outlineFrom_map_blankedComment

end Token

end ShaderPress
