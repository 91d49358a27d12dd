import ShaderPress.Proofs.Shader.Relexing
import ShaderPress.Proofs.Shader.StrippedLayout
import ShaderPress.Proofs.Token.Streams

/-! # Sources without preprocessor lines

Such a source is stripped of nothing but its comments, which become blanks.  What is
written for it can be read back if every comment is closed and no blank keeps an
unsuffixed integer from a point, and what is read back is lexed without a comment and
without a preprocessor line.
-/
namespace ShaderPress

namespace Token
open Pattern Layout

/-- No slash stands directly before a star, as it does where a comment is not closed. -/
def ClosesComments (tokens : List Token) : Prop :=
  tokens.IsChain fun a b => ¬ (a.operator? = some ['/'] ∧ b.operator? = some ['*'])

/-- No unsuffixed integer comes before a point, blanks and comments left out. -/
def KeepsIntsFromPoints (tokens : List Token) : Prop :=
  (tokens.filter fun t => !t.isBlank).IsChain fun a b =>
    ¬ (a.isUnsuffixedInt = true ∧ b.isPoint = true)

instance (tokens : List Token) : Decidable (ClosesComments tokens) :=
  inferInstanceAs (Decidable (tokens.IsChain _))

instance (tokens : List Token) : Decidable (KeepsIntsFromPoints tokens) :=
  inferInstanceAs (Decidable ((tokens.filter _).IsChain _))

theorem isWhitespace_blankedComment (t : Token) : t.blankedComment.isWhitespace = t.isBlank := by
  cases t with
  | lexeme text line kind => cases kind <;> rfl
  | _ => rfl

theorem blankedComment_of_isBlank {t : Token} (h : t.isBlank = false) : t.blankedComment = t := by
  cases t with
  | lexeme text line kind => cases kind <;> first | rfl | cases h
  | _ => rfl

theorem operator?_blankedComment (t : Token) : t.blankedComment.operator? = t.operator? := by
  cases t with
  | lexeme text line kind => cases kind <;> rfl
  | _ => rfl

theorem shaped_blankedComment {t : Token} (h : t.Shaped) : t.blankedComment.Shaped := by
  cases t with
  | lexeme text line kind => cases kind <;> exact h
  | _ => exact h

theorem isComment_blankedComment (t : Token) : t.blankedComment.isComment = false := by
  cases t with
  | lexeme text line kind => cases kind <;> rfl
  | _ => rfl

theorem filter_blankedComment (tokens : List Token) :
    (tokens.map blankedComment).filter (fun t => !t.isWhitespace) =
      tokens.filter fun t => !t.isBlank := by
  induction tokens with
  | nil => rfl
  | cons t ts ih =>
    rw [List.map_cons, List.filter_cons, List.filter_cons, isWhitespace_blankedComment, ih]
    cases hb : t.isBlank with
    | true => rfl
    | false => rw [blankedComment_of_isBlank hb]

/-- The tokens of a text without preprocessor lines, with comments blank. -/
theorem readable_of_lexFrom {line : Nat} {s : List Char} {tokens : List Token}
    (h : (lexFrom .reject line s).outcome = .ok tokens) (hs : '#' ∉ s)
    (hclosed : ClosesComments tokens) (hints : KeepsIntsFromPoints tokens) :
    Readable (tokens.map blankedComment) := by
  have hshaped := List.forall_mem_map.mpr fun t ht =>
    shaped_blankedComment (shaped_of_lexFrom h hs t ht)
  refine ⟨⟨fun t ht => (hshaped t ht).formed, ?_, ?_, ?_⟩, hshaped⟩
  · exact List.forall_mem_map.mpr fun t _ => isComment_blankedComment t
  · rw [KeepsSlashes, List.isChain_map]
    simp only [operator?_blankedComment]
    have hslash := slashes_of_lexFrom h hs
    refine (List.isChain_iff_getElem.mpr fun i hi => ?_)
    rintro ⟨ha, hb | hb⟩
    · exact List.isChain_iff_getElem.mp hslash i hi ⟨ha, hb⟩
    · exact List.isChain_iff_getElem.mp hclosed i hi ⟨ha, hb⟩
  · rw [filter_blankedComment]
    exact hints

theorem strip_of_shaped (dead : Ident → Bool) {tokens : List Token}
    (h : ∀ t ∈ tokens, t.Shaped) : strip dead tokens = joined (tokens.map blankedComment) := by
  induction tokens with
  | nil =>
    simp only [strip]
    rfl
  | cons t ts ih =>
    rw [List.forall_mem_cons] at h
    have hstrip : strip dead (t :: ts) = attach t.blankedComment (strip dead ts) := by
      cases t with
      | definedTest text line name => simp only [strip]
      | lexeme text line kind => simp only [strip]
      | _ => exact h.1.elim
    rw [hstrip, ih h.2]
    rfl

theorem sameLayout_joined (tokens : List Token) : SameLayout (joined tokens) tokens := by
  induction tokens with
  | nil => exact SameLayout.refl []
  | cons t ts ih =>
    have hattach : SameLayout (attach t (joined ts)) ([t] ++ joined ts) := by
      cases t with
      | lexeme text line kind =>
        cases kind with
        | whitespace => exact sameLayout_attach text line _
        | _ => exact SameLayout.refl _
      | _ => exact SameLayout.refl _
    exact hattach.trans (ih.append_left [t])

theorem lexemes_joined (spell : Bool → Ident → List Char) (followsPoint : Bool)
    (tokens : List Token) : lexemes spell followsPoint (joined tokens) =
      lexemes spell followsPoint tokens := by
  have space : ∀ (text : List Char) (line : Nat) (ts : List Token) (followsPoint : Bool),
      lexemes spell followsPoint (attach (lexeme text line .whitespace) ts) =
        lexemes spell followsPoint ts := by
    intro text line ts followsPoint
    unfold attach
    split
    · next he =>
      cases he
      rfl
    · rfl
  induction tokens generalizing followsPoint with
  | nil => rfl
  | cons t ts ih =>
    have hcons : lexemes spell followsPoint (joined (t :: ts)) =
        lexemes spell followsPoint (t :: joined ts) := by
      cases t with
      | lexeme text line kind =>
        cases kind with
        | whitespace => exact space text line _ followsPoint
        | _ => rfl
      | _ => rfl
    rw [hcons, lexemes, lexemes, ih]

/-- A readable stream has legal lexemes only, and no comments. -/
theorem kind_of_mem_lexemes {spell : Bool → Ident → List Char} {followsPoint : Bool}
    {tokens : List Token} (h : Readable tokens) :
    ∀ p ∈ lexemes spell followsPoint tokens,
      p.1 ≠ .unknown ∧ p.1 ≠ .lineComment ∧ p.1 ≠ .blockComment := by
  induction tokens generalizing followsPoint with
  | nil => exact fun p hp => absurd hp List.not_mem_nil
  | cons t ts ih =>
    refine List.forall_mem_append.mpr ⟨?_, ih h.tail⟩
    have hshaped := h.shaped t List.mem_cons_self
    have hcomment := h.comment t List.mem_cons_self
    cases t with
    | definedTest text line name => simp [lexemesOf, Form.definedLexemes]
    | lexeme text line kind =>
      cases kind with
      | tokenPaste | unknown => exact hshaped.elim
      | lineComment | blockComment => cases hcomment
      | _ => simp [lexemesOf]
    | _ => exact hshaped.elim

theorem lexemesOf_subset (spell : Bool → Ident → List Char) (followsPoint : Bool)
    {tokens : List Token} {t : Token} (ht : t ∈ tokens) :
    ∃ followsPoint', lexemesOf spell followsPoint' t ⊆ lexemes spell followsPoint tokens := by
  induction tokens generalizing followsPoint with
  | nil => cases ht
  | cons u ts ih =>
    rcases List.mem_cons.mp ht with rfl | ht
    · exact ⟨followsPoint, List.subset_append_left _ _⟩
    · obtain ⟨followsPoint', hsub⟩ := ih _ ht
      exact ⟨followsPoint', List.subset_append_of_subset_right _ hsub⟩

/-- A stream whose lexemes are no comments holds none. -/
theorem isComment_of_lexemes (spell : Bool → Ident → List Char) (followsPoint : Bool)
    {tokens : List Token} (h : ∀ p ∈ lexemes spell followsPoint tokens,
      p.1 ≠ .lineComment ∧ p.1 ≠ .blockComment) : ∀ t ∈ tokens, t.isComment = false := by
  intro t ht
  obtain ⟨followsPoint', hsub⟩ := lexemesOf_subset spell followsPoint ht
  cases t with
  | lexeme text line kind =>
    cases kind with
    | lineComment => exact absurd rfl (h _ (hsub List.mem_cons_self)).1
    | blockComment => exact absurd rfl (h _ (hsub List.mem_cons_self)).2
    | _ => rfl
  | _ => rfl

theorem isDirective_of_lexFrom {policy : UnknownPolicy} {line : Nat} {s : List Char}
    {tokens : List Token} (h : (lexFrom policy line s).outcome = .ok tokens) (hs : '#' ∉ s) :
    ∀ t ∈ tokens, t.isDirective = false := by
  refine lexFrom_induction_of_not_mem (motive := fun _ ts => ∀ t ∈ ts, t.isDirective = false)
    ?_ ?_ ?_ ?_ h hs
  · exact fun t ht => absurd ht List.not_mem_nil
  · intro line name rest ts _ _ hr
    exact List.forall_mem_cons.mpr ⟨rfl, hr⟩
  · intro line w kind rest ts _ _ hr
    exact List.forall_mem_cons.mpr ⟨rfl, hr⟩
  · intro line c rest ts _ _ hr
    exact List.forall_mem_cons.mpr ⟨rfl, hr⟩

theorem hash_not_mem_blankedComment {policy : UnknownPolicy} {line : Nat} {s : List Char}
    {tokens : List Token} (h : (lexFrom policy line s).outcome = .ok tokens) (hs : '#' ∉ s) :
    ∀ t ∈ tokens.map blankedComment, '#' ∉ t.text := by
  refine List.forall_mem_map.mpr fun t ht => ?_
  have htext : '#' ∉ t.text := by
    intro hm
    rw [← sourceOf_lexFrom h] at hs
    exact hs (List.mem_flatMap.mpr ⟨t, ht, hm⟩)
  cases t with
  | lexeme text line kind =>
    cases kind with
    | lineComment | blockComment => exact of_decide_eq_true rfl
    | _ => exact htext
  | _ => exact htext

theorem definedNames_of_shaped {tokens : List Token} (h : ∀ t ∈ tokens, t.Shaped) :
    definedNames tokens = [] := by
  induction tokens with
  | nil => rfl
  | cons t ts ih =>
    rw [List.forall_mem_cons] at h
    cases t with
    | definedTest text line name => exact ih h.2
    | lexeme text line kind => exact ih h.2
    | _ => exact h.1.elim

end Token

namespace EmitContext
open Form Ident Layout Pattern Token
variable {cx : EmitContext} {preserve : Bool} {c : Cursor}

theorem hash_not_mem_of_isWord {w : List Char} (hw : IsWord w) : '#' ∉ w :=
  fun h => absurd (isIdentPart_of_mem hw _ h) (by decide)

/-- A text without a hash is written without one. -/
theorem hash_not_mem_spell {ts : List Token} (h : Readable ts) (hw : cx.SpellsWords preserve)
    (hts : ∀ t ∈ ts, '#' ∉ t.text) {text : List Char}
    (ht : cx.spell preserve (streamPieces false c ts).1 = .ok text) : '#' ∉ text := by
  induction ts generalizing c text with
  | nil =>
    rw [streamPieces_nil] at ht
    cases ht
    exact List.not_mem_nil
  | cons t ts ih =>
    rw [List.forall_mem_cons] at hts
    cases hb : t.isWhitespace with
    | true =>
      rw [streamPieces_whitespace_cons hb] at ht
      exact ih h.tail hts.2 ht
    | false =>
      have hshaped := h.shaped t List.mem_cons_self
      have hdirective := isDirective_of_shaped hshaped
      obtain ⟨own, rest, rfl, hown, hrest⟩ := spell_streamPieces_cons hb ht
      have hspace : '#' ∉ gapBefore c t := by
        rcases gapBefore_cases c t with ⟨he, -⟩ | ⟨he, -⟩ | ⟨he, -⟩ <;> rw [he] <;> decide
      have hownHash : '#' ∉ own := by
        rcases spell_tokenPieces_of_formed hshaped.formed hdirective hw hown with
          ⟨w, line, x, -, hword, rfl⟩ | ⟨x, line, -, hword, -⟩ | ⟨line, kind, rfl, -⟩
        · have hopen : '#' ∉ definedOpen := by decide
          simp [hopen, hash_not_mem_of_isWord hword]
        · exact hash_not_mem_of_isWord hword
        · exact hts.1
      simp only [List.mem_append, not_or]
      exact ⟨hspace, hownHash, ih h.tail hts.2 hrest⟩

/-- The text of a readable stream is lexed, with the lexemes of the stream respelled and without
a comment or a preprocessor line. -/
theorem lex_streamPieces {ts : List Token} (h : Readable ts) (hw : cx.SpellsWords preserve)
    (hts : ∀ t ∈ ts, '#' ∉ t.text) {text : List Char}
    (ht : cx.spell preserve (streamPieces false start ts).1 = .ok text) (policy : UnknownPolicy) :
    ∃ again, (lex policy text).outcome = .ok again ∧
      (∀ u ∈ again, u.isDirective = false ∧ u.isComment = false) ∧
      lexemes asRead false again = lexemes (cx.respell preserve) false ts := by
  have hread : readPlain text = lexemes (cx.respell preserve) false ts :=
    readPlain_streamPieces h hw ht
  have hhash := hash_not_mem_spell h hw hts ht
  obtain ⟨again, hagain⟩ : ∃ again, (lexFrom policy 1 text).outcome = .ok again := by
    refine lexFrom_isOk hhash ?_
    rw [hread]
    exact fun p hp => (kind_of_mem_lexemes h p hp).1
  have hlexemes : lexemes asRead false again = lexemes (cx.respell preserve) false ts :=
    (lexemes_lexFrom hagain hhash false).trans hread
  have hcomment : ∀ u ∈ again, u.isComment = false := by
    refine isComment_of_lexemes asRead false ?_
    rw [hlexemes]
    exact fun p hp => (kind_of_mem_lexemes h p hp).2
  exact ⟨again, hagain, fun u hu => ⟨isDirective_of_lexFrom hagain hhash u hu, hcomment u hu⟩,
    hlexemes⟩

end EmitContext

end ShaderPress
