import ShaderPress.Proofs.Shader.Outline
import ShaderPress.Proofs.Token.Streams

/-! # Significant tokens

Outside human-readable output it matters of a run of blanks only that it stands between two
tokens.  The significant form of a stream has one blank before each token that had any before
it, and forgets lines and the raw text of preprocessor forms.  It has the occurrences of the
stream, stripping goes through it, and without comments it is laid out as the stream is.
-/
namespace ShaderPress

namespace Token

/-- A token without its line and, if it is a preprocessor form, without its raw text. -/
def bare : Token → Token
  | define _ _ name arguments body => define [] 0 name arguments body
  | conditional _ _ test name => conditional [] 0 test name
  | definedTest _ _ name => definedTest [] 0 name
  | directive _ _ body => directive [] 0 body
  | lexeme text _ kind => lexeme text 0 kind

/-- A single stream with one blank for each run of whitespace and comments. -/
def condense (afterBlank : Bool) : List Token → List Token
  | [] => []
  | t :: ts =>
    if t.isBlank then gapBlank (!afterBlank) ++ condense true ts
    else t.bare :: condense false ts

/-- A stream that has one blank for each run of whitespace and comments, at every depth. -/
def condensed (tokens : List Token) : List Token := everywhere (condense false) tokens

/-- A single stream with one blank before each token that had any before it. -/
def spaced (separated : Bool) : List Token → List Token
  | [] => []
  | t :: ts =>
    if t.isBlank then spaced true ts else gapBlank separated ++ t.bare :: spaced false ts

/-- The significant form of what stands behind a blank or at the start of a stream. -/
def significantFrom (separated : Bool) (tokens : List Token) : List Token :=
  spaced separated (inEach (spaced false) tokens)

def significantOf (t : Token) : Token := (inParts (spaced false) t).bare

/-- What counts of a stream: its tokens, and between which of them blanks stand. -/
def significantForm (tokens : List Token) : List Token := everywhere (spaced false) tokens

section
variable {f : List Token → List Token} {separated : Bool} {tokens : List Token} {t : Token}

@[simp] theorem isBlank_inParts (f : List Token → List Token) (t : Token) :
    (inParts f t).isBlank = t.isBlank := by
  cases t <;> rfl

@[simp] theorem isBlank_bare (t : Token) : t.bare.isBlank = t.isBlank := by
  cases t with
  | lexeme text line kind => cases kind <;> rfl
  | _ => rfl

@[simp] theorem operator?_bare (t : Token) : t.bare.operator? = t.operator? := by
  cases t with
  | lexeme text line kind => cases kind <;> rfl
  | _ => rfl

@[simp] theorem operator?_inParts (f : List Token → List Token) (t : Token) :
    (inParts f t).operator? = t.operator? := by
  cases t <;> rfl

@[simp] theorem isBlank_significantOf (t : Token) : (significantOf t).isBlank = t.isBlank := by
  rw [significantOf, isBlank_bare, isBlank_inParts]

@[simp] theorem isPoint_significantOf (t : Token) : (significantOf t).isPoint = t.isPoint := by
  rw [isPoint, significantOf, operator?_bare, operator?_inParts, isPoint]

@[simp] theorem significantFrom_nil : significantFrom separated [] = [] := by
  rw [significantFrom, inEach, spaced]

theorem significantFrom_blank (ht : t.isBlank = true) (ts : List Token) :
    significantFrom separated (t :: ts) = significantFrom true ts := by
  rw [significantFrom, inEach, spaced, isBlank_inParts, if_pos ht, significantFrom]

theorem significantFrom_cons (ht : t.isBlank = false) (ts : List Token) :
    significantFrom separated (t :: ts) =
      gapBlank separated ++ significantOf t :: significantFrom false ts := by
  rw [significantFrom, inEach, spaced, isBlank_inParts, ht, if_neg Bool.false_ne_true]
  rfl

theorem significantFrom_gapBlank (gap : Bool) :
    significantFrom separated (gapBlank gap ++ tokens) =
      significantFrom (separated || gap) tokens := by
  cases gap with
  | true => rw [gapBlank, List.singleton_append, significantFrom_blank rfl, Bool.or_true]
  | false => rw [gapBlank, List.nil_append, Bool.or_false]

theorem inPart_some (f : List Token → List Token) (s : List Token) :
    inPart f (some s) = some (everywhere f s) := by
  rw [inPart, everywhere]

/-- The significant form has the occurrences of its stream. -/
theorem sitesFrom_significantFrom (followsPoint separated : Bool) (tokens : List Token) :
    sitesFrom followsPoint (significantFrom separated tokens) = sitesFrom followsPoint tokens := by
  have nested : ∀ {part : Option (List Token)},
      (∀ s, part = some s → sitesFrom false (significantFrom false s) = sitesFrom false s) →
      sitesPart (inPart (spaced false) part) = sitesPart part := by
    intro part ih
    cases part with
    | none => simp only [inPart]
    | some s =>
      rw [inPart_some]
      simp only [sitesPart]
      exact ih s rfl
  have step : ∀ {t : Token} {rest : List Token},
      (∀ followsPoint, sitesOf followsPoint (significantOf t) = sitesOf followsPoint t) →
      (∀ followsPoint separated,
        sitesFrom followsPoint (significantFrom separated rest) = sitesFrom followsPoint rest) →
      ∀ followsPoint separated, sitesFrom followsPoint (significantFrom separated (t :: rest)) =
        sitesFrom followsPoint (t :: rest) := by
    intro t rest ht hr followsPoint separated
    cases hb : t.isBlank with
    | true => rw [significantFrom_blank hb, sitesFrom_blank hb, hr]
    | false =>
      rw [significantFrom_cons hb, sitesFrom_gapBlank,
        sitesFrom_cons (by rw [isBlank_significantOf, hb]), sitesFrom_cons hb, ht,
        isPoint_significantOf, hr]
  induction tokens using stream_induction generalizing followsPoint separated with
  | nil => rw [significantFrom_nil]
  | define text line name arguments body rest ha hb hr =>
    refine step (fun _ => ?_) hr followsPoint separated
    simp only [significantOf, inParts, bare, sitesOf, nested fun s hs => ha s hs _ _,
      nested fun s hs => hb s hs _ _]
  | directive text line body rest hb hr =>
    refine step (fun _ => ?_) hr followsPoint separated
    simp only [significantOf, inParts, bare, sitesOf, nested fun s hs => hb s hs _ _]
  | conditional text line test name rest hr | definedTest text line name rest hr =>
    exact step (fun _ => rfl) hr followsPoint separated
  | lexeme text line kind rest hr =>
    refine step (fun _ => ?_) hr followsPoint separated
    cases kind <;> rfl

theorem noted_significantForm (tokens : List Token) :
    noted (significantForm tokens) = noted tokens := by
  rw [noted_eq_sites false, noted_eq_sites false tokens]
  exact congrArg _ (sitesFrom_significantFrom false false tokens)

theorem occurrences_significantForm (tokens : List Token) :
    occurrences (significantForm tokens) = occurrences tokens := by
  rw [occurrences_eq_sites, occurrences_eq_sites]
  exact congrArg _ (sitesFrom_significantFrom false false tokens)

theorem removed_gapBlank (dead : Ident → Bool) (gap : Bool) :
    removed dead (gapBlank gap ++ tokens) = removed dead tokens := by
  cases gap <;> simp [gapBlank, removed]

/-- As many definitions are dropped from the significant form. -/
theorem removed_significantFrom (dead : Ident → Bool) (separated : Bool) (tokens : List Token) :
    removed dead (significantFrom separated tokens) = removed dead tokens := by
  have nested : ∀ {part : Option (List Token)},
      (∀ s, part = some s → removed dead (significantFrom false s) = removed dead s) →
      removedNested dead (inPart (spaced false) part) = removedNested dead part := by
    intro part ih
    cases part with
    | none => simp only [inPart]
    | some s =>
      rw [inPart_some]
      simp only [removedNested]
      exact ih s rfl
  induction tokens using stream_induction generalizing separated with
  | nil => rw [significantFrom_nil]
  | define text line name arguments body rest ha hb hr =>
    rw [significantFrom_cons rfl, removed_gapBlank]
    simp only [significantOf, inParts, bare, removed, nested fun s hs => ha s hs _,
      nested fun s hs => hb s hs _, hr]
  | directive text line body rest hb hr =>
    rw [significantFrom_cons rfl, removed_gapBlank]
    simp only [significantOf, inParts, bare, removed, nested fun s hs => hb s hs _, hr]
  | conditional text line test name rest hr | definedTest text line name rest hr =>
    rw [significantFrom_cons rfl, removed_gapBlank]
    simp only [significantOf, inParts, bare, removed, hr]
  | lexeme text line kind rest hr =>
    cases hb : (lexeme text line kind).isBlank with
    | true => simp only [significantFrom_blank hb, removed, hr]
    | false =>
      rw [significantFrom_cons hb, removed_gapBlank]
      simp only [significantOf, inParts, bare, removed, hr]

theorem significantFrom_attach (text : List Char) (line : Nat) :
    significantFrom separated (attach (lexeme text line .whitespace) tokens) =
      significantFrom true tokens := by
  unfold attach
  split
  · rw [significantFrom_blank rfl, significantFrom_blank rfl]
  · rw [significantFrom_blank rfl]

/-- What stripping leaves behind a blank is the same, whatever the blank. -/
theorem significantFrom_strip_blank (dead : Ident → Bool) (ht : t.isBlank = true)
    (ts : List Token) :
    significantFrom separated (strip dead (t :: ts)) = significantFrom true (strip dead ts) := by
  cases t with
  | lexeme text line kind =>
    cases kind with
    | whitespace | lineComment | blockComment =>
      simp only [strip, blankedComment, significantFrom_attach]
    | _ => cases ht
  | _ => cases ht

theorem strip_gapBlank (dead : Ident → Bool) (gap : Bool) :
    significantFrom separated (strip dead (gapBlank gap ++ tokens)) =
      significantFrom (separated || gap) (strip dead tokens) := by
  cases gap with
  | true => rw [gapBlank, List.singleton_append, significantFrom_strip_blank dead rfl, Bool.or_true]
  | false => rw [gapBlank, List.nil_append, Bool.or_false]

/-- Stripping the significant form leaves what is significant of the stripped stream.  A definition
that goes leaves the blanks before and behind it side by side, so both are looked at. -/
theorem significantFrom_strip (dead : Ident → Bool) (separated before : Bool)
    (tokens : List Token) :
    significantFrom separated (strip dead (significantFrom before tokens)) =
      significantFrom (separated || before) (strip dead tokens) := by
  have nested : ∀ {part : Option (List Token)},
      (∀ s, part = some s → significantFrom false (strip dead (significantFrom false s)) =
        significantFrom false (strip dead s)) →
      inPart (spaced false) (stripNested dead (inPart (spaced false) part)) =
        inPart (spaced false) (stripNested dead part) := by
    intro part ih
    cases part with
    | none => simp only [inPart, stripNested]
    | some s =>
      simp only [inPart_some, stripNested]
      exact congrArg some (ih s rfl)
  induction tokens using stream_induction generalizing separated before with
  | nil => simp only [significantFrom_nil, strip]
  | define text line name arguments body rest ha hb hr =>
    rw [significantFrom_cons rfl, strip_gapBlank]
    simp only [significantOf, inParts, bare, strip]
    split
    · rw [hr, Bool.or_false]
    · rw [significantFrom_cons rfl, significantFrom_cons rfl, hr]
      simp only [significantOf, inParts, bare, nested fun s hs => ha s hs _ _,
        nested fun s hs => hb s hs _ _, Bool.or_false]
  | directive text line body rest hb hr =>
    rw [significantFrom_cons rfl, strip_gapBlank]
    simp only [significantOf, inParts, bare, strip]
    rw [significantFrom_cons rfl, significantFrom_cons rfl, hr]
    simp only [significantOf, inParts, bare, nested fun s hs => hb s hs _ _, Bool.or_false]
  | conditional text line test name rest hr | definedTest text line name rest hr =>
    rw [significantFrom_cons rfl, strip_gapBlank]
    simp only [significantOf, inParts, bare, strip, blankedComment, attach]
    rw [significantFrom_cons rfl, significantFrom_cons rfl, hr]
    rfl
  | lexeme text line kind rest hr =>
    cases hb : (lexeme text line kind).isBlank with
    | true =>
      rw [significantFrom_blank hb, significantFrom_strip_blank dead hb, hr, Bool.or_true]
    | false =>
      rw [significantFrom_cons hb, strip_gapBlank]
      simp only [significantOf, inParts, bare]
      cases kind with
      | whitespace | lineComment | blockComment => cases hb
      | _ =>
        simp only [strip, blankedComment, attach]
        rw [significantFrom_cons rfl, significantFrom_cons rfl, hr]
        rfl

/-- A single stream condensed behind a blank or not. -/
theorem condense_cons (afterBlank : Bool) (ht : t.isBlank = false) (ts : List Token) :
    condense afterBlank (inEach f (t :: ts)) =
      (inParts f t).bare :: condense false (inEach f ts) := by
  rw [inEach, condense, isBlank_inParts, ht, if_neg Bool.false_ne_true]

theorem condense_blank (afterBlank : Bool) (ht : t.isBlank = true) (ts : List Token) :
    condense afterBlank (inEach f (t :: ts)) =
      gapBlank (!afterBlank) ++ condense true (inEach f ts) := by
  rw [inEach, condense, isBlank_inParts, if_pos ht]

/-- Condensing a stream takes nothing from it that is significant. -/
theorem significantForm_condensed (tokens : List Token) :
    significantForm (condensed tokens) = significantForm tokens := by
  have nested : ∀ {part : Option (List Token)},
      (∀ s, part = some s → ∀ separated afterBlank, (afterBlank = true → separated = true) →
        significantFrom separated (condense afterBlank (inEach (condense false) s)) =
          significantFrom separated s) →
      inPart (spaced false) (inPart (condense false) part) = inPart (spaced false) part := by
    intro part ih
    cases part with
    | none => simp only [inPart]
    | some s =>
      simp only [inPart_some]
      exact congrArg some (ih s rfl false false id)
  have step : ∀ {t : Token} {rest : List Token},
      significantOf (inParts (condense false) t).bare = significantOf t →
      (∀ separated afterBlank, (afterBlank = true → separated = true) →
        significantFrom separated (condense afterBlank (inEach (condense false) rest)) =
          significantFrom separated rest) →
      ∀ separated afterBlank, (afterBlank = true → separated = true) →
        significantFrom separated (condense afterBlank (inEach (condense false) (t :: rest))) =
          significantFrom separated (t :: rest) := by
    intro t rest ht hr separated afterBlank hafter
    cases hb : t.isBlank with
    | true =>
      have hgap : (separated || !afterBlank) = true := by
        cases afterBlank with
        | true => rw [hafter rfl, Bool.true_or]
        | false => exact Bool.or_true separated
      rw [condense_blank afterBlank hb, significantFrom_gapBlank, hgap, hr true true id,
        significantFrom_blank hb]
    | false =>
      rw [condense_cons afterBlank hb,
        significantFrom_cons (by rw [isBlank_bare, isBlank_inParts, hb]), significantFrom_cons hb,
        ht, hr false false id]
  have all : ∀ separated afterBlank, (afterBlank = true → separated = true) →
      significantFrom separated (condense afterBlank (inEach (condense false) tokens)) =
        significantFrom separated tokens := by
    induction tokens using stream_induction with
    | nil =>
      intro separated afterBlank _
      rw [inEach, condense]
    | define text line name arguments body rest ha hb hr =>
      refine step ?_ hr
      simp only [significantOf, inParts, bare, nested ha, nested hb]
    | directive text line body rest hb hr =>
      refine step ?_ hr
      simp only [significantOf, inParts, bare, nested hb]
    | conditional text line test name rest hr | definedTest text line name rest hr
    | lexeme text line kind rest hr => exact step rfl hr
  exact all false false id

end

end Token

namespace Layout
open Token
variable {c : Cursor} {tokens : List Token}

theorem streamPieces_gapBlank (gap : Bool) :
    streamPieces false c (gapBlank gap ++ tokens) =
      streamPieces false { c with separated := c.separated || gap } tokens := by
  cases gap with
  | true =>
    rw [gapBlank, List.singleton_append, EmitContext.streamPieces_whitespace_cons rfl, Bool.or_true]
  | false => rw [gapBlank, List.nil_append, Bool.or_false]

theorem separator_significantOf (c : Cursor) (t : Token) :
    separator c (significantOf t) = separator c t := by
  cases t with
  | lexeme text line kind => cases kind <;> rfl
  | _ => rfl

theorem afterToken_significantOf (newline : Bool) (t : Token) :
    afterToken false newline (significantOf t) = afterToken false newline t := by
  cases t with
  | lexeme text line kind => cases kind <;> rfl
  | _ => rfl

theorem bodySeparator_inPart (f : List Token → List Token) (body : Option (List Token)) :
    bodySeparator false (inPart f body) = bodySeparator false body := by
  cases body with
  | none => rfl
  | some tokens =>
    simp only [inPart, bodySeparator, Option.isNone_some, Bool.false_and, Bool.or_false]

/-- Without comments the significant form of a stream is laid out as the stream is. -/
theorem streamPieces_significantFrom (h : ∀ u ∈ deep tokens, u.isComment = false) (c : Cursor)
    (separated : Bool) : streamPieces false c (significantFrom separated tokens) =
      streamPieces false { c with separated := c.separated || separated } tokens := by
  have nested : ∀ {part : Option (List Token)} (newline : Bool),
      (∀ s, part = some s → (∀ u ∈ deep s, u.isComment = false) → ∀ c separated,
        streamPieces false c (significantFrom separated s) =
          streamPieces false { c with separated := c.separated || separated } s) →
      (∀ u ∈ deepNested part, u.isComment = false) →
      nestedPieces false newline (inPart (spaced false) part) =
        nestedPieces false newline part := by
    intro part newline ih hp
    cases part with
    | none => simp only [inPart]
    | some s =>
      rw [inPart_some, nestedPieces_some, nestedPieces_some]
      exact ih s rfl hp start false
  have step : ∀ {t : Token} {rest : List Token}, t.isComment = false →
      (∀ c, tokenPieces false c (significantOf t) = tokenPieces false c t) →
      (∀ c separated, streamPieces false c (significantFrom separated rest) =
        streamPieces false { c with separated := c.separated || separated } rest) →
      ∀ c separated, streamPieces false c (significantFrom separated (t :: rest)) =
        streamPieces false { c with separated := c.separated || separated } (t :: rest) := by
    intro t rest hcomment ht hr c separated
    have hblank : t.isBlank = t.isWhitespace := by rw [isBlank, hcomment, Bool.or_false]
    cases hb : t.isBlank with
    | true =>
      rw [significantFrom_blank hb, hr, EmitContext.streamPieces_whitespace_cons (hblank ▸ hb),
        Bool.or_true]
    | false =>
      have hw : t.isWhitespace = false := hblank ▸ hb
      have hw' : (significantOf t).isWhitespace = false := by
        have := isBlank_significantOf t
        rw [hb, isBlank, Bool.or_eq_false_iff] at this
        exact this.1
      rw [significantFrom_cons hb, streamPieces_gapBlank, streamPieces_cons, streamPieces_cons]
      simp only [Layout.written, advance, hw, hw', Bool.false_eq_true, if_false, ht,
        separator_significantOf, afterToken_significantOf, hr, Bool.or_false]
  induction tokens using stream_induction generalizing c separated with
  | nil => rw [significantFrom_nil, streamPieces_nil, streamPieces_nil]
  | define text line name arguments body rest ha hb hr =>
    rw [deep, List.forall_mem_append] at h
    obtain ⟨hparts, hrest⟩ := h
    simp only [withParts, List.forall_mem_cons, List.forall_mem_append] at hparts
    obtain ⟨-, harguments, hbody⟩ := hparts
    refine step rfl (fun c => ?_) (hr hrest) c separated
    simp only [significantOf, inParts, bare, tokenPieces, bodySeparator_inPart,
      nested _ ha harguments, nested _ hb hbody]
  | directive text line body rest hb hr =>
    rw [deep, List.forall_mem_append] at h
    obtain ⟨hparts, hrest⟩ := h
    simp only [withParts, List.forall_mem_cons] at hparts
    refine step rfl (fun c => ?_) (hr hrest) c separated
    simp only [significantOf, inParts, bare, tokenPieces, nested _ hb hparts.2]
  | conditional text line test name rest hr | definedTest text line name rest hr =>
    rw [deep, List.forall_mem_append] at h
    exact step rfl (fun _ => rfl) (hr h.2) c separated
  | lexeme text line kind rest hr =>
    rw [deep, List.forall_mem_append] at h
    refine step (h.1 _ (self_mem_withParts _)) (fun _ => ?_) (hr h.2) c separated
    cases kind <;> rfl

theorem layout_significantForm (h : ∀ u ∈ deep tokens, u.isComment = false) :
    layout false (significantForm tokens) = layout false tokens :=
  streamPieces_significantFrom h start false

end Layout

namespace Shader
open Token

/-- What is significant of the shaders of a batch. -/
def significants (shaders : List Shader) : List (List Token) :=
  shaders.map fun s => significantForm s.tokens

variable {shaders shaders' : List Shader}

theorem significants_stripAll (c : Catalog) (shaders : List Shader) :
    significants (stripAll c shaders) =
      (significants shaders).map fun tokens => significantForm (Token.strip (isDead c) tokens) := by
  simp only [significants, stripAll, List.map_map]
  refine List.map_congr_left fun s _ => ?_
  exact (significantFrom_strip (isDead c) false false s.tokens).symm

theorem totalRemoved_eq (c : Catalog) (shaders : List Shader) :
    totalRemoved c shaders =
      ((significants shaders).map (Token.removed (isDead c))).foldr (· + ·) 0 := by
  simp only [totalRemoved, significants, List.map_map]
  congr 1
  refine List.map_congr_left fun s _ => ?_
  exact (removed_significantFrom (isDead c) false s.tokens).symm

theorem recount_eq (c : Catalog) (shaders : List Shader) :
    c.recount (shaders.map tokens) = c.recount (significants shaders) := by
  have hflat : (shaders.map tokens).flatMap occurrences =
      (significants shaders).flatMap occurrences := by
    rw [significants, List.flatMap_map, List.flatMap_map]
    simp only [occurrences_significantForm]
  simp only [Catalog.recount, hflat]

/-- The rounds of stripping go by what is significant of the shaders. -/
theorem stripFrom_congr (lexed current : Catalog)
    (h : significants shaders = significants shaders') :
    (stripFrom lexed current shaders).catalog = (stripFrom lexed current shaders').catalog ∧
      significants (stripFrom lexed current shaders).shaders =
        significants (stripFrom lexed current shaders').shaders := by
  have leaves : ∀ {current : Catalog} {ss us : List Shader}, significants ss = significants us →
      significants (stripAll current ss) = significants (stripAll current us) ∧
        lexed.recount ((stripAll current ss).map tokens) =
          lexed.recount ((stripAll current us).map tokens) := by
    intro current ss us h
    have hleft : significants (stripAll current ss) = significants (stripAll current us) := by
      rw [significants_stripAll, significants_stripAll, h]
    exact ⟨hleft, by rw [recount_eq, recount_eq, hleft]⟩
  fun_induction stripFrom lexed current shaders generalizing shaders'
  case case1 current shaders left counted hnone =>
    have hnone' : totalRemoved current shaders' = 0 := by
      rw [totalRemoved_eq, ← h, ← totalRemoved_eq, hnone]
    rw [stripFrom, dif_pos hnone']
    exact ⟨(leaves h).2, (leaves h).1⟩
  case case2 current shaders left counted hsome rest ih =>
    have hsome' : totalRemoved current shaders' ≠ 0 := by
      rw [totalRemoved_eq, ← h, ← totalRemoved_eq]
      exact hsome
    rw [stripFrom, dif_neg hsome']
    have hcounted : counted = lexed.recount ((stripAll current shaders').map tokens) :=
      (leaves h).2
    rw [← hcounted]
    exact ih (leaves h).1

end Shader

end ShaderPress
