import ShaderPress.Proofs.Shader.Outline

/-! # The text of a stream

The text of a stream under a spelling of its identifiers, and whether it ends at the start
of a line.  It is what spelling the layout of the stream gives, and it is the text of the
outline as it stands.
-/
namespace ShaderPress

namespace Layout
open Token

/-- Pieces as they stand, identifiers included. -/
def verbatim (pieces : List Piece) : List Char :=
  pieces.flatMap fun
    | .fixed text => text
    | .name x => x

mutual

def tokenText (spell : Bool → Ident → List Char) (followsPoint : Bool) : Token → List Char × Bool
  | .define _ _ name arguments body =>
    let before := partText spell false arguments
    let behind := partText spell before.2 body
    (['#', 'd', 'e', 'f', 'i', 'n', 'e', ' '] ++ (spell false name ++ (before.1 ++
      (verbatim (bodySeparator false body) ++ (behind.1 ++ verbatim (lineEnd false behind.2))))),
      behind.2)
  | .conditional _ _ test name =>
    ('#' :: (test.keyword ++ [' ']) ++ (spell false name ++ verbatim (lineEnd false false)), false)
  | .definedTest _ _ name => (Form.definedOpen ++ (spell false name ++ [')']), false)
  | .directive _ _ body =>
    let behind := partText spell false body
    (['#'] ++ (behind.1 ++ verbatim (lineEnd false behind.2)), behind.2)
  | .lexeme text _ .identifier => (spell followsPoint text, false)
  | .lexeme text _ _ => (text, false)

def partText (spell : Bool → Ident → List Char) (newline : Bool) :
    Option (List Token) → List Char × Bool
  | none => ([], newline)
  | some tokens => textFrom spell start tokens

def textFrom (spell : Bool → Ident → List Char) (c : Cursor) : List Token → List Char × Bool
  | [] => ([], c.newline)
  | t :: ts =>
    if t.isWhitespace then textFrom spell { c with separated := true } ts
    else
      let own := tokenText spell (followsPoint c) t
      let rest := textFrom spell (afterToken false own.2 t) ts
      (verbatim (separator c t) ++ (own.1 ++ rest.1), rest.2)

end

section
variable {spell : Bool → Ident → List Char} {c : Cursor}

@[simp] theorem textFrom_nil : textFrom spell c [] = ([], c.newline) := by
  rw [textFrom]

theorem textFrom_whitespace {t : Token} (ht : t.isWhitespace = true) (ts : List Token) :
    textFrom spell c (t :: ts) = textFrom spell { c with separated := true } ts := by
  rw [textFrom, if_pos ht]

theorem textFrom_cons {t : Token} (ht : t.isWhitespace = false) (ts : List Token) :
    textFrom spell c (t :: ts) =
      let own := tokenText spell (followsPoint c) t
      let rest := textFrom spell (afterToken false own.2 t) ts
      (verbatim (separator c t) ++ (own.1 ++ rest.1), rest.2) := by
  rw [textFrom, ht, if_neg Bool.false_ne_true]

end

end Layout

namespace EmitContext
open Layout Token
variable {cx : EmitContext} {preserve : Bool}

theorem spell_verbatim {ps : List Piece} (h : Layout.names ps = []) :
    cx.spell preserve ps = .ok (verbatim ps) := by
  induction ps with
  | nil => rfl
  | cons p ps ih =>
    cases p with
    | fixed text => exact spell_fixed_eq_ok.mpr ⟨_, ih h, rfl⟩
    | name x => cases h

theorem spell_verbatim_append {ps qs : List Piece} (h : Layout.names ps = []) {text : List Char} :
    cx.spell preserve (ps ++ qs) = .ok text ↔
      ∃ b, cx.spell preserve qs = .ok b ∧ text = verbatim ps ++ b := by
  rw [spell_append_eq_ok, spell_verbatim h]
  constructor
  · rintro ⟨a, b, ha, hb, rfl⟩
    cases ha
    exact ⟨b, hb, rfl⟩
  · rintro ⟨b, hb, rfl⟩
    exact ⟨_, b, rfl, hb, rfl⟩

theorem textFrom_of_spell_of_mem {tokens : List Token} {c : Cursor} {text : List Char}
    (ht : ∀ t ∈ tokens, ∀ (c : Cursor) own, cx.spell preserve (tokenPieces false c t).1 = .ok own →
      tokenText (cx.respell preserve) (followsPoint c) t = (own, (tokenPieces false c t).2))
    (h : cx.spell preserve (streamPieces false c tokens).1 = .ok text) :
    textFrom (cx.respell preserve) c tokens = (text, (streamPieces false c tokens).2) := by
  induction tokens generalizing c text with
  | nil =>
    rw [streamPieces_nil] at h
    cases h
    rw [textFrom_nil, streamPieces_nil]
  | cons t ts ih =>
    rw [List.forall_mem_cons] at ht
    cases hw : t.isWhitespace with
    | true =>
      rw [streamPieces_whitespace_cons hw] at h ⊢
      rw [textFrom_whitespace hw, ih ht.2 h]
    | false =>
      rw [streamPieces_cons, Layout.written, hw, if_neg Bool.false_ne_true, List.append_assoc,
        spell_verbatim_append (names_separator c t)] at h
      obtain ⟨both, hboth, rfl⟩ := h
      obtain ⟨own, rest, hown, hrest, rfl⟩ := spell_append_eq_ok.mp hboth
      have hadvance : advance false c t = afterToken false (tokenPieces false c t).2 t := by
        rw [advance, hw, if_neg Bool.false_ne_true]
      rw [hadvance] at hrest
      rw [textFrom_cons hw, ht.1 c own hown, streamPieces_cons, hadvance]
      simp only [ih ht.2 hrest]

theorem tokenText_of_spell (t : Token) {c : Cursor} {text : List Char}
    (h : cx.spell preserve (tokenPieces false c t).1 = .ok text) :
    tokenText (cx.respell preserve) (followsPoint c) t = (text, (tokenPieces false c t).2) := by
  have nested : ∀ {part : Option (List Token)} {newline : Bool} {text : List Char},
      (∀ s, part = some s → ∀ t ∈ s, ∀ (c : Cursor) own,
        cx.spell preserve (tokenPieces false c t).1 = .ok own →
        tokenText (cx.respell preserve) (followsPoint c) t = (own, (tokenPieces false c t).2)) →
      cx.spell preserve (nestedPieces false newline part).1 = .ok text →
      partText (cx.respell preserve) newline part =
        (text, (nestedPieces false newline part).2) := by
    intro part newline text ih hp
    cases part with
    | none =>
      rw [nestedPieces_none] at hp ⊢
      cases hp
      rw [partText]
    | some s =>
      rw [nestedPieces_some] at hp ⊢
      rw [partText, textFrom_of_spell_of_mem (ih s rfl) hp]
  have named : ∀ {x : Ident} {ps : List Piece} {text : List Char},
      cx.spell preserve (.name x :: ps) = .ok text →
      ∃ rest, cx.spell preserve ps = .ok rest ∧ text = cx.respell preserve false x ++ rest := by
    intro x ps text hx
    obtain ⟨name, rest, hn, hrest, rfl⟩ := spell_cons_eq_ok.mp hx
    exact ⟨rest, hrest, congrArg (· ++ rest) (nameOf_eq hn).symm⟩
  induction t using parts_induction generalizing c text with
  | define w line name arguments body ha hb =>
    simp only [tokenPieces, List.append_assoc] at h ⊢
    obtain ⟨_, hname, rfl⟩ := spell_fixed_eq_ok.mp h
    obtain ⟨_, hrest, rfl⟩ := named hname
    obtain ⟨a, _, hargs, hbehind, rfl⟩ := spell_append_eq_ok.mp hrest
    obtain ⟨_, hboth, rfl⟩ := (spell_verbatim_append (names_bodySeparator body)).mp hbehind
    obtain ⟨b, e, hbody, hend, rfl⟩ := spell_append_eq_ok.mp hboth
    rw [spell_verbatim (names_lineEnd _)] at hend
    cases hend
    simp only [tokenText, nested (fun s hs t ht _ _ => ha s hs t ht) hargs,
      nested (fun s hs t ht _ _ => hb s hs t ht) hbody]
  | conditional w line test name =>
    simp only [tokenPieces] at h ⊢
    obtain ⟨_, hname, rfl⟩ := spell_fixed_eq_ok.mp h
    obtain ⟨_, hend, rfl⟩ := named hname
    rw [spell_verbatim (names_lineEnd _)] at hend
    cases hend
    rw [tokenText]
  | definedTest w line name =>
    simp only [tokenPieces] at h ⊢
    obtain ⟨_, hname, rfl⟩ := spell_fixed_eq_ok.mp h
    obtain ⟨_, hclose, rfl⟩ := named hname
    cases hclose
    rw [tokenText]
    rfl
  | directive w line body hb =>
    simp only [tokenPieces] at h ⊢
    obtain ⟨_, hboth, rfl⟩ := spell_fixed_eq_ok.mp h
    obtain ⟨b, e, hbody, hend, rfl⟩ := spell_append_eq_ok.mp hboth
    rw [spell_verbatim (names_lineEnd _)] at hend
    cases hend
    simp only [tokenText, nested (fun s hs t ht _ _ => hb s hs t ht) hbody]
  | lexeme w line kind =>
    by_cases hk : kind = .identifier
    · subst hk
      simp only [tokenPieces] at h ⊢
      rw [tokenText, (spell_identifier h).1]
    · rw [tokenPieces_lexeme hk] at h ⊢
      rw [spell_singleton_eq_ok] at h
      cases h
      cases kind <;> first | rfl | exact absurd rfl hk

/-- Spelling the layout of a stream gives the text of the stream. -/
theorem textFrom_of_spell {tokens : List Token} {c : Cursor} {text : List Char}
    (h : cx.spell preserve (streamPieces false c tokens).1 = .ok text) :
    textFrom (cx.respell preserve) c tokens = (text, (streamPieces false c tokens).2) :=
  textFrom_of_spell_of_mem (fun t _ _ _ => tokenText_of_spell t) h

end EmitContext

namespace Layout
open Token
variable {spell : Bool → Ident → List Char} {c : Cursor}

theorem textFrom_gapBlank (gap : Bool) (ts : List Token) :
    textFrom spell { c with separated := false } (gapBlank gap ++ ts) =
      textFrom spell { c with separated := gap } ts := by
  cases gap with
  | true => exact textFrom_whitespace rfl ts
  | false => rfl

theorem separator_outlineOf (followsPoint : Bool) (t : Token) :
    separator { c with separated := c.separated && mergesWith c.operator t.operator? }
      (outlineOf spell followsPoint t) = separator c t := by
  simp only [separator, isDirective_outlineOf, needsSpacing_outlineOf, operator?_outlineOf,
    Bool.and_assoc, Bool.and_self]

theorem afterToken_outlineOf (followsPoint newline : Bool) (t : Token) :
    afterToken false newline (outlineOf spell followsPoint t) = afterToken false newline t := by
  simp only [afterToken, operator?_outlineOf, needsSpacing_outlineOf, isDirective_outlineOf]

theorem isBlank_eq_isWhitespace {t : Token} (ht : t.isComment = false) :
    t.isBlank = t.isWhitespace := by
  rw [isBlank, ht, Bool.or_false]

theorem textFrom_outlineFrom_of_mem {tokens : List Token}
    (hcomment : ∀ t ∈ tokens, t.isComment = false)
    (ht : ∀ t ∈ tokens, ∀ followsPoint,
      tokenText asRead followsPoint (outlineOf spell followsPoint t) =
        tokenText spell followsPoint t) :
    textFrom asRead { c with separated := false }
        (outlineFrom spell c.operator c.separated tokens) =
      textFrom spell c tokens := by
  induction tokens generalizing c with
  | nil => rw [outlineFrom_nil, textFrom_nil, textFrom_nil]
  | cons t ts ih =>
    rw [List.forall_mem_cons] at hcomment ht
    have hblank := isBlank_eq_isWhitespace hcomment.1
    cases hw : t.isWhitespace with
    | true =>
      rw [outlineFrom_blank (hblank.trans hw), textFrom_whitespace hw]
      exact ih (c := { c with separated := true }) hcomment.2 ht.2
    | false =>
      rw [outlineFrom_cons (hblank.trans hw), textFrom_gapBlank,
        textFrom_cons (by rw [isWhitespace_outlineOf, hw]), textFrom_cons hw, separator_outlineOf]
      have hown : tokenText asRead (followsPoint c) (outlineOf spell (c.operator == some ['.']) t) =
          tokenText spell (followsPoint c) t := ht.1 (followsPoint c)
      have hpoint :
          followsPoint { c with separated := c.separated && mergesWith c.operator t.operator? } =
            followsPoint c := rfl
      have hrest :=
        ih (c := afterToken false (tokenText spell (followsPoint c) t).2 t) hcomment.2 ht.2
      simp only [afterToken_outlineOf, hpoint, hown, ← hrest]
      rfl

theorem tokenText_outlineOf {t : Token} (ht : Throughout (·.isComment = false) t)
    (followsPoint : Bool) :
    tokenText asRead followsPoint (outlineOf spell followsPoint t) =
      tokenText spell followsPoint t := by
  have nested : ∀ {part : Option (List Token)} {newline : Bool},
      (∀ s, part = some s → ∀ t ∈ s, Throughout (·.isComment = false) t) →
      (∀ s, part = some s → ∀ t ∈ s, ∀ followsPoint,
        tokenText asRead followsPoint (outlineOf spell followsPoint t) =
          tokenText spell followsPoint t) →
      partText asRead newline (outlinePart spell part) = partText spell newline part := by
    intro part newline hp ih
    cases part with
    | none => simp only [outlinePart, partText]
    | some s =>
      simp only [outlinePart, partText]
      exact textFrom_outlineFrom_of_mem (c := start) (fun t ht => (hp s rfl t ht).own) (ih s rfl)
  have hseparator : ∀ part : Option (List Token),
      bodySeparator false (outlinePart spell part) = bodySeparator false part := by
    intro part
    cases part <;> simp [outlinePart, bodySeparator]
  induction ht generalizing followsPoint with
  | define w line name arguments body _ harguments hbody ha hb =>
    simp only [outlineOf, tokenText, nested harguments ha, nested hbody hb, hseparator]
    rfl
  | directive w line body _ hbody hb => simp only [outlineOf, tokenText, nested hbody hb]
  | conditional w line test name | definedTest w line name => rfl
  | lexeme w line kind => cases kind <;> rfl

/-- The text of a stream is that of its outline as it stands. -/
theorem textFrom_outlineFrom {tokens : List Token} (h : ∀ t ∈ deep tokens, t.isComment = false)
    (c : Cursor) :
    textFrom asRead { c with separated := false }
        (outlineFrom spell c.operator c.separated tokens) =
      textFrom spell c tokens := by
  have hin := throughout_of_deep h
  exact textFrom_outlineFrom_of_mem (fun t ht => (hin t ht).own)
    fun t ht => tokenText_outlineOf (hin t ht)

theorem textFrom_outline {tokens : List Token} (h : ∀ t ∈ deep tokens, t.isComment = false) :
    textFrom asRead start (outline spell tokens) = textFrom spell start tokens :=
  textFrom_outlineFrom h start

end Layout

end ShaderPress
