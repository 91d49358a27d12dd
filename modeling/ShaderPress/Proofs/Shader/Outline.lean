import ShaderPress.Proofs.Shader.Relexing
import ShaderPress.Proofs.Token.Sites

/-! # The outline of a stream

What is written of a stream does not depend on its blanks, but for those that keep apart
two operators that would merge, nor on the raw text of a directive.  The outline of a
stream drops all of that and spells the identifiers as told.  Streams with one outline are
laid out, counted and stripped alike.
-/
namespace ShaderPress

namespace Token
open Layout

/-- The one blank that an outline keeps. -/
def gapBlank : Bool → List Token
  | true => [lexeme [' '] 0 .whitespace]
  | false => []

mutual

def outlineOf (spell : Bool → Ident → List Char) (followsPoint : Bool) : Token → Token
  | define _ _ name arguments body =>
    define [] 0 (spell false name) (outlinePart spell arguments) (outlinePart spell body)
  | conditional _ _ test name => conditional [] 0 test (spell false name)
  | definedTest _ _ name => definedTest [] 0 (spell false name)
  | directive _ _ body => directive [] 0 (outlinePart spell body)
  | lexeme text _ .identifier => lexeme (spell followsPoint text) 0 .identifier
  | lexeme text _ kind => lexeme text 0 kind

def outlinePart (spell : Bool → Ident → List Char) : Option (List Token) → Option (List Token)
  | none => none
  | some tokens => some (outlineFrom spell none false tokens)

/-- The outline of what stands behind an operator, or behind another token, and a blank. -/
def outlineFrom (spell : Bool → Ident → List Char) (operator : Option (List Char))
    (separated : Bool) : List Token → List Token
  | [] => []
  | t :: ts =>
    if t.isBlank then outlineFrom spell operator true ts
    else
      gapBlank (separated && mergesWith operator t.operator?) ++
        outlineOf spell (operator == some ['.']) t :: outlineFrom spell t.operator? false ts

end

def outline (spell : Bool → Ident → List Char) (tokens : List Token) : List Token :=
  outlineFrom spell none false tokens

section
variable {spell : Bool → Ident → List Char} {followsPoint : Bool} {operator : Option (List Char)}
  {separated : Bool}

@[simp] theorem outlineFrom_nil : outlineFrom spell operator separated [] = [] := by
  rw [outlineFrom]

theorem outlineFrom_blank {t : Token} (ht : t.isBlank = true) (ts : List Token) :
    outlineFrom spell operator separated (t :: ts) = outlineFrom spell operator true ts := by
  rw [outlineFrom, if_pos ht]

theorem outlineFrom_cons {t : Token} (ht : t.isBlank = false) (ts : List Token) :
    outlineFrom spell operator separated (t :: ts) =
      gapBlank (separated && mergesWith operator t.operator?) ++
        outlineOf spell (operator == some ['.']) t :: outlineFrom spell t.operator? false ts := by
  rw [outlineFrom, ht, if_neg Bool.false_ne_true]

@[simp] theorem operator?_outlineOf (t : Token) :
    (outlineOf spell followsPoint t).operator? = t.operator? := by
  cases t with
  | lexeme text line kind => cases kind <;> rfl
  | _ => rfl

@[simp] theorem isBlank_outlineOf (t : Token) :
    (outlineOf spell followsPoint t).isBlank = t.isBlank := by
  cases t with
  | lexeme text line kind => cases kind <;> rfl
  | _ => rfl

@[simp] theorem isWhitespace_outlineOf (t : Token) :
    (outlineOf spell followsPoint t).isWhitespace = t.isWhitespace := by
  cases t with
  | lexeme text line kind => cases kind <;> rfl
  | _ => rfl

@[simp] theorem needsSpacing_outlineOf (t : Token) :
    (outlineOf spell followsPoint t).needsSpacing = t.needsSpacing := by
  cases t with
  | lexeme text line kind => cases kind <;> rfl
  | _ => rfl

@[simp] theorem isDirective_outlineOf (t : Token) :
    (outlineOf spell followsPoint t).isDirective = t.isDirective := by
  cases t with
  | lexeme text line kind => cases kind <;> rfl
  | _ => rfl

end

section
variable {spell : Bool → Ident → List Char} {operator : Option (List Char)} {tokens : List Token}

theorem outlineFrom_attach (separated : Bool) (text : List Char) (line : Nat) :
    outlineFrom spell operator separated (attach (lexeme text line .whitespace) tokens) =
      outlineFrom spell operator true tokens := by
  unfold attach
  split
  · rw [outlineFrom_blank rfl, outlineFrom_blank rfl]
  · rw [outlineFrom_blank rfl]

/-- Comments and blanks do not show in an outline. -/
theorem outlineFrom_strip_keepAll (separated : Bool) :
    outlineFrom spell operator separated (strip keepAll tokens) =
      outlineFrom spell operator separated tokens := by
  have nested : ∀ {part : Option (List Token)},
      (∀ s, part = some s → ∀ operator separated,
        outlineFrom spell operator separated (strip keepAll s) =
          outlineFrom spell operator separated s) →
      outlinePart spell (stripNested keepAll part) = outlinePart spell part := by
    intro part ih
    cases part with
    | none => simp only [stripNested]
    | some s => simp only [stripNested, outlinePart, ih s rfl]
  induction tokens using stream_induction generalizing operator separated with
  | nil => simp only [strip]
  | define text line name arguments body rest ha hb hr =>
    have hname : keepAll name = false := rfl
    simp only [strip, hname, Bool.false_eq_true, if_false]
    rw [outlineFrom_cons rfl, outlineFrom_cons rfl, hr]
    simp only [outlineOf, nested fun s hs _ => ha s hs, nested fun s hs _ => hb s hs]
    rfl
  | directive text line body rest hb hr =>
    simp only [strip]
    rw [outlineFrom_cons rfl, outlineFrom_cons rfl, hr]
    simp only [outlineOf, nested fun s hs _ => hb s hs]
    rfl
  | conditional text line test name rest hr | definedTest text line name rest hr =>
    simp only [strip, blankedComment, attach]
    rw [outlineFrom_cons rfl, outlineFrom_cons rfl, hr]
  | lexeme text line kind rest hr =>
    simp only [strip]
    cases kind with
    | whitespace | lineComment | blockComment =>
      simp only [blankedComment, outlineFrom_attach, hr]
      rw [outlineFrom_blank rfl]
    | _ =>
      simp only [blankedComment, attach]
      rw [outlineFrom_cons rfl, outlineFrom_cons rfl, hr]

end

section
variable {spell spell' : Bool → Ident → List Char} {operator : Option (List Char)}
  {tokens : List Token}

theorem outlineFrom_congr_of_mem (operator : Option (List Char)) (separated : Bool)
    (ht : ∀ t ∈ tokens, ∀ followsPoint,
      (∀ p ∈ sitesOf followsPoint t, spell p.1 p.2.name = spell' p.1 p.2.name) →
      outlineOf spell followsPoint t = outlineOf spell' followsPoint t)
    (h : ∀ p ∈ sitesFrom (operator == some ['.']) tokens,
      spell p.1 p.2.name = spell' p.1 p.2.name) :
    outlineFrom spell operator separated tokens = outlineFrom spell' operator separated tokens := by
  induction tokens generalizing operator separated with
  | nil => simp only [outlineFrom_nil]
  | cons t ts ih =>
    rw [List.forall_mem_cons] at ht
    cases hb : t.isBlank with
    | true =>
      rw [sitesFrom_blank hb] at h
      rw [outlineFrom_blank hb, outlineFrom_blank hb, ih _ _ ht.2 h]
    | false =>
      rw [sitesFrom_cons hb, List.forall_mem_append] at h
      rw [outlineFrom_cons hb, outlineFrom_cons hb, ht.1 _ h.1, ih _ _ ht.2 h.2]

theorem outlineOf_congr (t : Token) {followsPoint : Bool}
    (h : ∀ p ∈ sitesOf followsPoint t, spell p.1 p.2.name = spell' p.1 p.2.name) :
    outlineOf spell followsPoint t = outlineOf spell' followsPoint t := by
  have nested : ∀ {part : Option (List Token)},
      (∀ s, part = some s → ∀ t ∈ s, ∀ followsPoint,
        (∀ p ∈ sitesOf followsPoint t, spell p.1 p.2.name = spell' p.1 p.2.name) →
        outlineOf spell followsPoint t = outlineOf spell' followsPoint t) →
      (∀ p ∈ sitesPart part, spell p.1 p.2.name = spell' p.1 p.2.name) →
      outlinePart spell part = outlinePart spell' part := by
    intro part ih hp
    cases part with
    | none => simp only [outlinePart]
    | some s =>
      simp only [sitesPart] at hp
      simp only [outlinePart, outlineFrom_congr_of_mem none false (ih s rfl) hp]
  induction t using parts_induction generalizing followsPoint with
  | define text line name arguments body ha hb =>
    simp only [sitesOf, List.forall_mem_append, List.forall_mem_singleton, Occurrence.name] at h
    simp only [outlineOf, h.2.2, nested (fun s hs t ht _ => ha s hs t ht) h.1,
      nested (fun s hs t ht _ => hb s hs t ht) h.2.1]
  | directive text line body hb =>
    simp only [sitesOf] at h
    simp only [outlineOf, nested (fun s hs t ht _ => hb s hs t ht) h]
  | conditional text line test name | definedTest text line name =>
    simp only [sitesOf, List.forall_mem_singleton, Occurrence.name] at h
    simp only [outlineOf, h]
  | lexeme text line kind =>
    cases kind with
    | identifier =>
      simp only [sitesOf, List.forall_mem_singleton, Occurrence.name] at h
      simp only [outlineOf, h]
    | _ => rfl

/-- Spellings that agree on the identifiers of a stream give one outline. -/
theorem outlineFrom_congr (operator : Option (List Char)) (separated : Bool)
    (h : ∀ p ∈ sitesFrom (operator == some ['.']) tokens,
      spell p.1 p.2.name = spell' p.1 p.2.name) :
    outlineFrom spell operator separated tokens = outlineFrom spell' operator separated tokens :=
  outlineFrom_congr_of_mem operator separated (fun t _ _ => outlineOf_congr t) h

theorem sitesFrom_gapBlank (followsPoint gap : Bool) :
    sitesFrom followsPoint (gapBlank gap ++ tokens) = sitesFrom followsPoint tokens := by
  cases gap with
  | true => exact sitesFrom_blank rfl followsPoint
  | false => rfl

/-- An outline has the occurrences of its stream, spelled as told. -/
theorem sitesFrom_outlineFrom (spell : Bool → Ident → List Char) (operator : Option (List Char))
    (separated : Bool) (tokens : List Token) :
    sitesFrom (operator == some ['.']) (outlineFrom spell operator separated tokens) =
      (sitesFrom (operator == some ['.']) tokens).map fun p => (p.1, p.2.rename (spell p.1)) := by
  have nested : ∀ {part : Option (List Token)},
      (∀ s, part = some s → ∀ operator separated,
        sitesFrom (operator == some ['.']) (outlineFrom spell operator separated s) =
          (sitesFrom (operator == some ['.']) s).map fun p => (p.1, p.2.rename (spell p.1))) →
      sitesPart (outlinePart spell part) =
        (sitesPart part).map fun p => (p.1, p.2.rename (spell p.1)) := by
    intro part ih
    cases part with
    | none => simp only [outlinePart, sitesPart, List.map_nil]
    | some s =>
      simp only [outlinePart, sitesPart]
      exact ih s rfl none false
  have step : ∀ {t : Token} {rest : List Token},
      (∀ followsPoint, sitesOf followsPoint (outlineOf spell followsPoint t) =
        (sitesOf followsPoint t).map fun p => (p.1, p.2.rename (spell p.1))) →
      (∀ operator separated,
        sitesFrom (operator == some ['.']) (outlineFrom spell operator separated rest) =
          (sitesFrom (operator == some ['.']) rest).map fun p => (p.1, p.2.rename (spell p.1))) →
      ∀ operator separated,
        sitesFrom (operator == some ['.']) (outlineFrom spell operator separated (t :: rest)) =
          (sitesFrom (operator == some ['.']) (t :: rest)).map
            fun p => (p.1, p.2.rename (spell p.1)) := by
    intro t rest ht hr operator separated
    cases hb : t.isBlank with
    | true => rw [outlineFrom_blank hb, sitesFrom_blank hb, hr]
    | false =>
      rw [outlineFrom_cons hb, sitesFrom_gapBlank, sitesFrom_cons (by rw [isBlank_outlineOf, hb]),
        sitesFrom_cons hb, List.map_append, ht, isPoint, operator?_outlineOf, hr, isPoint]
  induction tokens using stream_induction generalizing operator separated with
  | nil => simp only [outlineFrom_nil, sitesFrom, List.map_nil]
  | define text line name arguments body rest ha hb hr =>
    refine step (fun _ => ?_) (fun _ _ => hr _ _) operator separated
    simp only [outlineOf, sitesOf, nested fun s hs _ _ => ha s hs _ _,
      nested fun s hs _ _ => hb s hs _ _, List.map_append]
    rfl
  | directive text line body rest hb hr =>
    refine step (fun _ => ?_) (fun _ _ => hr _ _) operator separated
    simp only [outlineOf, sitesOf, nested fun s hs _ _ => hb s hs _ _]
  | conditional text line test name rest hr | definedTest text line name rest hr =>
    exact step (fun _ => rfl) (fun _ _ => hr _ _) operator separated
  | lexeme text line kind rest hr =>
    refine step (fun _ => ?_) (fun _ _ => hr _ _) operator separated
    cases kind <;> rfl

end

end Token

end ShaderPress
