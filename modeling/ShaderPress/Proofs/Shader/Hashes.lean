import ShaderPress.Proofs.Shader.Text

/-! # Hashes

A directive is written with one hash, and words hold none.  So the hashes of a text are
those of its tokens, and stripping takes one from the text for each definition it drops.
-/
namespace ShaderPress

namespace Token

/-- The text that a token is written with but for blanks, identifiers and its parts. -/
def ownMarks : Token → List Char
  | define .. | conditional .. | directive .. => ['#']
  | definedTest .. | lexeme _ _ .identifier | lexeme _ _ .whitespace => []
  | lexeme text _ _ => text

/-- The hashes that a stream is written with, at every depth. -/
def hashes (tokens : List Token) : Nat := ((deep tokens).flatMap ownMarks).count '#'

def hashesPart (part : Option (List Token)) : Nat := ((deepNested part).flatMap ownMarks).count '#'

def hashesOf (t : Token) : Nat := (t.withParts.flatMap ownMarks).count '#'

section
variable {text : List Char} {line : Nat} {name : Ident} {arguments body : Option (List Token)}

@[simp] theorem hashesPart_none : hashesPart none = 0 := rfl

@[simp] theorem hashesPart_some (tokens : List Token) :
    hashesPart (some tokens) = hashes tokens := rfl

@[simp] theorem hashes_nil : hashes [] = 0 := rfl

theorem hashes_cons (t : Token) (ts : List Token) : hashes (t :: ts) = hashesOf t + hashes ts := by
  rw [hashes, deep, List.flatMap_append, List.count_append, hashesOf, hashes]

theorem hashes_whitespace {t : Token} (ht : t.isWhitespace = true) (ts : List Token) :
    hashes (t :: ts) = hashes ts := by
  cases t with
  | lexeme text line kind =>
    cases kind with
    | whitespace => exact hashes_cons _ ts |>.trans (Nat.zero_add _)
    | _ => cases ht
  | _ => cases ht

theorem hashesOf_define :
    hashesOf (define text line name arguments body) =
      1 + (hashesPart arguments + hashesPart body) := by
  rw [hashesOf, withParts, List.flatMap_cons, List.count_append, List.flatMap_append,
    List.count_append]
  rfl

theorem hashesOf_directive :
    hashesOf (directive text line body) = 1 + hashesPart body := by
  rw [hashesOf, withParts, List.flatMap_cons, List.count_append]
  rfl

end

theorem hashes_attach (t : Token) (ts : List Token) : hashes (attach t ts) = hashes (t :: ts) := by
  unfold attach
  split
  · rw [hashes_whitespace rfl, hashes_whitespace rfl, hashes_whitespace rfl]
  · rfl

/-- Stripping takes a hash from a stream for each definition that it drops. -/
theorem hashes_strip_add_removed_le (dead : Ident → Bool) (tokens : List Token) :
    hashes (strip dead tokens) + removed dead tokens ≤ hashes (strip keepAll tokens) := by
  have nested : ∀ {part : Option (List Token)},
      (∀ s, part = some s → hashes (strip dead s) + removed dead s ≤ hashes (strip keepAll s)) →
      hashesPart (stripNested dead part) + removedNested dead part ≤
        hashesPart (stripNested keepAll part) := by
    intro part ih
    cases part with
    | none => simp only [stripNested, removedNested, hashesPart_none, Nat.add_zero, Nat.le_refl]
    | some s =>
      simp only [stripNested, removedNested, hashesPart_some]
      exact ih s rfl
  have step : ∀ {t : Token} {rest : List Token},
      hashes (strip dead rest) + removed dead rest ≤ hashes (strip keepAll rest) →
      hashes (attach t.blankedComment (strip dead rest)) + removed dead rest ≤
        hashes (attach t.blankedComment (strip keepAll rest)) := by
    intro t rest hr
    rw [hashes_attach, hashes_attach, hashes_cons, hashes_cons, Nat.add_assoc]
    exact Nat.add_le_add_left hr _
  induction tokens using stream_induction with
  | nil => simp only [strip, removed, Nat.add_zero, Nat.le_refl]
  | define text line name arguments body rest ha hb hr =>
    have harguments := nested ha
    have hbody := nested hb
    have hkept : keepAll name = false := rfl
    simp only [strip, removed, hkept, Bool.false_eq_true, if_false, hashes_cons,
      hashesOf_define]
    split
    · omega
    · simp only [hashes_cons, hashesOf_define]
      omega
  | directive text line body rest hb hr =>
    have hbody := nested hb
    simp only [strip, removed, hashes_cons, hashesOf_directive]
    omega
  | conditional text line test name rest hr | definedTest text line name rest hr
  | lexeme text line kind rest hr =>
    simp only [strip, removed]
    exact step hr

end Token

namespace Layout
open Token
variable {spell : Bool → Ident → List Char} {c : Cursor} {tokens : List Token}

theorem count_hash_separator (c : Cursor) (t : Token) :
    (verbatim (separator c t)).count '#' = 0 := by
  unfold separator
  split
  · rfl
  · split
    · rfl
    · split <;> rfl

theorem count_hash_lineEnd (newline : Bool) : (verbatim (lineEnd false newline)).count '#' = 0 := by
  cases newline <;> rfl

theorem count_hash_bodySeparator (body : Option (List Token)) :
    (verbatim (bodySeparator false body)).count '#' = 0 := by
  cases body <;> rfl

theorem count_hash_textFrom_of_mem
    (h : ∀ t ∈ tokens, t.isWhitespace = false → ∀ followsPoint,
      (tokenText spell followsPoint t).1.count '#' = hashesOf t) :
    (textFrom spell c tokens).1.count '#' = hashes tokens := by
  induction tokens generalizing c with
  | nil => simp only [textFrom_nil, List.count_nil, hashes_nil]
  | cons t ts ih =>
    rw [List.forall_mem_cons] at h
    cases hw : t.isWhitespace with
    | true =>
      rw [textFrom_whitespace hw, ih h.2, hashes_whitespace hw]
    | false =>
      rw [textFrom_cons hw]
      simp only [List.count_append, count_hash_separator, h.1 hw, ih h.2, hashes_cons, Nat.zero_add]

theorem count_hash_tokenText {t : Token} (ht : t.isWhitespace = false)
    (h : Throughout (fun u => ∀ x, ownName? u = some x → ∀ followsPoint,
      '#' ∉ spell followsPoint x) t)
    (followsPoint : Bool) :
    (tokenText spell followsPoint t).1.count '#' = hashesOf t := by
  have nested : ∀ {part : Option (List Token)} {newline : Bool},
      (∀ s, part = some s → ∀ t ∈ s, t.isWhitespace = false → ∀ followsPoint,
        (tokenText spell followsPoint t).1.count '#' = hashesOf t) →
      (partText spell newline part).1.count '#' = hashesPart part := by
    intro part newline ih
    cases part with
    | none => simp only [partText, List.count_nil, hashesPart_none]
    | some s =>
      simp only [partText, hashesPart_some]
      exact count_hash_textFrom_of_mem (ih s rfl)
  have named : ∀ {x : Ident}, (∀ followsPoint, '#' ∉ spell followsPoint x) → ∀ followsPoint,
      (spell followsPoint x).count '#' = 0 :=
    fun hx followsPoint => List.count_eq_zero.mpr (hx followsPoint)
  induction h generalizing followsPoint with
  | define text line name arguments body hname _ _ ha hb =>
    have hkeyword : ['#', 'd', 'e', 'f', 'i', 'n', 'e', ' '].count '#' = 1 := rfl
    simp only [tokenText, List.count_append, hkeyword, named (hname name rfl), nested ha,
      nested hb, count_hash_bodySeparator, count_hash_lineEnd, hashesOf_define,
      Nat.zero_add, Nat.add_zero]
  | directive text line body _ _ hb =>
    have hkeyword : ['#'].count '#' = 1 := rfl
    simp only [tokenText, List.count_append, hkeyword, nested hb, count_hash_lineEnd,
      hashesOf_directive, Nat.add_zero]
  | conditional text line test name hname =>
    have hkeyword : ('#' :: (test.keyword ++ [' '])).count '#' = 1 := by cases test <;> rfl
    simp only [tokenText, List.count_append, hkeyword, named (hname name rfl), count_hash_lineEnd]
    rfl
  | definedTest text line name hname =>
    have hopen : Form.definedOpen.count '#' = 0 := rfl
    simp only [tokenText, List.count_append, hopen, named (hname name rfl)]
    rfl
  | lexeme text line kind hname =>
    cases kind with
    | identifier => exact named (hname text rfl) followsPoint
    | whitespace => cases ht
    | _ => exact (congrArg (List.count '#') (List.append_nil text)).symm

/-- A text has the hashes of its tokens, where the spelling of the identifiers has none. -/
theorem count_hash_textFrom
    (h : ∀ x ∈ mentioned tokens, ∀ followsPoint, '#' ∉ spell followsPoint x) :
    (textFrom spell c tokens).1.count '#' = hashes tokens :=
  count_hash_textFrom_of_mem fun t ht hw => count_hash_tokenText hw
    (throughout_of_deep (fun u hu x hx => h x (List.mem_filterMap.mpr ⟨u, hu, hx⟩)) t ht)

/-- Streams that are written with one text have as many hashes. -/
theorem hashes_eq_of_textFrom {spell' : Bool → Ident → List Char} {tokens' : List Token}
    (h : ∀ x ∈ mentioned tokens, ∀ followsPoint, '#' ∉ spell followsPoint x)
    (h' : ∀ x ∈ mentioned tokens', ∀ followsPoint, '#' ∉ spell' followsPoint x)
    (htext : (textFrom spell c tokens).1 = (textFrom spell' c tokens').1) :
    hashes tokens = hashes tokens' := by
  rw [← count_hash_textFrom h, htext, count_hash_textFrom h']

end Layout

end ShaderPress
