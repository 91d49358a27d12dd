import ShaderPress.Proofs.Shader.Text
import ShaderPress.Proofs.Token.Boundaries

/-! # Texts of one stream

A stream without comments is written under two spellings by words.  Behind every identifier
stands something that ends the word, so the two texts are equal only where the spellings
agree.
-/
namespace ShaderPress

namespace Pattern

theorem IsWord.append_inj {w w' r r' : List Char} (hw : IsWord w) (hw' : IsWord w')
    (hr : EndsWord r) (hr' : EndsWord r') (h : w ++ r = w' ++ r') : w = w' ∧ r = r' := by
  have hpart : ∀ {v u : List Char}, IsWord v → EndsWord u → (v ++ u).takeWhile isIdentPart = v :=
    fun hv hu => takeWhile_append_of_all (Ident.isIdentPart_of_mem hv)
      (hu.takeWhile_eq_nil fun _ h => h)
  have heq : w = w' := by rw [← hpart hw hr, h, hpart hw' hr']
  subst heq
  exact ⟨rfl, List.append_cancel_left h⟩

end Pattern

/-- A token of which it is known where the words before it end. -/
structure Token.Bounded (t : Token) : Prop where
  ends : t.EndsWords
  comment : t.isComment = false

namespace Layout
open Pattern Token
variable {spell spell' : Bool → Ident → List Char} {c : Cursor} {tokens : List Token}

theorem newline_textFrom_of_mem
    (h : ∀ t ∈ tokens, ∀ followsPoint,
      (tokenText spell followsPoint t).2 = (tokenText spell' followsPoint t).2) :
    (textFrom spell c tokens).2 = (textFrom spell' c tokens).2 := by
  induction tokens generalizing c with
  | nil => simp only [textFrom_nil]
  | cons t ts ih =>
    rw [List.forall_mem_cons] at h
    cases hw : t.isWhitespace with
    | true => rw [textFrom_whitespace hw, textFrom_whitespace hw, ih h.2]
    | false =>
      rw [textFrom_cons hw, textFrom_cons hw]
      simp only [h.1, ih h.2]

theorem newline_partText_of_mem {part : Option (List Token)} {newline : Bool}
    (h : ∀ s, part = some s → ∀ t ∈ s, ∀ followsPoint,
      (tokenText spell followsPoint t).2 = (tokenText spell' followsPoint t).2) :
    (partText spell newline part).2 = (partText spell' newline part).2 := by
  cases part with
  | none => simp only [partText]
  | some s => simp only [partText, newline_textFrom_of_mem (h s rfl)]

theorem newline_tokenText (t : Token) (followsPoint : Bool) :
    (tokenText spell followsPoint t).2 = (tokenText spell' followsPoint t).2 := by
  induction t using parts_induction generalizing followsPoint with
  | define text line name arguments body ha hb =>
    simp only [tokenText, newline_partText_of_mem ha, newline_partText_of_mem hb]
  | directive text line body hb => simp only [tokenText, newline_partText_of_mem hb]
  | conditional text line test name | definedTest text line name => simp only [tokenText]
  | lexeme text line kind => cases kind <;> simp only [tokenText]

theorem newline_partText {part : Option (List Token)} {newline : Bool} :
    (partText spell newline part).2 = (partText spell' newline part).2 :=
  newline_partText_of_mem fun _ _ t _ => newline_tokenText t

/-- Whether a text ends at the start of a line does not depend on the spelling. -/
theorem newline_textFrom : (textFrom spell c tokens).2 = (textFrom spell' c tokens).2 :=
  newline_textFrom_of_mem fun t _ => newline_tokenText t

/-- What is written behind a word ends it. -/
theorem endsWord_textFrom (hspace : c.needsSpacing = true) (hline : c.newline = false)
    (hbounded : ∀ t ∈ tokens, t.Bounded) {rest : List Char}
    (hrest : (textFrom spell c tokens).2 = false → EndsWord rest) :
    EndsWord ((textFrom spell c tokens).1 ++ rest) := by
  induction tokens generalizing c with
  | nil =>
    rw [textFrom_nil] at hrest ⊢
    exact hrest hline
  | cons t ts ih =>
    rw [List.forall_mem_cons] at hbounded
    cases hw : t.isWhitespace with
    | true =>
      rw [textFrom_whitespace hw] at hrest ⊢
      exact ih hspace hline hbounded.2 hrest
    | false =>
      rw [textFrom_cons hw]
      have hspaced : ∀ {s : List Char}, EndsWord (' ' :: s) := endsWord_cons (by decide)
      cases hd : t.isDirective with
      | true =>
        have hseparator : separator c t = [.fixed ['\n']] := by simp [separator, hd, hline]
        rw [hseparator]
        exact endsWord_cons (by decide)
      | false =>
        cases hn : t.needsSpacing with
        | true =>
          have hseparator : separator c t = [.fixed [' ']] := by simp [separator, hd, hn, hspace]
          rw [hseparator]
          exact hspaced
        | false =>
          obtain ⟨d, w, hown, hd'⟩ : ∃ d w, (tokenText spell (followsPoint c) t).1 = d :: w ∧
              isIdentPart d = false := by
            cases t with
            | lexeme text line kind =>
              cases kind with
              | operator | tokenPaste | unknown => exact hbounded.1.ends
              | whitespace => cases hw
              | lineComment | blockComment => cases hbounded.1.comment
              | _ => cases hn
            | definedTest text line name => cases hn
            | _ => cases hd
          cases hgap : c.separated && mergesWith c.operator t.operator? with
          | true =>
            have hseparator : separator c t = [.fixed [' ']] := by simp [separator, hd, hn, hgap]
            rw [hseparator]
            exact hspaced
          | false =>
            have hseparator : separator c t = [] := by simp [separator, hd, hn, hgap]
            simp only [hseparator, hown]
            exact endsWord_cons hd'

theorem newline_of_needsSpacing {t : Token} (ht : t.needsSpacing = true) (followsPoint : Bool) :
    (tokenText spell followsPoint t).2 = false ∧ t.isDirective = false := by
  cases t with
  | lexeme text line kind => cases kind <;> exact ⟨rfl, rfl⟩
  | definedTest text line name => exact ⟨rfl, rfl⟩
  | _ => cases ht

/-- Both spellings write words for some identifiers. -/
def BothWords (spell spell' : Bool → Ident → List Char) (sites : List (Bool × Occurrence)) : Prop :=
  ∀ p ∈ sites, IsWord (spell p.1 p.2.name) ∧ IsWord (spell' p.1 p.2.name)

def Agree (spell spell' : Bool → Ident → List Char) (sites : List (Bool × Occurrence)) : Prop :=
  ∀ p ∈ sites, spell p.1 p.2.name = spell' p.1 p.2.name

/-- The texts of a token, with what stands behind them, are equal only if the spellings agree on
its identifiers and the same stands behind both. -/
def Aligned (spell spell' : Bool → Ident → List Char) (t : Token) : Prop :=
  ∀ followsPoint r r', BothWords spell spell' (sitesOf followsPoint t) →
    (t.needsSpacing = true → EndsWord r ∧ EndsWord r') →
    (tokenText spell followsPoint t).1 ++ r = (tokenText spell' followsPoint t).1 ++ r' →
    Agree spell spell' (sitesOf followsPoint t) ∧ r = r'

theorem agree_of_textFrom_of_mem {r r' : List Char} (ht : ∀ t ∈ tokens, Aligned spell spell' t)
    (hbounded : ∀ t ∈ tokens, t.Bounded)
    (hwords : BothWords spell spell' (sitesFrom (followsPoint c) tokens))
    (hrest : (textFrom spell c tokens).2 = false → EndsWord r ∧ EndsWord r')
    (h : (textFrom spell c tokens).1 ++ r = (textFrom spell' c tokens).1 ++ r') :
    Agree spell spell' (sitesFrom (followsPoint c) tokens) ∧ r = r' := by
  induction tokens generalizing c with
  | nil =>
    simp only [textFrom_nil, List.nil_append] at h
    exact ⟨fun p hp => absurd hp List.not_mem_nil, h⟩
  | cons t ts ih =>
    rw [List.forall_mem_cons] at ht hbounded
    have hblank := isBlank_eq_isWhitespace hbounded.1.comment
    cases hw : t.isWhitespace with
    | true =>
      rw [sitesFrom_blank (hblank.trans hw)] at hwords ⊢
      rw [textFrom_whitespace hw] at hrest h
      rw [textFrom_whitespace hw] at h
      exact ih (c := { c with separated := true }) ht.2 hbounded.2 hwords hrest h
    | false =>
      rw [sitesFrom_cons (hblank.trans hw), BothWords, List.forall_mem_append] at hwords
      rw [textFrom_cons hw] at hrest h
      rw [textFrom_cons hw] at h
      have hnewline : (tokenText spell' (followsPoint c) t).2 =
          (tokenText spell (followsPoint c) t).2 := newline_tokenText t (followsPoint c)
      simp only [hnewline, List.append_assoc, List.append_cancel_left_eq] at h
      have hbehind : (textFrom spell (afterToken false (tokenText spell (followsPoint c) t).2 t)
          ts).2 = false → EndsWord r ∧ EndsWord r' := hrest
      have hword : t.needsSpacing = true →
          EndsWord ((textFrom spell (afterToken false (tokenText spell (followsPoint c) t).2 t)
            ts).1 ++ r) ∧
          EndsWord ((textFrom spell' (afterToken false (tokenText spell (followsPoint c) t).2 t)
            ts).1 ++ r') := by
        intro hn
        obtain ⟨hline, hd⟩ : (tokenText spell (followsPoint c) t).2 = false ∧
            t.isDirective = false := newline_of_needsSpacing hn (followsPoint c)
        have hend :
            (afterToken false (tokenText spell (followsPoint c) t).2 t).newline = false := by
          simp only [afterToken, hline, hd, Bool.false_and, Bool.or_false]
        exact ⟨endsWord_textFrom hn hend hbounded.2 fun hf => (hbehind hf).1,
          endsWord_textFrom hn hend hbounded.2 fun hf => (hbehind (newline_textFrom.trans hf)).2⟩
      obtain ⟨hown, hrests⟩ := ht.1 _ _ _ hwords.1 hword h
      obtain ⟨hothers, he⟩ := ih (c := afterToken false (tokenText spell (followsPoint c) t).2 t)
        ht.2 hbounded.2 hwords.2 hbehind hrests
      rw [sitesFrom_cons (hblank.trans hw), Agree, List.forall_mem_append]
      exact ⟨⟨hown, hothers⟩, he⟩

theorem agree_of_partText_of_mem {part : Option (List Token)} {newline : Bool} {r r' : List Char}
    (hbounded : ∀ s, part = some s → ∀ t ∈ s, Throughout Bounded t)
    (ht : ∀ s, part = some s → ∀ t ∈ s, Aligned spell spell' t)
    (hwords : BothWords spell spell' (sitesPart part))
    (hrest : (partText spell newline part).2 = false → EndsWord r ∧ EndsWord r')
    (h : (partText spell newline part).1 ++ r = (partText spell' newline part).1 ++ r') :
    Agree spell spell' (sitesPart part) ∧ r = r' := by
  cases part with
  | none =>
    simp only [partText, List.nil_append] at h
    simp only [sitesPart]
    exact ⟨fun p hp => absurd hp List.not_mem_nil, h⟩
  | some s =>
    simp only [partText, sitesPart] at hwords hrest h ⊢
    exact agree_of_textFrom_of_mem (c := start) (ht s rfl)
      (fun t hts => (hbounded s rfl t hts).own) hwords hrest h

theorem endsWord_lineEnd {newline : Bool} {r : List Char} (h : newline = false) :
    EndsWord (verbatim (lineEnd false newline) ++ r) := by
  subst h
  exact endsWord_cons (by decide)

/-- What is written of a definition behind its arguments. -/
theorem endsWord_behindArguments {newline : Bool} (h : newline = false)
    (body : Option (List Token)) (r : List Char) :
    EndsWord (verbatim (bodySeparator false body) ++ ((partText spell newline body).1 ++
      (verbatim (lineEnd false (partText spell newline body).2) ++ r))) := by
  cases body with
  | none =>
    simp only [partText]
    exact endsWord_lineEnd h
  | some s => exact endsWord_cons (by decide)

/-- An argument list is written with its parenthesis first. -/
theorem endsWord_behindName {text : List Char} {line : Nat} {name : Ident}
    {arguments body : Option (List Token)} (h : (define text line name arguments body).EndsWords)
    (r : List Char) :
    EndsWord ((partText spell false arguments).1 ++ (verbatim (bodySeparator false body) ++
      ((partText spell (partText spell false arguments).2 body).1 ++
        (verbatim (lineEnd false (partText spell (partText spell false arguments).2 body).2) ++
          r)))) := by
  cases arguments with
  | none =>
    simp only [partText]
    exact endsWord_behindArguments rfl body r
  | some s =>
    obtain ⟨line, rest, rfl⟩ := h s rfl
    rw [partText, textFrom_cons rfl]
    exact endsWord_cons (by decide)

theorem aligned_of_bounded {t : Token} (hbounded : Throughout Bounded t) :
    Aligned spell spell' t := by
  induction hbounded with
  | define text line name arguments body hown hinArguments hinBody ha hb =>
    intro followsPoint r r' hwords _ h
    simp only [BothWords, Agree, sitesOf, List.forall_mem_append, List.forall_mem_singleton,
      Occurrence.name] at hwords ⊢
    simp only [tokenText, List.append_assoc, List.append_cancel_left_eq] at h
    obtain ⟨hname, hbehind⟩ := hwords.2.2.1.append_inj hwords.2.2.2
      (endsWord_behindName hown.ends r) (endsWord_behindName hown.ends r') h
    obtain ⟨harguments, hbehind⟩ := agree_of_partText_of_mem hinArguments ha hwords.1
      (fun hf => ⟨endsWord_behindArguments hf body r,
        endsWord_behindArguments (newline_partText.symm.trans hf) body r'⟩) hbehind
    have hbefore : (partText spell' false arguments).2 = (partText spell false arguments).2 :=
      newline_partText
    have hnewline : ∀ newline, (partText spell' newline body).2 = (partText spell newline body).2 :=
      fun _ => newline_partText
    rw [hbefore, hnewline] at hbehind
    obtain ⟨hbody, hend⟩ := agree_of_partText_of_mem hinBody hb hwords.2.1
      (fun hf => ⟨endsWord_lineEnd hf, endsWord_lineEnd hf⟩) (List.append_cancel_left hbehind)
    exact ⟨⟨harguments, hbody, hname⟩, List.append_cancel_left hend⟩
  | conditional text line test name =>
    intro followsPoint r r' hwords _ h
    simp only [BothWords, Agree, sitesOf, List.forall_mem_singleton, Occurrence.name] at hwords ⊢
    simp only [tokenText, List.append_assoc, List.cons_append, List.cons.injEq, true_and,
      List.append_cancel_left_eq] at h
    obtain ⟨hname, hend⟩ := hwords.1.append_inj hwords.2 (endsWord_lineEnd rfl)
      (endsWord_lineEnd rfl) h
    exact ⟨hname, List.append_cancel_left hend⟩
  | definedTest text line name =>
    intro followsPoint r r' hwords _ h
    simp only [BothWords, Agree, sitesOf, List.forall_mem_singleton, Occurrence.name] at hwords ⊢
    simp only [tokenText, List.append_assoc, List.append_cancel_left_eq] at h
    obtain ⟨hname, hend⟩ := hwords.1.append_inj hwords.2 (endsWord_cons (by decide))
      (endsWord_cons (by decide)) h
    exact ⟨hname, (List.cons.inj hend).2⟩
  | directive text line body _ hinBody hb =>
    intro followsPoint r r' hwords _ h
    simp only [sitesOf] at hwords ⊢
    have hnewline : (partText spell' false body).2 = (partText spell false body).2 :=
      newline_partText
    simp only [tokenText, List.append_assoc, List.append_cancel_left_eq, hnewline] at h
    obtain ⟨hbody, hend⟩ := agree_of_partText_of_mem hinBody hb hwords
      (fun hf => ⟨endsWord_lineEnd hf, endsWord_lineEnd hf⟩) h
    exact ⟨hbody, List.append_cancel_left hend⟩
  | lexeme text line kind =>
    intro followsPoint r r' hwords hr h
    cases kind with
    | identifier =>
      simp only [BothWords, Agree, sitesOf, List.forall_mem_singleton, Occurrence.name] at hwords ⊢
      exact hwords.1.append_inj hwords.2 (hr rfl).1 (hr rfl).2 h
    | _ => exact ⟨fun p hp => absurd hp List.not_mem_nil, List.append_cancel_left h⟩

/-- Where two spellings by words give one text, they agree on the identifiers of the stream. -/
theorem agree_of_textFrom (hbounded : ∀ u ∈ deep tokens, u.Bounded)
    (hwords : BothWords spell spell' (sites tokens))
    (h : textFrom spell start tokens = textFrom spell' start tokens) :
    Agree spell spell' (sites tokens) := by
  have hin := throughout_of_deep hbounded
  have hend : EndsWord [] := nofun
  exact (agree_of_textFrom_of_mem (c := start) (fun t ht => aligned_of_bounded (hin t ht))
    (fun t ht => (hin t ht).own) hwords (fun _ => ⟨hend, hend⟩)
    (congrArg (·.1 ++ []) h)).1

end Layout

end ShaderPress
