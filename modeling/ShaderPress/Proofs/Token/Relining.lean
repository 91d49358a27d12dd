import ShaderPress.Proofs.Token.LineEnds

/-! # Forms of texts that differ in how lines end

Rule by rule the two texts hold the same form, with the same lines behind it.  What stands in
the body of a directive or in a line comment is left open: it depends on where that is taken to
end.
-/
namespace ShaderPress

namespace Form
open Pattern Text
variable {followed : Bool} {s s' : List Char}

/-- Forms without parts, other than comments and blanks. -/
def IsPlain : Form → Prop
  | define .. | directive .. | malformed _ | lexeme _ .lineComment => False
  | _ => True

/-- Forms found at the start of two texts that differ in how lines end. -/
inductive Relined (followed : Bool) (s s' : List Char) : Form → Form → Prop
  | define (before space : List Char) (name : Ident) {t t' : List Char}
    (hs : s = '#' :: (before ++ Keyword.define.text ++ space ++ name ++ t))
    (hs' : s' = '#' :: (before ++ Keyword.define.text ++ space ++ name ++ t'))
    (h : SameLines followed t t') :
    Relined followed s s' (defineForm before space name t) (defineForm before space name t')
  | directive (before : List Char) {t t' : List Char} (hs : s = '#' :: (before ++ t))
    (hs' : s' = '#' :: (before ++ t')) (h : SameLines followed t t') :
    Relined followed s s' (directive before (directiveBody t))
      (directive before (directiveBody t'))
  | lineComment {t t' : List Char} (hs : s = '/' :: '/' :: t) (hs' : s' = '/' :: '/' :: t')
    (h : SameLines followed t t') :
    Relined followed s s' (lexeme ('/' :: '/' :: lineRest t) .lineComment)
      (lexeme ('/' :: '/' :: lineRest t') .lineComment)
  | blank {w w' : List Char} {kind : Lexeme} (hk : kind = .whitespace ∨ kind = .blockComment)
    (h : SameStretch followed true s s' w w') :
    Relined followed s s' (lexeme w kind) (lexeme w' kind)
  | same {f : Form} (hf : f.IsPlain)
    (h : SameLines followed (s.drop f.text.length) (s'.drop f.text.length)) :
    Relined followed s s' f f
  | malformed (keyword : Keyword) :
    Relined followed s s' (malformed keyword) (malformed keyword)

theorem isPrefix_sameLines {w : List Char} (h : SameLines followed s s') (hn : '\n' ∉ w)
    (hr : '\r' ∉ w) : w <+: s' ↔ w <+: s := by
  refine ⟨?_, fun hp => h.isPrefix hp hn⟩
  rintro ⟨t', rfl⟩
  induction w generalizing s with
  | nil => exact List.nil_prefix
  | cons c w ih =>
    rw [List.mem_cons, not_or] at hn hr
    obtain ⟨t, rfl, ht⟩ := h.of_cons' (Ne.symm hn.1) (Ne.symm hr.1)
    exact (List.prefix_cons_inj c).mpr (ih hn.2 hr.2 ht)

theorem afterWord?_sameLines {w : List Char} (h : SameLines followed s s') (hn : '\n' ∉ w)
    (hr : '\r' ∉ w) : Option.Rel (SameLines followed) (afterWord? w s) (afterWord? w s') := by
  have hp := isPrefix_sameLines h hn hr
  rw [← List.isPrefixOf_iff_prefix, ← List.isPrefixOf_iff_prefix, ← Bool.eq_iff_iff] at hp
  rw [afterWord?, afterWord?, hp]
  split
  · next hw => exact .some (h.drop (List.isPrefixOf_iff_prefix.mp hw) hn)
  · exact .none

theorem afterKeyword?_sameLines {w : List Char} (h : SameLines followed s s') (hn : '\n' ∉ w)
    (hr : '\r' ∉ w) : Option.Rel (fun p p' => p.1 = p'.1 ∧ SameLines followed p.2 p'.2)
      (afterKeyword? w s) (afterKeyword? w s') := by
  have hnone : ∀ {s}, (∀ t, s ≠ '#' :: t) → afterKeyword? w s = none := by
    intro s hs
    unfold afterKeyword?
    split
    · exact absurd rfl (hs _)
    · rfl
  rcases h.starts (c := '#') (by decide) (by decide) with ⟨t, t', rfl, rfl, ht⟩ | ⟨hs, hs'⟩
  · rw [afterKeyword?, afterKeyword?, blind_gap.eq ht]
    have hrest := blind_gap.drop ht
    rw [blind_gap.eq ht] at hrest
    exact rel_map (afterWord?_sameLines hrest hn hr) fun h => ⟨rfl, h⟩
  · rw [hnone hs, hnone hs']
    exact .none

theorem eq_of_afterKeyword? {w before t : List Char} (h : afterKeyword? w s = some (before, t)) :
    let rest := t.drop (gap t).length
    s = '#' :: (before ++ w ++ gap t ++ identifier rest ++ rest.drop (identifier rest).length) := by
  intro rest
  rw [afterKeyword?_eq_some h]
  simp only [rest, List.append_assoc, List.prefix_iff_eq_append.mp (identifier_isPrefix _),
    List.prefix_iff_eq_append.mp (gap_isPrefix t)]

theorem named?_sameLines {keyword : Keyword}
    {form : List Char → List Char → Ident → List Char → Form} (h : SameLines followed s s')
    (hn : '\n' ∉ keyword.text) (hr : '\r' ∉ keyword.text)
    (hform : ∀ before space name t t',
      s = '#' :: (before ++ keyword.text ++ space ++ name ++ t) →
      s' = '#' :: (before ++ keyword.text ++ space ++ name ++ t') → SameLines followed t t' →
      Relined followed s s' (form before space name t) (form before space name t')) :
    Option.Rel (Relined followed s s') (named? keyword form s) (named? keyword form s') := by
  have hkey := afterKeyword?_sameLines h hn hr
  rw [named?, named?]
  generalize hs : afterKeyword? keyword.text s = x at hkey ⊢
  generalize hs' : afterKeyword? keyword.text s' = x' at hkey ⊢
  cases hkey with
  | none => exact .none
  | @some p p' hp =>
    obtain ⟨before, t⟩ := p
    obtain ⟨before', t'⟩ := p'
    obtain ⟨hbefore, ht⟩ := hp
    dsimp only at hbefore ht
    subst hbefore
    have hspace := blind_gap.drop ht
    have hname := blind_identifier.drop hspace
    have heq' := eq_of_afterKeyword? hs'
    dsimp only at heq'
    rw [blind_identifier.eq hspace, blind_gap.eq ht] at hname heq'
    dsimp only at hname ⊢
    rw [blind_identifier.eq hspace, blind_gap.eq ht, endsWord_sameLines ht]
    split
    · split
      · exact .some (.malformed keyword)
      · exact .none
    · exact .some (hform _ _ _ _ _ (eq_of_afterKeyword? hs) heq' hname)

theorem define?_sameLines (h : SameLines followed s s') :
    Option.Rel (Relined followed s s') (define? s) (define? s') :=
  named?_sameLines h (by decide) (by decide) fun before space name _ _ hs hs' ht =>
    .define before space name hs hs' ht

theorem conditional?_sameLines (test : Conditional) (h : SameLines followed s s') :
    Option.Rel (Relined followed s s') (conditional? test s) (conditional? test s') := by
  refine named?_sameLines h (by cases test <;> decide) (by cases test <;> decide) ?_
  rintro before space name t t' rfl rfl ht
  refine .same trivial ?_
  have hdrop : ∀ t, ('#' :: (before ++ (Keyword.conditional test).text ++ space ++ name ++ t)).drop
      (conditional before test space name).text.length = t :=
    fun t => List.drop_left
  rwa [hdrop, hdrop]

theorem definedTest?_sameLines (h : SameLines followed s s') :
    Option.Rel (Relined followed s s') (definedTest? s) (definedTest? s') := by
  have hopen := afterWord?_sameLines (w := definedOpen) h (by decide) (by decide)
  rw [definedTest?, definedTest?]
  generalize hs : afterWord? definedOpen s = x at hopen ⊢
  generalize hs' : afterWord? definedOpen s' = x' at hopen ⊢
  cases hopen with
  | none => exact .none
  | @some t t' ht =>
    have hrest := blind_identifier.drop ht
    have heq : identifier t ++ t.drop (identifier t).length = t :=
      List.prefix_iff_eq_append.mp (identifier_isPrefix t)
    have heq' : identifier t' ++ t'.drop (identifier t').length = t' :=
      List.prefix_iff_eq_append.mp (identifier_isPrefix t')
    rw [blind_identifier.eq ht] at hrest heq'
    dsimp only
    rw [blind_identifier.eq ht]
    generalize t.drop (identifier t).length = u at hrest heq ⊢
    generalize t'.drop (identifier t).length = u' at hrest heq' ⊢
    cases (identifier t).isEmpty with
    | true => exact .none
    | false =>
      rcases hrest.starts (c := ')') (by decide) (by decide) with
        ⟨v, v', rfl, rfl, hv⟩ | ⟨hu, hu'⟩
      · refine .some (.same trivial ?_)
        have hdrop : ∀ v, (definedOpen ++ (identifier t ++ ')' :: v)).drop
            (definedTest (identifier t)).text.length = v := by
          intro v
          have hv : definedOpen ++ (identifier t ++ ')' :: v) =
              (definedTest (identifier t)).text ++ v := by
            simp only [text, List.append_assoc, List.singleton_append]
          rw [hv, List.drop_left]
        have hs : s = definedOpen ++ (identifier t ++ ')' :: v) := by
          rw [afterWord?_eq_some hs, heq]
        have hs' : s' = definedOpen ++ (identifier t ++ ')' :: v') := by
          rw [afterWord?_eq_some hs', heq']
        rwa [hs, hs', hdrop, hdrop]
      · split
        · exact absurd rfl (hu _)
        · split
          · exact absurd rfl (hu' _)
          · exact .none

theorem directive?_sameLines (h : SameLines followed s s') :
    Option.Rel (Relined followed s s') (directive? s) (directive? s') := by
  have hnone : ∀ {s}, (∀ t, s ≠ '#' :: t) → directive? s = none := by
    intro s hs
    unfold directive?
    split
    · exact absurd rfl (hs _)
    · rfl
  rcases h.starts (c := '#') (by decide) (by decide) with ⟨t, t', rfl, rfl, ht⟩ | ⟨hs, hs'⟩
  · have hrest := blind_gap.drop ht
    have hgap : ∀ t, gap t ++ t.drop (gap t).length = t :=
      fun t => List.prefix_iff_eq_append.mp (gap_isPrefix t)
    rw [directive?, directive?, blind_gap.eq ht]
    rw [blind_gap.eq ht] at hrest
    refine .some (.directive _ ?_ ?_ hrest)
    · rw [hgap]
    · rw [← blind_gap.eq ht, hgap]
  · rw [hnone hs, hnone hs']
    exact .none

/-- A rule for lexemes whose pattern cannot tell line ends apart. -/
theorem lexeme?_sameLines {kind : Lexeme} {pattern : List Char → List Char} (hp : Blind pattern)
    (hk : kind ≠ .lineComment) (h : SameLines followed s s') :
    Option.Rel (Relined followed s s') (lexeme? kind pattern s) (lexeme? kind pattern s') := by
  have hrest := hp.drop h
  rw [hp.eq h] at hrest
  rw [lexeme?, lexeme?, hp.eq h]
  split
  · exact .none
  · refine .some (.same ?_ hrest)
    cases kind with
    | lineComment => exact hk rfl
    | _ => trivial

theorem lineComment?_sameLines (h : SameLines followed s s') :
    Option.Rel (Relined followed s s') (lexeme? .lineComment lineComment s)
      (lexeme? .lineComment lineComment s') := by
  have hnone : ∀ {s}, (∀ t, s ≠ '/' :: '/' :: t) → lexeme? .lineComment lineComment s = none := by
    intro s hs
    have : lineComment s = [] := by
      unfold lineComment
      split
      · exact absurd rfl (hs _)
      · rfl
    rw [lexeme?, this]
  rcases h.startsTwo (c := '/') (d := '/') (by decide) (by decide) with
    ⟨t, t', rfl, rfl, ht⟩ | ⟨hs, hs'⟩
  · exact .some (.lineComment rfl rfl ht)
  · rw [hnone hs, hnone hs']
    exact .none

theorem blockComment?_sameLines (h : SameLines followed s s') :
    Option.Rel (Relined followed s s') (lexeme? .blockComment blockComment s)
      (lexeme? .blockComment blockComment s') := by
  have hnone : ∀ {s}, (∀ t, s ≠ '/' :: '*' :: t) → lexeme? .blockComment blockComment s = none := by
    intro s hs
    have : blockComment s = [] := by
      unfold blockComment
      split
      · exact absurd rfl (hs _)
      · rfl
    rw [lexeme?, this]
  rcases h.startsTwo (c := '/') (d := '*') (by decide) (by decide) with
    ⟨t, t', rfl, rfl, ht⟩ | ⟨hs, hs'⟩
  · have hclose := commentRest?_sameLines ht
    rw [lexeme?, lexeme?, blockComment, blockComment]
    generalize commentRest? t = x at hclose ⊢
    generalize commentRest? t' = x' at hclose ⊢
    cases hclose with
    | none => exact .none
    | some h =>
      have hstep := h.char (c := '*') (by decide) (by decide)
      exact .some (.blank (.inr rfl) (hstep.char (by decide) (by decide)))
  · rw [hnone hs, hnone hs']
    exact .none

/-- At a character that is in no line end one text starts with a blank if the other does. -/
theorem whitespace?_sameLines {c : Char} (hn : c ≠ '\n') (hr : c ≠ '\r')
    (h : SameLines followed s s') :
    Option.Rel (Relined followed (c :: s) (c :: s')) (lexeme? .whitespace whitespace (c :: s))
      (lexeme? .whitespace whitespace (c :: s')) := by
  have hw := whitespace_sameLines (h.char hn hr)
  have hgap := whitespace_isPrefix (c :: s')
  rw [lexeme?, lexeme?]
  generalize whitespace (c :: s) = w at hw ⊢
  generalize whitespace (c :: s') = w' at hw hgap ⊢
  cases w with
  | nil =>
    cases w' with
    | nil => exact .none
    | cons d w' =>
      obtain ⟨rest, hrest⟩ := hgap
      cases hw.own
      exact absurd (List.cons.inj hrest).1.symm hr
  | cons d w =>
    cases w' with
    | nil => cases hw.own
    | cons d' w' => exact .some (.blank (.inl rfl) hw)

theorem first?_return (s : List Char) :
    first? ('\r' :: s) = some (lexeme ('\r' :: whitespace s) .whitespace) := by
  have hw : whitespace ('\r' :: s) = '\r' :: whitespace s := whitespace_cons _ _ (by decide)
  simp [first?, rules, define?, conditional?, named?, afterKeyword?, definedTest?, afterWord?,
    definedOpen, lexeme?, tokenPaste, directive?, lineComment, blockComment, hw]

theorem findSome?_rel {R : Form → Form → Prop} {rules : List (List Char → Option Form)}
    (h : ∀ rule ∈ rules, Option.Rel R (rule s) (rule s')) :
    Option.Rel R (rules.findSome? (· s)) (rules.findSome? (· s')) := by
  induction rules with
  | nil => exact .none
  | cons rule rules ih =>
    rw [List.forall_mem_cons] at h
    have hrule := h.1
    rw [List.findSome?_cons, List.findSome?_cons]
    generalize rule s = x at hrule ⊢
    generalize rule s' = x' at hrule ⊢
    cases hrule with
    | none => exact ih h.2
    | some h => exact .some h

/-- The first rule that accepts one text accepts the other. -/
theorem first?_sameLines (h : SameLines followed s s') (hs : s ≠ []) :
    Option.Rel (Relined followed s s') (first? s) (first? s') := by
  cases h with
  | nil => exact absurd rfl hs
  | last => exact absurd rfl hs
  | newline h =>
    rw [first?_newline, first?_newline]
    exact .some (.blank (.inl rfl) (whitespace_sameLines h).newline)
  | crlf h =>
    rw [first?_newline, first?_return, whitespace_cons _ _ (by decide)]
    exact .some (.blank (.inl rfl) (whitespace_sameLines h).crlf)
  | @char c s s' hn hr h =>
    have hc := h.char hn hr
    refine findSome?_rel ?_
    simp only [rules, List.forall_mem_cons]
    exact ⟨define?_sameLines hc, conditional?_sameLines .ifdef hc,
      conditional?_sameLines .ifndef hc,
      definedTest?_sameLines hc, lexeme?_sameLines blind_tokenPaste (by decide) hc,
      directive?_sameLines hc, lineComment?_sameLines hc, blockComment?_sameLines hc,
      whitespace?_sameLines hn hr h, lexeme?_sameLines blind_operator (by decide) hc,
      lexeme?_sameLines blind_floatLiteral (by decide) hc,
      lexeme?_sameLines blind_hexLiteral (by decide) hc,
      lexeme?_sameLines blind_intLiteral (by decide) hc,
      lexeme?_sameLines blind_identifier (by decide) hc, .some (.same trivial h),
      fun _ hm => absurd hm List.not_mem_nil⟩

end Form

end ShaderPress
