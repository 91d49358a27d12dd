import ShaderPress.Proofs.Token.Reading

/-! # Preprocessor lines that are found again

A preprocessor line in its plain spelling, with a line end behind it, is found whole: its
keyword or first word directly behind the hash, one space before a name, an argument list up
to its first closing parenthesis, and a body that no comment cuts off.
-/
namespace ShaderPress

namespace Pattern
variable {c : Char} {s w : List Char}

theorem directiveBody_cons_of_ne (hc : c ≠ '\n') (hb : c ≠ '\\')
    (hs : c = '/' → s.head? ≠ some '/' ∧ s.head? ≠ some '*') :
    directiveBody (c :: s) = c :: directiveBody s := by
  refine directiveBody_cons hc (fun h => absurd h hb) fun h t => ⟨?_, ?_⟩
  · rintro rfl
    exact (hs h).1 rfl
  · rintro rfl
    exact (hs h).2 rfl

theorem directiveBody_append (hw : ∀ c ∈ w, c ≠ '\n' ∧ c ≠ '\\' ∧ c ≠ '/') :
    directiveBody (w ++ s) = w ++ directiveBody s := by
  induction w with
  | nil => rfl
  | cons c w ih =>
    rw [List.forall_mem_cons] at hw
    rw [List.cons_append, directiveBody_cons_of_ne hw.1.1 hw.1.2.1 fun h => absurd h hw.1.2.2,
      ih hw.2]
    rfl

theorem directiveBody_newline (s : List Char) : directiveBody ('\n' :: s) = [] := by
  rw [directiveBody, if_pos rfl]
  · rintro t he
    cases he
  · rintro t he
    cases he
  · rintro t he
    cases he

theorem gap_cons_of_ne (hc : isGap c = false) : gap (c :: s) = [] := by
  rw [gap, List.takeWhile_cons, hc]
  rfl

theorem isGap_of_isIdentPart (hc : isIdentPart c = true) : isGap c = false := by
  refine Bool.eq_false_iff.mpr fun hg => ?_
  rw [isGap, Bool.or_eq_true, beq_iff_eq, beq_iff_eq] at hg
  rcases hg with rfl | rfl <;> exact absurd hc (by decide)

/-- The characters of identifiers continue a word. -/
theorem isWord_of_isIdentPart (hc : isIdentPart c = true) : Text.isWord c = true := by
  rw [isIdentPart_iff, isIdentStart_iff, isUpper_iff, isLower_iff, isDigit_iff] at hc
  rw [Text.isWord, Text.within, Text.wordBounds]
  rcases hc with ((hc | hc) | rfl) | hc
  · rw [Text.flips_of_le (by omega), Text.flips_of_le (by omega), Text.flips_of_le (by omega),
      Text.flips_of_lt (by omega)]
    rfl
  · rw [Text.flips_of_le (by omega), Text.flips_of_le (by omega), Text.flips_of_le (by omega),
      Text.flips_of_le (by omega), Text.flips_of_le (by omega), Text.flips_of_le (by omega),
      Text.flips_of_le (by omega), Text.flips_of_lt (by omega)]
    rfl
  · rfl
  · rw [Text.flips_of_le (by omega), Text.flips_of_lt (by omega)]
    rfl

theorem gap_append_of_isWord (hw : IsWord w) : gap (w ++ s) = [] := by
  cases w with
  | nil => exact hw.elim
  | cons c w => exact gap_cons_of_ne (isGap_of_isIdentPart (isIdentPart_of_isIdentStart hw.1))

theorem isWord_keyword (keyword : Keyword) : IsWord keyword.text := by
  cases keyword with
  | define => exact ⟨by decide, List.all_eq_true.mp (by decide)⟩
  | conditional test => cases test <;> exact ⟨by decide, List.all_eq_true.mp (by decide)⟩

end Pattern

namespace Form
open Pattern
variable {keyword : Keyword} {form : List Char → List Char → Ident → List Char → Form}
  {s w name rest body : List Char}

theorem first?_blank {c : Char} (hc : Text.isBlank c = true) (h : whitespace s = []) :
    first? (c :: s) = some (lexeme [c] .whitespace) := by
  have hhash : (c :: s).head? ≠ some '#' := by
    intro hh
    obtain rfl := Option.some.inj hh
    exact absurd hc (by decide)
  have hdefined : definedTest? (c :: s) = none := by
    cases hd : definedTest? (c :: s) with
    | none => rfl
    | some f =>
      obtain ⟨_, _, -, -, -, he⟩ := definedTest?_cases hd
      obtain ⟨rfl, -⟩ := List.cons.inj he
      exact absurd hc (by decide)
  rw [first?_of_head_ne hhash, hdefined, Option.none_or, plain?_blank hc h]

theorem afterKeyword?_of_gap (hgap : gap s = []) (w : List Char) :
    afterKeyword? w ('#' :: s) = (afterWord? w s).map ([], ·) := by
  rw [afterKeyword?, hgap]
  rfl

/-- A keyword is found with a word behind a space. -/
theorem named?_name (hname : IsWord name) (hends : EndsWord rest) :
    named? keyword form ('#' :: (keyword.text ++ ' ' :: (name ++ rest))) =
      some (form [] [' '] name rest) := by
  have hafter : afterKeyword? keyword.text ('#' :: (keyword.text ++ ' ' :: (name ++ rest))) =
      some ([], ' ' :: (name ++ rest)) := by
    rw [afterKeyword?_of_gap (gap_append_of_isWord (isWord_keyword keyword)), afterWord?,
      if_pos (List.isPrefixOf_iff_prefix.mpr (List.prefix_append _ _)), List.drop_left]
    rfl
  have hspace : gap (' ' :: (name ++ rest)) = [' '] :=
    congrArg (' ' :: ·) (gap_append_of_isWord hname)
  have hid : identifier ((' ' :: (name ++ rest)).drop [' '].length) = name :=
    identifier_append hname hends
  have hne : name.isEmpty = false := List.isEmpty_eq_false_iff.mpr hname.ne_nil
  simp only [named?, hafter, hspace, hid, hne]
  exact congrArg (fun t => some (form [] [' '] name t)) List.drop_left

/-- Where no keyword stands behind the hash, none is found. -/
theorem named?_of_not_isPrefix (hgap : gap s = []) (h : ¬ keyword.text <+: s) :
    named? keyword form ('#' :: s) = none := by
  rw [named?, afterKeyword?_of_gap hgap, afterWord?,
    if_neg fun hp => h (List.isPrefixOf_iff_prefix.mp hp)]
  rfl

theorem named?_of_isIdentPart {c : Char} (hgap : isGap c = false) (hc : isIdentPart c = false) :
    named? keyword form ('#' :: c :: s) = none := by
  refine named?_of_not_isPrefix (gap_cons_of_ne hgap) ?_
  rintro ⟨t, ht⟩
  cases hk : keyword.text with
  | nil => exact (isWord_keyword keyword).ne_nil hk
  | cons d w =>
    have hd := isWord_keyword keyword
    rw [hk] at hd ht
    obtain rfl := (List.cons.inj ht).1
    rw [isIdentPart_of_isIdentStart hd.1] at hc
    cases hc

/-- Another word is not taken for a keyword, also where it starts with one. -/
theorem named?_word (hw : IsWord w) (hends : EndsWord rest) (hne : w ≠ keyword.text) :
    named? keyword form ('#' :: (w ++ rest)) = none := by
  by_cases hp : keyword.text <+: w ++ rest
  · obtain ⟨t, ht⟩ := hp
    have hafter : afterKeyword? keyword.text ('#' :: (w ++ rest)) = some ([], t) := by
      rw [afterKeyword?_of_gap (gap_append_of_isWord hw), afterWord?,
        if_pos (List.isPrefixOf_iff_prefix.mpr ⟨t, ht⟩), ← ht, List.drop_left]
      rfl
    -- the keyword would be the whole word if it ended there
    have hlonger : ¬ EndsWord t := by
      intro ht'
      have hword := word_append hw hends
      rw [← ht, word_append (isWord_keyword keyword) ht'] at hword
      exact hne hword.symm
    obtain ⟨d, hd, hpart⟩ : ∃ d ∈ t.head?, isIdentPart d = true := by
      simpa [EndsWord] using hlonger
    obtain ⟨t, rfl⟩ := List.head?_eq_some_iff.mp hd
    have hgap : gap (d :: t) = [] := gap_cons_of_ne (isGap_of_isIdentPart hpart)
    have hends : Text.endsWord (d :: t) = false := by
      rw [Text.endsWord, isWord_of_isIdentPart hpart]
      rfl
    simp only [named?, hafter, hgap, hends, List.isEmpty_nil, Bool.true_or, if_true,
      Bool.false_eq_true, if_false]
  · exact named?_of_not_isPrefix (gap_append_of_isWord hw) hp

/-- A hash that starts no named line and no paste starts a line up to its end. -/
theorem first?_directive
    (hnamed : ∀ keyword form, named? keyword form ('#' :: (body ++ '\n' :: rest)) = none)
    (hgap : gap (body ++ '\n' :: rest) = []) (hpaste : body.head? ≠ some '#')
    (hbody : directiveBody (body ++ '\n' :: rest) = body) :
    first? ('#' :: (body ++ '\n' :: rest)) = some (directive [] body) := by
  have hpaste : tokenPaste ('#' :: (body ++ '\n' :: rest)) = [] := by
    cases body with
    | nil => rfl
    | cons c body =>
      rw [tokenPaste]
      intro t he
      obtain ⟨rfl, -⟩ := List.cons.inj (List.cons.inj he).2
      exact hpaste rfl
  have hdefined : definedTest? ('#' :: (body ++ '\n' :: rest)) = none := rfl
  have hdirective : directive? ('#' :: (body ++ '\n' :: rest)) = some (directive [] body) := by
    rw [directive?, hgap, List.length_nil, List.drop_zero, hbody]
  simp only [first?, rules, List.findSome?_cons, define?, conditional?, hnamed, hdefined,
    lexeme?_eq_none hpaste, hdirective]

/-- A line of one word that is no keyword, or starts with it. -/
theorem first?_directive_word (hw : IsWord w) (hends : EndsWord (s ++ '\n' :: rest))
    (hne : ∀ keyword : Keyword, w ≠ keyword.text)
    (hbody : directiveBody (w ++ s ++ '\n' :: rest) = w ++ s) :
    first? ('#' :: (w ++ s ++ '\n' :: rest)) = some (directive [] (w ++ s)) := by
  refine first?_directive (fun keyword form => ?_) ?_ ?_ hbody
  · rw [List.append_assoc]
    exact named?_word hw hends (hne keyword)
  · rw [List.append_assoc]
    exact gap_append_of_isWord hw
  · cases w with
    | nil => exact hw.elim
    | cons c w =>
      intro he
      obtain rfl := Option.some.inj he
      exact absurd hw.1 (by decide)

/-- A hash alone in its line. -/
theorem first?_directive_nil (rest : List Char) :
    first? ('#' :: '\n' :: rest) = some (directive [] []) :=
  @first?_directive rest [] (fun _ _ => named?_of_isIdentPart (by decide) (by decide))
    (gap_cons_of_ne (by decide)) (by simp) (directiveBody_newline rest)

theorem first?_tokenPaste (s : List Char) :
    first? ('#' :: '#' :: s) = some (lexeme ['#', '#'] .tokenPaste) := by
  have hnamed : ∀ keyword form, named? keyword form ('#' :: '#' :: s) = none :=
    fun keyword form => named?_of_isIdentPart (by decide) (by decide)
  have hdefined : definedTest? ('#' :: '#' :: s) = none := rfl
  have hpaste : tokenPaste ('#' :: '#' :: s) = ['#', '#'] := rfl
  simp only [first?, rules, List.findSome?_cons, define?, conditional?, hnamed, hdefined,
    lexeme?_of_ne hpaste (List.cons_ne_nil _ _)]

theorem first?_conditional (test : Conditional) (hname : IsWord name) (hends : EndsWord rest) :
    first? ('#' :: (test.keyword ++ ' ' :: (name ++ rest))) =
      some (conditional [] test [' '] name) := by
  have hfound : conditional? test ('#' :: (test.keyword ++ ' ' :: (name ++ rest))) =
      some (conditional [] test [' '] name) :=
    @named?_name (.conditional test) _ _ _ hname hends
  have hother : ∀ keyword form, ¬ keyword.text <+: test.keyword ++ ' ' :: (name ++ rest) →
      named? keyword form ('#' :: (test.keyword ++ ' ' :: (name ++ rest))) = none :=
    fun _ _ => named?_of_not_isPrefix (gap_append_of_isWord (isWord_keyword (.conditional test)))
  cases test with
  | ifdef =>
    have hdefine : define? _ = none :=
      hother .define _ (by simp [Keyword.text, Conditional.keyword])
    simp only [first?, rules, List.findSome?_cons, hdefine, hfound]
  | ifndef =>
    have hdefine : define? _ = none :=
      hother .define _ (by simp [Keyword.text, Conditional.keyword])
    have hifdef : conditional? .ifdef _ = none :=
      hother (.conditional .ifdef) _ (by simp [Keyword.text, Conditional.keyword])
    simp only [first?, rules, List.findSome?_cons, hdefine, hifdef, hfound]

/-- A definition with its name behind one space. -/
theorem first?_define {list : List Char} (hname : IsWord name)
    (hends : EndsWord (list ++ (body ++ '\n' :: rest)))
    (hlist : arguments (list ++ (body ++ '\n' :: rest)) = list)
    (hbody : directiveBody (body ++ '\n' :: rest) = body) :
    first? ('#' :: (Keyword.define.text ++ ' ' :: (name ++ (list ++ (body ++ '\n' :: rest))))) =
      some (define [] [' '] name list body) := by
  have hfound :
      define? ('#' :: (Keyword.define.text ++ ' ' :: (name ++ (list ++ (body ++ '\n' :: rest))))) =
        some (define [] [' '] name list body) := by
    rw [define?, named?_name hname hends, defineForm, hlist, List.drop_left, hbody]
  simp only [first?, rules, List.findSome?_cons, hfound]

end Form

end ShaderPress
