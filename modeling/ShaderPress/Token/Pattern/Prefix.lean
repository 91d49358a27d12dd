import ShaderPress.Token.Pattern

/-! # Patterns cover prefixes

What a pattern covers stands at the start of the text it was given.
-/
namespace ShaderPress.Pattern

theorem gap_isPrefix (s : List Char) : gap s <+: s := List.takeWhile_prefix _

theorem digits_isPrefix (s : List Char) : digits s <+: s := List.takeWhile_prefix _

theorem word_isPrefix (s : List Char) : word s <+: s := by
  cases s with
  | nil => exact List.prefix_refl _
  | cons c s =>
    simp only [word]
    split
    · exact (List.prefix_cons_inj c).2 ( List.takeWhile_prefix _)
    · exact List.nil_prefix

theorem identifier_isPrefix (s : List Char) : identifier s <+: s := by
  cases s with
  | nil => exact List.prefix_refl _
  | cons c s =>
    simp only [identifier]
    split
    · split
      · exact List.nil_prefix
      · exact (List.prefix_cons_inj c).2 (word_isPrefix s)
    · exact word_isPrefix (c :: s)

theorem tokenPaste_isPrefix (s : List Char) : tokenPaste s <+: s := by
  unfold tokenPaste
  split
  · exact ⟨_, rfl⟩
  · exact List.nil_prefix

theorem lineRest_isPrefix (s : List Char) : lineRest s <+: s := by
  fun_induction lineRest s with
  | case1 => exact List.prefix_refl _
  | case2 s ih => exact (List.prefix_cons_inj _).2 ((List.prefix_cons_inj _).2 ih)
  | case3 => exact List.nil_prefix
  | case4 c s _ _ ih => exact (List.prefix_cons_inj _).2 ih

theorem lineComment_isPrefix (s : List Char) : lineComment s <+: s := by
  unfold lineComment
  split
  · exact (List.prefix_cons_inj _).2 ((List.prefix_cons_inj _).2 (lineRest_isPrefix _))
  · exact List.nil_prefix

theorem commentRest?_isPrefix {s t : List Char} (h : commentRest? s = some t) : t <+: s := by
  fun_induction commentRest? s generalizing t with
  | case1 => cases h
  | case2 s => cases h; exact ⟨s, rfl⟩
  | case3 c s _ ih =>
    obtain ⟨u, hu, rfl⟩ := Option.map_eq_some_iff.1 h
    exact (List.prefix_cons_inj _).2 (ih hu)

theorem blockComment_isPrefix (s : List Char) : blockComment s <+: s := by
  unfold blockComment
  split
  · split
    · next h => exact (List.prefix_cons_inj _).2 ((List.prefix_cons_inj _).2 (commentRest?_isPrefix h))
    · exact List.nil_prefix
  · exact List.nil_prefix

theorem whitespace_isPrefix (s : List Char) : whitespace s <+: s := by
  fun_induction whitespace s with
  | case1 => exact List.prefix_refl _
  | case2 s ih => exact (List.prefix_cons_inj _).2 ((List.prefix_cons_inj _).2 ih)
  | case3 s ih =>
    exact (List.prefix_cons_inj _).2 ((List.prefix_cons_inj _).2 ((List.prefix_cons_inj _).2 ih))
  | case4 c s _ _ _ ih => exact (List.prefix_cons_inj _).2 ih
  | case5 => exact List.nil_prefix

theorem operator_isPrefix (s : List Char) : operator s <+: s := by
  unfold operator
  split
  · exact List.prefix_refl _
  · split
    · exact ⟨_, rfl⟩
    · exact List.nil_prefix

theorem sign_isPrefix (s : List Char) : sign s <+: s := by
  unfold sign
  split
  · exact List.prefix_refl _
  · split
    · exact ⟨_, rfl⟩
    · exact List.nil_prefix

theorem prefix_append_drop {a b s : List Char} (ha : a <+: s) (hb : b <+: s.drop a.length) :
    a ++ b <+: s := by
  obtain ⟨t, rfl⟩ := ha
  rw [List.drop_left] at hb
  exact (List.prefix_append_right_inj a).2 hb

theorem exponent_isPrefix (s : List Char) : exponent s <+: s := by
  cases s with
  | nil => exact List.prefix_refl _
  | cons c s =>
    simp only [exponent]
    split
    · split
      · exact List.nil_prefix
      · exact (List.prefix_cons_inj c).2 (prefix_append_drop (sign_isPrefix s) (digits_isPrefix _))
    · exact List.nil_prefix

theorem floatLiteral_isPrefix (s : List Char) : floatLiteral s <+: s := by
  unfold floatLiteral
  simp only
  split
  · next t ht =>
    split
    · exact List.nil_prefix
    · refine prefix_append_drop (digits_isPrefix s) ?_
      rw [ht]
      exact (List.prefix_cons_inj _).2 (prefix_append_drop (digits_isPrefix t) (exponent_isPrefix _))
  · next t _ =>
    split
    · exact List.nil_prefix
    · exact List.nil_prefix
    · exact prefix_append_drop (digits_isPrefix s) (exponent_isPrefix _)

theorem unsignedMark_isPrefix (s : List Char) : unsignedMark s <+: s := by
  unfold unsignedMark
  split
  · exact ⟨_, rfl⟩
  · exact List.nil_prefix

theorem hexLiteral_isPrefix (s : List Char) : hexLiteral s <+: s := by
  unfold hexLiteral
  split
  · split
    · exact List.nil_prefix
    · exact (List.prefix_cons_inj _).2 ((List.prefix_cons_inj _).2
        (prefix_append_drop ( List.takeWhile_prefix _) (unsignedMark_isPrefix _)))
  · exact List.nil_prefix

theorem intLiteral_isPrefix (s : List Char) : intLiteral s <+: s := by
  unfold intLiteral
  split
  · exact List.nil_prefix
  · exact prefix_append_drop (digits_isPrefix s) (unsignedMark_isPrefix _)

theorem arguments_isPrefix (s : List Char) : arguments s <+: s := by
  unfold arguments
  split
  · next s =>
    simp only
    split
    · exact List.nil_prefix
    · next c t h =>
      refine (List.prefix_cons_inj _).2 (prefix_append_drop ( List.takeWhile_prefix _) ?_)
      rw [h]
      exact ⟨t, rfl⟩
  · exact List.nil_prefix

theorem directiveBody_isPrefix (s : List Char) : directiveBody s <+: s := by
  fun_induction directiveBody s with
  | case1 => exact List.prefix_refl _
  | case2 s ih => exact (List.prefix_cons_inj _).2 ((List.prefix_cons_inj _).2 ih)
  | case3 => exact List.nil_prefix
  | case4 => exact List.nil_prefix
  | case5 => exact List.nil_prefix
  | case6 c s _ _ _ _ ih => exact (List.prefix_cons_inj _).2 ih

end ShaderPress.Pattern
