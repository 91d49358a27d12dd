import ShaderPress.Proofs.Token.Languages
import ShaderPress.Proofs.Token.Plain
import ShaderPress.Proofs.Token.Rules

/-! # The longest word

What a pattern covers is the longest word of its language that the text starts with, though it tries
its alternatives in order.  For block comments alone it is the shortest word, which ends with the
first end mark.
-/
namespace ShaderPress

namespace Pattern
open Computability

/-- The pattern covers the longest word of the language that a text starts with. -/
structure Munches (l : Language Char) (pattern : List Char → List Char) : Prop where
  isPrefix : ∀ s, pattern s <+: s
  mem : ∀ s, pattern s ≠ [] → pattern s ∈ l
  longest : ∀ {s}, ∀ v ∈ l, v <+: s → v <+: pattern s
  nonempty : [] ∉ l

section
variable {p : Char → Bool} {s v : List Char}

theorem isPrefix_takeWhile (hv : ∀ c ∈ v, p c = true) (h : v <+: s) : v <+: s.takeWhile p := by
  obtain ⟨rest, rfl⟩ := h
  rw [List.takeWhile_append_of_pos hv]
  exact List.prefix_append _ _

theorem isPrefix_word (hv : IsWord v) (h : v <+: s) : v <+: word s := by
  obtain ⟨rest, rfl⟩ := h
  cases v with
  | nil => exact hv.elim
  | cons c v =>
    rw [List.cons_append, word, if_pos hv.1, List.prefix_cons_inj]
    exact isPrefix_takeWhile hv.2 (List.prefix_append _ _)

theorem identifier_cons_of_isSigil {c : Char} (hc : Grammar.isSigil c = true) (hs : word s ≠ []) :
    identifier (c :: s) = c :: word s := by
  unfold Grammar.isSigil at hc
  simp only [identifier, hc, if_true]

theorem munches_identifier : Munches Grammar.name identifier where
  isPrefix := identifier_isPrefix
  mem s hs := by
    refine Grammar.mem_name.mpr ?_
    cases s with
    | nil => exact absurd rfl hs
    | cons c s =>
      by_cases hc : Grammar.isSigil c = true
      · have hw : word s ≠ [] := by
          intro hw
          unfold Grammar.isSigil at hc
          exact hs (by simp only [identifier, hc, hw, if_true])
        rw [identifier_cons_of_isSigil hc hw]
        exact ⟨[c], Or.inr ⟨c, hc, rfl⟩, word s, isWord_word hw, rfl⟩
      · have he : identifier (c :: s) = word (c :: s) := if_neg hc
        rw [he] at hs ⊢
        exact ⟨[], Or.inl rfl, word (c :: s), isWord_word hs, rfl⟩
  longest := by
    intro s v hv h
    obtain ⟨sigil, hsigil, w, hw, rfl⟩ := Grammar.mem_name.mp hv
    rcases hsigil with rfl | ⟨c, hc, rfl⟩
    · have hword := isPrefix_word hw h
      rwa [Form.identifier_of_isWord (isWord_word (hword.ne_nil hw.ne_nil))]
    · obtain ⟨rest, rfl⟩ := h
      have hword : w <+: word (w ++ rest) := isPrefix_word hw (List.prefix_append _ _)
      change c :: w <+: identifier (c :: (w ++ rest))
      rw [identifier_cons_of_isSigil hc (hword.ne_nil hw.ne_nil)]
      exact (List.prefix_cons_inj c).mpr hword
  nonempty h := by
    obtain ⟨sigil, -, w, hw, he⟩ := Grammar.mem_name.mp h
    exact hw.ne_nil (List.append_eq_nil_iff.mp he).2

theorem munches_tokenPaste : Munches {['#', '#']} tokenPaste where
  isPrefix := tokenPaste_isPrefix
  mem s hs := by
    unfold tokenPaste at hs ⊢
    split
    · rfl
    · next h =>
      split at hs
      · exact absurd rfl (h _)
      · exact absurd rfl hs
  longest := by
    rintro s _ rfl ⟨rest, rfl⟩
    exact List.prefix_refl _
  nonempty := nofun

theorem munches_operator : Munches (Grammar.letter (operators.contains ·)) operator where
  isPrefix := operator_isPrefix
  mem s hs := by
    cases s with
    | nil => exact absurd rfl hs
    | cons c s =>
      by_cases hc : c ∈ operators
      · exact ⟨c, List.contains_iff_mem.mpr hc, if_pos hc⟩
      · exact absurd (if_neg hc) hs
  longest := by
    rintro s _ ⟨c, hc, rfl⟩ ⟨rest, rfl⟩
    have hop : operator (c :: rest) = [c] := if_pos (List.contains_iff_mem.mp hc)
    change [c] <+: operator (c :: rest)
    rw [hop]
  nonempty := nofun

/-- A run of a class with a tail that does not go on with it. -/
theorem isPrefix_takeWhile_append {tail : List Char → List Char} {d t rest : List Char}
    (hd : ∀ c ∈ d, p c = true)
    (ht : t = [] ∨ (t ++ rest).takeWhile p = [] ∧ t <+: tail (t ++ rest)) :
    let run := (d ++ (t ++ rest)).takeWhile p
    d ++ t <+: run ++ tail ((d ++ (t ++ rest)).drop run.length) := by
  rcases ht with rfl | ⟨hrun, ht⟩
  · rw [List.append_nil]
    exact (isPrefix_takeWhile hd (List.prefix_append d _)).trans (List.prefix_append _ _)
  · have hrun := takeWhile_append_of_all hd hrun
    simp only [hrun, List.drop_left]
    exact (List.prefix_append_right_inj d).mpr ht

theorem unsignedMark_of_mem {mark rest : List Char} (hp : p 'u' = false)
    (hmark : mark ∈ Grammar.optional {['u']}) :
    mark = [] ∨ (mark ++ rest).takeWhile p = [] ∧ mark <+: unsignedMark (mark ++ rest) := by
  rcases hmark with rfl | rfl
  · exact Or.inl rfl
  · refine Or.inr ⟨?_, List.prefix_refl _⟩
    rw [List.singleton_append, List.takeWhile_cons, hp]
    rfl

theorem munches_intLiteral : Munches Grammar.intLiteral intLiteral where
  isPrefix := intLiteral_isPrefix
  mem s hs := Grammar.mem_intLiteral.mpr (isInt_intLiteral hs)
  longest := by
    rintro s _ ⟨d, hd, mark, hmark, rfl⟩ ⟨rest, rfl⟩
    have hd := Grammar.mem_repeated_digit.mp hd
    change d ++ mark <+: intLiteral (d ++ mark ++ rest)
    rw [List.append_assoc]
    have hdigits : digits (d ++ (mark ++ rest)) ≠ [] :=
      (isPrefix_takeWhile hd.digit (List.prefix_append d _)).ne_nil hd.nonempty
    rw [intLiteral_of_ne hdigits]
    exact isPrefix_takeWhile_append hd.digit (unsignedMark_of_mem (by decide) hmark)
  nonempty := by
    rintro ⟨d, hd, mark, -, he⟩
    exact (Grammar.mem_repeated_digit.mp hd).nonempty (List.append_eq_nil_iff.mp he).1

theorem munches_hexLiteral : Munches Grammar.hexLiteral hexLiteral where
  isPrefix := hexLiteral_isPrefix
  mem s hs := Grammar.mem_hexLiteral.mpr (isHex_hexLiteral hs)
  longest := by
    rintro s _ ⟨_, rfl, _, ⟨d, hd, mark, hmark, rfl⟩, rfl⟩ ⟨rest, rfl⟩
    obtain ⟨hne, hd⟩ := Grammar.mem_repeated_letter.mp hd
    change '0' :: 'x' :: (d ++ mark) <+: hexLiteral ('0' :: 'x' :: (d ++ mark ++ rest))
    rw [List.append_assoc]
    have hdigits : (d ++ (mark ++ rest)).takeWhile isHexDigit ≠ [] :=
      (isPrefix_takeWhile hd (List.prefix_append d _)).ne_nil hne
    rw [hexLiteral_of_ne hdigits, List.prefix_cons_inj, List.prefix_cons_inj]
    exact isPrefix_takeWhile_append hd (unsignedMark_of_mem (by decide) hmark)
  nonempty := by
    rintro ⟨_, rfl, _, -, he⟩
    cases he

theorem isPrefix_exponent (hv : IsExponent v) (h : v <+: s) : v <+: exponent s := by
  obtain ⟨rest, rfl⟩ := h
  obtain ⟨hc, hs, hd⟩ := hv
  rename_i c sg d
  have hsign : sign (sg ++ (d ++ rest)) = sg := sign_append hs hd rest
  have hdigits : d <+: digits ((sg ++ (d ++ rest)).drop (sign (sg ++ (d ++ rest))).length) := by
    rw [hsign, List.drop_left]
    exact isPrefix_takeWhile hd.digit (List.prefix_append d rest)
  rw [List.cons_append, List.append_assoc, exponent_cons_of_ne hc (hdigits.ne_nil hd.nonempty),
    List.prefix_cons_inj]
  rw [hsign] at hdigits ⊢
  exact (List.prefix_append_right_inj sg).mpr hdigits

theorem head_exponent (hv : IsExponent v) : ∃ c t, v = c :: t ∧ (c = 'e' ∨ c = 'E') := by
  obtain ⟨hc, -, -⟩ := hv
  exact ⟨_, _, rfl, hc⟩

theorem digits_exponent_append {rest : List Char} (hv : IsExponent v) :
    digits (v ++ rest) = [] := by
  obtain ⟨c, t, rfl, hc⟩ := head_exponent hv
  rcases hc with rfl | rfl <;> rfl

theorem floatLiteral_of_drop {t : List Char} (h : s.drop (digits s).length = '.' :: t) :
    floatLiteral s = if digits s = [] ∧ digits t = [] then [] else
      digits s ++ '.' :: (digits t ++ exponent (t.drop (digits t).length)) := by
  simp only [floatLiteral, h, Bool.and_eq_true, List.isEmpty_iff]

theorem eq_nil_or_isExponent (s : List Char) : exponent s = [] ∨ IsExponent (exponent s) :=
  (Classical.em (exponent s = [])).imp_right isExponent_exponent

theorem floatLiteral_mem (hs : floatLiteral s ≠ []) : floatLiteral s ∈ Grammar.floatLiteral := by
  have digit : ∀ s, ∀ c ∈ digits s, c.isDigit = true := fun s =>
    List.all_eq_true.mp List.all_takeWhile
  refine Grammar.mem_floatLiteral.mpr ?_
  by_cases hpoint : ∃ t, s.drop (digits s).length = '.' :: t
  · obtain ⟨t, ht⟩ := hpoint
    rw [floatLiteral_of_drop ht] at hs ⊢
    have hne : ¬ (digits s = [] ∧ digits t = []) := fun hnil => hs (if_pos hnil)
    rw [if_neg hne]
    exact Or.inl ⟨_, _, _, digit s, digit t, Classical.not_and_iff_not_or_not.mp hne,
      eq_nil_or_isExponent _, rfl⟩
  · have hpoint : ∀ t, s.drop (digits s).length ≠ '.' :: t := fun t ht => hpoint ⟨t, ht⟩
    have hw : digits s ≠ [] := fun hw => hs (floatLiteral_eq_nil hpoint (Or.inl hw))
    have he : exponent (s.drop (digits s).length) ≠ [] :=
      fun he => hs (floatLiteral_eq_nil hpoint (Or.inr he))
    rw [floatLiteral_of_exponent hw hpoint he]
    exact Or.inr ⟨_, _, isDigits_digits hw, isExponent_exponent he, rfl⟩

section
variable {whole fraction e : List Char}

/-- Behind a point the fraction is taken as far as it goes, and then the exponent. -/
theorem isPrefix_floatLiteral_of_point (hw : ∀ c ∈ whole, c.isDigit = true)
    (hf : ∀ c ∈ fraction, c.isDigit = true) (hne : whole ≠ [] ∨ fraction ≠ [])
    (he : e = [] ∨ IsExponent e) (rest : List Char) :
    whole ++ '.' :: (fraction ++ e) <+:
      floatLiteral (whole ++ '.' :: (fraction ++ (e ++ rest))) := by
  have hdigits : digits (whole ++ '.' :: (fraction ++ (e ++ rest))) = whole :=
    takeWhile_append_of_all hw rfl
  have hfraction : fraction <+: digits (fraction ++ (e ++ rest)) :=
    isPrefix_takeWhile hf (List.prefix_append fraction _)
  have hnil : ¬ (whole = [] ∧ digits (fraction ++ (e ++ rest)) = []) := fun hnil =>
    hne.elim (fun h => h hnil.1) fun h => hfraction.ne_nil h hnil.2
  rw [floatLiteral_of_drop (by rw [hdigits, List.drop_left]), hdigits, if_neg hnil,
    List.prefix_append_right_inj, List.prefix_cons_inj]
  refine isPrefix_takeWhile_append hf (he.imp_right fun he => ?_)
  exact ⟨digits_exponent_append he, isPrefix_exponent he (List.prefix_append e rest)⟩

theorem isPrefix_floatLiteral_of_exponent (hw : IsDigits whole) (he : IsExponent e)
    (rest : List Char) : whole ++ e <+: floatLiteral (whole ++ (e ++ rest)) := by
  have hdigits : digits (whole ++ (e ++ rest)) = whole :=
    takeWhile_append_of_all hw.digit (digits_exponent_append he)
  have hdrop : (whole ++ (e ++ rest)).drop (digits (whole ++ (e ++ rest))).length = e ++ rest := by
    rw [hdigits, List.drop_left]
  have hexponent : e <+: exponent (e ++ rest) := isPrefix_exponent he (List.prefix_append e rest)
  obtain ⟨c, t, rfl, hc⟩ := head_exponent he
  have hpoint : ∀ u, (whole ++ (c :: t ++ rest)).drop
      (digits (whole ++ (c :: t ++ rest))).length ≠ '.' :: u := by
    intro u hu
    rw [hdrop] at hu
    obtain ⟨rfl, -⟩ := List.cons.inj hu
    rcases hc with hc | hc <;> exact absurd hc (by decide)
  rw [floatLiteral_of_exponent (by rw [hdigits]; exact hw.nonempty) hpoint
    (by rw [hdrop]; exact hexponent.ne_nil (List.cons_ne_nil c t)), hdrop, hdigits]
  exact (List.prefix_append_right_inj whole).mpr hexponent

end

theorem munches_floatLiteral : Munches Grammar.floatLiteral floatLiteral where
  isPrefix := floatLiteral_isPrefix
  mem _ hs := floatLiteral_mem hs
  longest := by
    rintro s v hv ⟨rest, rfl⟩
    rcases Grammar.mem_floatLiteral.mp hv with ⟨whole, fraction, e, hw, hf, hne, he, rfl⟩ |
      ⟨whole, e, hw, he, rfl⟩
    · rw [List.append_assoc, List.cons_append, List.append_assoc]
      exact isPrefix_floatLiteral_of_point hw hf hne he rest
    · rw [List.append_assoc]
      exact isPrefix_floatLiteral_of_exponent hw he rest
  nonempty := by
    intro h
    rcases Grammar.mem_floatLiteral.mp h with ⟨_, _, _, -, -, -, -, he⟩ | ⟨_, _, hw, -, he⟩
    · exact absurd (List.append_eq_nil_iff.mp he).2 (List.cons_ne_nil _ _)
    · exact hw.nonempty (List.append_eq_nil_iff.mp he).1

theorem eq_nil_of_newline (hv : v ∈ Grammar.inLine∗) (h : v <+: '\n' :: s) : v = [] := by
  rcases Grammar.mem_kstar_iff.mp hv with hnil | ⟨a, rfl | ⟨c, hc, rfl⟩, b, -, rfl⟩
  · exact hnil
  · obtain ⟨he, -⟩ := List.cons_prefix_cons.mp h
    exact absurd he (by decide)
  · obtain ⟨rfl, -⟩ := List.cons_prefix_cons.mp h
    exact absurd hc (by decide)

theorem isPrefix_lineRest (hv : v ∈ Grammar.inLine∗) (h : v <+: s) : v <+: lineRest s := by
  fun_induction lineRest s generalizing v with
  | case1 => exact h
  | case2 s ih =>
    rcases Grammar.mem_kstar_iff.mp hv with rfl | ⟨a, rfl | ⟨c, hc, rfl⟩, b, hb, rfl⟩
    · exact List.nil_prefix
    · obtain ⟨-, hrest⟩ := List.cons_prefix_cons.mp h
      obtain ⟨-, hrest⟩ := List.cons_prefix_cons.mp hrest
      exact (List.prefix_cons_inj _).mpr ((List.prefix_cons_inj _).mpr (ih hb hrest))
    · obtain ⟨rfl, hrest⟩ := List.cons_prefix_cons.mp h
      rw [eq_nil_of_newline hb hrest]
      exact (List.prefix_cons_inj _).mpr List.nil_prefix
  | case3 s => rw [eq_nil_of_newline hv h]
  | case4 c s hpair hc ih =>
    rcases Grammar.mem_kstar_iff.mp hv with rfl | ⟨a, rfl | ⟨d, hd, rfl⟩, b, hb, rfl⟩
    · exact List.nil_prefix
    · obtain ⟨rfl, t, rfl⟩ := List.cons_prefix_cons.mp h
      exact absurd rfl (hpair _ rfl)
    · obtain ⟨rfl, hrest⟩ := List.cons_prefix_cons.mp h
      exact (List.prefix_cons_inj _).mpr (ih hb hrest)

theorem lineRest_mem (s : List Char) : lineRest s ∈ Grammar.inLine∗ := by
  fun_induction lineRest s with
  | case1 => exact Language.nil_mem_kstar _
  | case2 s ih => exact Grammar.mem_kstar_iff.mpr (Or.inr ⟨['\\', '\n'], Or.inl rfl, _, ih, rfl⟩)
  | case3 => exact Language.nil_mem_kstar _
  | case4 c s _ hc ih =>
    exact Grammar.mem_kstar_iff.mpr (Or.inr ⟨[c], Or.inr ⟨c, bne_iff_ne.mpr hc, rfl⟩, _, ih, rfl⟩)

theorem munches_lineComment : Munches Grammar.lineComment lineComment where
  isPrefix := lineComment_isPrefix
  mem s hs := by
    unfold lineComment at hs ⊢
    split
    · exact ⟨['/', '/'], rfl, _, lineRest_mem _, rfl⟩
    · next h =>
      split at hs
      · exact absurd rfl (h _)
      · exact absurd rfl hs
  longest := by
    rintro s _ ⟨_, rfl, v, hv, rfl⟩ ⟨rest, rfl⟩
    change '/' :: '/' :: v <+: '/' :: '/' :: lineRest (v ++ rest)
    rw [List.prefix_cons_inj, List.prefix_cons_inj]
    exact isPrefix_lineRest hv (List.prefix_append v rest)
  nonempty := by
    rintro ⟨_, rfl, _, -, he⟩
    cases he

theorem isPrefix_whitespace (hv : v ∈ Grammar.blank∗) (h : v <+: s) : v <+: whitespace s := by
  have slash : Text.isBlank '\\' ≠ true := by decide
  fun_induction whitespace s generalizing v with
  | case1 => exact h
  | case2 s ih =>
    rcases Grammar.mem_kstar_blank.mp hv with
      rfl | ⟨c, hc, b, hb, rfl⟩ | ⟨b, hb, rfl⟩ | ⟨b, hb, rfl⟩
    · exact List.nil_prefix
    · exact absurd ((List.cons_prefix_cons.mp h).1 ▸ hc) slash
    · simp only [List.cons_prefix_cons, true_and] at h ⊢
      exact ih hb h
    · simp [List.cons_prefix_cons] at h
  | case3 s ih =>
    rcases Grammar.mem_kstar_blank.mp hv with
      rfl | ⟨c, hc, b, hb, rfl⟩ | ⟨b, hb, rfl⟩ | ⟨b, hb, rfl⟩
    · exact List.nil_prefix
    · exact absurd ((List.cons_prefix_cons.mp h).1 ▸ hc) slash
    · simp [List.cons_prefix_cons] at h
    · simp only [List.cons_prefix_cons, true_and] at h ⊢
      exact ih hb h
  | case4 c s hfeed hreturn hc ih =>
    rcases Grammar.mem_kstar_blank.mp hv with
      rfl | ⟨d, hd, b, hb, rfl⟩ | ⟨b, hb, rfl⟩ | ⟨b, hb, rfl⟩
    · exact List.nil_prefix
    · simp only [List.cons_prefix_cons] at h ⊢
      exact ⟨h.1, ih hb h.2⟩
    · exact absurd ((List.cons_prefix_cons.mp h).1 ▸ hc) slash
    · exact absurd ((List.cons_prefix_cons.mp h).1 ▸ hc) slash
  | case5 c s hfeed hreturn hc =>
    rcases Grammar.mem_kstar_blank.mp hv with
      rfl | ⟨d, hd, b, hb, rfl⟩ | ⟨b, hb, rfl⟩ | ⟨b, hb, rfl⟩
    · exact List.nil_prefix
    · exact absurd ((List.cons_prefix_cons.mp h).1 ▸ hd) hc
    · obtain ⟨rfl, t, rfl⟩ := List.cons_prefix_cons.mp h
      exact absurd rfl (hfeed _ rfl)
    · obtain ⟨rfl, t, rfl⟩ := List.cons_prefix_cons.mp h
      exact absurd rfl (hreturn _ rfl)

theorem whitespace_mem (s : List Char) : whitespace s ∈ Grammar.blank∗ := by
  fun_induction whitespace s with
  | case1 => exact Language.nil_mem_kstar _
  | case2 s ih => exact Grammar.mem_kstar_blank.mpr (Or.inr (Or.inr (Or.inl ⟨_, ih, rfl⟩)))
  | case3 s ih => exact Grammar.mem_kstar_blank.mpr (Or.inr (Or.inr (Or.inr ⟨_, ih, rfl⟩)))
  | case4 c s _ _ hc ih => exact Grammar.mem_kstar_blank.mpr (Or.inr (Or.inl ⟨c, hc, _, ih, rfl⟩))
  | case5 => exact Language.nil_mem_kstar _

theorem munches_whitespace : Munches (Grammar.repeated Grammar.blank) whitespace where
  isPrefix := whitespace_isPrefix
  mem s hs := (Grammar.mem_repeated Grammar.nil_notMem_blank).mpr ⟨hs, whitespace_mem s⟩
  longest _ hv h := isPrefix_whitespace ((Grammar.mem_repeated Grammar.nil_notMem_blank).mp hv).2 h
  nonempty h := ((Grammar.mem_repeated Grammar.nil_notMem_blank).mp h).1 rfl

/-- The end mark of a block comment is looked for as far as the first one. -/
theorem commentRest?_isPrefix_of {inner : List Char} (h : inner ++ ['*', '/'] <+: s) :
    ∃ t, commentRest? s = some t ∧ t <+: inner ++ ['*', '/'] := by
  fun_induction commentRest? s generalizing inner with
  | case1 =>
    obtain ⟨-, hmark⟩ := List.append_eq_nil_iff.mp (List.prefix_nil.mp h)
    cases hmark
  | case2 s =>
    refine ⟨['*', '/'], rfl, List.prefix_of_prefix_length_le ⟨s, rfl⟩ h ?_⟩
    rw [List.length_append]
    exact Nat.le_add_left _ _
  | case3 c s hend ih =>
    cases inner with
    | nil =>
      obtain ⟨rfl, t, rfl⟩ := List.cons_prefix_cons.mp h
      exact absurd rfl (hend _ rfl)
    | cons d inner =>
      obtain ⟨rfl, hrest⟩ := List.cons_prefix_cons.mp h
      obtain ⟨t, ht, hstarts⟩ := ih hrest
      exact ⟨d :: t, by rw [ht]; rfl, (List.prefix_cons_inj d).mpr hstarts⟩

theorem commentRest?_eq_some {t : List Char} (h : commentRest? s = some t) :
    ∃ inner, inner ++ ['*', '/'] = t := by
  fun_induction commentRest? s generalizing t with
  | case1 => cases h
  | case2 s =>
    cases h
    exact ⟨[], rfl⟩
  | case3 c s _ ih =>
    obtain ⟨u, hu, rfl⟩ := Option.map_eq_some_iff.mp h
    obtain ⟨inner, rfl⟩ := ih hu
    exact ⟨c :: inner, rfl⟩

theorem blockComment_mem (h : blockComment s ≠ []) : blockComment s ∈ Grammar.blockComment := by
  unfold blockComment at h ⊢
  split
  · next s =>
    split
    · next t ht =>
      obtain ⟨inner, rfl⟩ := commentRest?_eq_some ht
      exact ⟨['/', '*'], rfl, _, ⟨inner, Grammar.mem_kstar_letter.mpr fun _ _ => rfl, _, rfl, rfl⟩,
        rfl⟩
    · next ht => simp only [ht, ne_eq, not_true_eq_false] at h
  · next hopen =>
    split at h
    · exact absurd rfl (hopen _)
    · exact absurd rfl h

theorem blockComment_isPrefix_of (hv : v ∈ Grammar.blockComment) (h : v <+: s) :
    blockComment s ≠ [] ∧ blockComment s <+: v := by
  obtain ⟨_, rfl, _, ⟨inner, -, _, rfl, rfl⟩, rfl⟩ := hv
  obtain ⟨rest, rfl⟩ := h
  obtain ⟨t, ht, hstarts⟩ :=
    commentRest?_isPrefix_of (List.prefix_append (inner ++ ['*', '/']) rest)
  have hcomment : blockComment ('/' :: '*' :: (inner ++ ['*', '/'] ++ rest)) = '/' :: '*' :: t := by
    rw [blockComment, ht]
  change blockComment ('/' :: '*' :: (inner ++ ['*', '/'] ++ rest)) ≠ [] ∧
    blockComment ('/' :: '*' :: (inner ++ ['*', '/'] ++ rest)) <+:
      '/' :: '*' :: (inner ++ ['*', '/'])
  rw [hcomment, List.prefix_cons_inj, List.prefix_cons_inj]
  exact ⟨List.cons_ne_nil _ _, hstarts⟩

end

end Pattern

/-- The longest word of a language that a text starts with. -/
def IsLongest (l : Language Char) (s w : List Char) : Prop :=
  (w ∈ l ∧ w <+: s) ∧ ∀ v ∈ l, v <+: s → v.length ≤ w.length

/-- The shortest word of a language that a text starts with. -/
def IsShortest (l : Language Char) (s w : List Char) : Prop :=
  (w ∈ l ∧ w <+: s) ∧ ∀ v ∈ l, v <+: s → w.length ≤ v.length

namespace Lexeme
open Pattern

/-- The language of a kind of lexeme.  A character that no rule accepts has none. -/
def language : Lexeme → Language Char
  | tokenPaste => {['#', '#']}
  | lineComment => Grammar.lineComment
  | blockComment => Grammar.blockComment
  | whitespace => Grammar.repeated Grammar.blank
  | operator => Grammar.letter (operators.contains ·)
  | floatLiteral => Grammar.floatLiteral
  | hexLiteral => Grammar.hexLiteral
  | intLiteral => Grammar.intLiteral
  | identifier => Grammar.name
  | unknown => 0

/-- What a lexeme takes of a text. -/
def Takes : Lexeme → List Char → List Char → Prop
  | blockComment => IsShortest blockComment.language
  | kind => IsLongest kind.language

theorem munches_pattern {kind : Lexeme} (h : kind ≠ .blockComment) :
    Munches kind.language kind.pattern := by
  cases kind with
  | tokenPaste => exact munches_tokenPaste
  | lineComment => exact munches_lineComment
  | blockComment => exact absurd rfl h
  | whitespace => exact munches_whitespace
  | operator => exact munches_operator
  | floatLiteral => exact munches_floatLiteral
  | hexLiteral => exact munches_hexLiteral
  | intLiteral => exact munches_intLiteral
  | identifier => exact munches_identifier
  | unknown =>
    exact ⟨fun _ => List.nil_prefix, fun _ hs => absurd rfl hs, nofun, nofun⟩

theorem takes_pattern {kind : Lexeme} {s : List Char} (h : kind.pattern s ≠ []) :
    kind.Takes s (kind.pattern s) := by
  by_cases hk : kind = .blockComment
  · subst hk
    refine ⟨⟨blockComment_mem h, blockComment_isPrefix s⟩, fun v hv hs => ?_⟩
    exact (blockComment_isPrefix_of hv hs).2.length_le
  · have hm := munches_pattern hk
    have htakes : kind.Takes = IsLongest kind.language := by
      cases kind <;> first | rfl | exact absurd rfl hk
    rw [htakes]
    exact ⟨⟨hm.mem s h, hm.isPrefix s⟩, fun v hv hs => (hm.longest v hv hs).length_le⟩

theorem pattern_ne_nil_iff {kind : Lexeme} {s : List Char} :
    kind.pattern s ≠ [] ↔ ∃ v ∈ kind.language, v <+: s := by
  constructor
  · intro h
    have htakes := takes_pattern h
    refine ⟨kind.pattern s, ?_⟩
    cases kind <;> exact htakes.1
  · rintro ⟨v, hv, hs⟩
    by_cases hk : kind = .blockComment
    · subst hk
      exact (blockComment_isPrefix_of hv hs).1
    · have hm := munches_pattern hk
      exact (hm.longest v hv hs).ne_nil fun hnil => hm.nonempty (hnil ▸ hv)

end Lexeme

end ShaderPress
