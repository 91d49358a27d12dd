import ShaderPress.Token.Pattern.Prefix

/-! # Words and literals

What the patterns for words and numbers cover, said without the patterns.  Such a text
is covered again wherever it stands, as long as no word goes on behind it and no point
behind an integer.
-/
namespace ShaderPress.Pattern

/-- No word goes on at the start of the text. -/
def EndsWord (s : List Char) : Prop := ∀ c ∈ s.head?, isIdentPart c = false

theorem endsWord_cons {c : Char} {s : List Char} (hc : isIdentPart c = false) :
    EndsWord (c :: s) := by
  intro d hd
  cases hd
  exact hc

structure IsDigits (d : List Char) : Prop where
  nonempty : d ≠ []
  digit : ∀ c ∈ d, c.isDigit = true

def IsWord : List Char → Prop
  | c :: s => isIdentStart c = true ∧ ∀ d ∈ s, isIdentPart d = true
  | [] => False

inductive IsInt : List Char → Prop
  | plain {d : List Char} (hd : IsDigits d) : IsInt d
  | unsigned {d : List Char} (hd : IsDigits d) : IsInt (d ++ ['u'])

inductive IsHex : List Char → Prop
  | mk {d mark : List Char} (hd : d ≠ [] ∧ ∀ c ∈ d, isHexDigit c = true)
      (hmark : mark = [] ∨ mark = ['u']) : IsHex ('0' :: 'x' :: (d ++ mark))

inductive IsExponent : List Char → Prop
  | mk {c : Char} {sg d : List Char} (hc : c = 'e' ∨ c = 'E')
      (hs : sg = [] ∨ sg = ['+'] ∨ sg = ['-']) (hd : IsDigits d) : IsExponent (c :: (sg ++ d))

/-- Digits with a point behind the first of them, or with an exponent. -/
inductive IsFloat : List Char → Prop
  | point {whole fraction e : List Char} (hw : IsDigits whole)
      (hf : ∀ c ∈ fraction, c.isDigit = true) (he : e = [] ∨ IsExponent e) :
      IsFloat (whole ++ '.' :: (fraction ++ e))
  | exponent {whole e : List Char} (hw : IsDigits whole) (he : IsExponent e) : IsFloat (whole ++ e)

section Classes
variable {c : Char}

theorem isDigit_iff : c.isDigit = true ↔ 48 ≤ c.toNat ∧ c.toNat ≤ 57 := by
  change (decide (48 ≤ c.val) && decide (c.val ≤ 57)) = true ↔ _
  rw [Bool.and_eq_true, decide_eq_true_eq, decide_eq_true_eq]
  rfl

theorem isUpper_iff : c.isUpper = true ↔ 65 ≤ c.toNat ∧ c.toNat ≤ 90 := by
  change decide (65 ≤ c.val ∧ c.val ≤ 90) = true ↔ _
  rw [decide_eq_true_eq]
  rfl

theorem isLower_iff : c.isLower = true ↔ 97 ≤ c.toNat ∧ c.toNat ≤ 122 := by
  change (decide (97 ≤ c.val) && decide (c.val ≤ 122)) = true ↔ _
  rw [Bool.and_eq_true, decide_eq_true_eq, decide_eq_true_eq]
  rfl

theorem isIdentStart_iff :
    isIdentStart c = true ↔ (c.isUpper = true ∨ c.isLower = true) ∨ c = '_' := by
  change ((c.isUpper || c.isLower) || c == '_') = true ↔ _
  simp only [Bool.or_eq_true, beq_iff_eq]

theorem isIdentPart_iff : isIdentPart c = true ↔ isIdentStart c = true ∨ c.isDigit = true := by
  change (((c.isUpper || c.isLower) || c.isDigit) || c == '_') = true ↔ _
  rw [isIdentStart_iff, Bool.or_eq_true, Bool.or_eq_true, Bool.or_eq_true, beq_iff_eq,
    or_right_comm]

theorem isIdentPart_of_isDigit (h : c.isDigit = true) : isIdentPart c = true :=
  isIdentPart_iff.mpr (Or.inr h)

theorem isIdentPart_of_isIdentStart (h : isIdentStart c = true) : isIdentPart c = true :=
  isIdentPart_iff.mpr (Or.inl h)

theorem isIdentPart_of_isHexDigit (h : isHexDigit c = true) : isIdentPart c = true := by
  simp only [isHexDigit, Bool.or_eq_true, Bool.and_eq_true, decide_eq_true_eq] at h
  rcases h with (h | ⟨hl, hu⟩) | ⟨hl, hu⟩
  · exact isIdentPart_of_isDigit h
  · have hlower : c.isLower = true := isLower_iff.mpr ⟨hl, Nat.le_trans hu (by decide)⟩
    exact isIdentPart_of_isIdentStart (isIdentStart_iff.mpr (Or.inl (Or.inr hlower)))
  · have hupper : c.isUpper = true := isUpper_iff.mpr ⟨hl, Nat.le_trans hu (by decide)⟩
    exact isIdentPart_of_isIdentStart (isIdentStart_iff.mpr (Or.inl (Or.inl hupper)))

end Classes

theorem exponent_cons_of_ne {c : Char} {s : List Char} (hc : c = 'e' ∨ c = 'E')
    (hd : digits (s.drop (sign s).length) ≠ []) :
    exponent (c :: s) = c :: (sign s ++ digits (s.drop (sign s).length)) := by
  have hcc : (c == 'e' || c == 'E') = true := by simpa using hc
  simp only [exponent, hcc, if_true]

theorem intLiteral_of_ne {s : List Char} (hd : digits s ≠ []) :
    intLiteral s = digits s ++ unsignedMark (s.drop (digits s).length) := by
  unfold intLiteral
  split
  · contradiction
  · rfl

theorem hexLiteral_of_ne {s : List Char} (hd : s.takeWhile isHexDigit ≠ []) :
    hexLiteral ('0' :: 'x' :: s) = '0' :: 'x' :: (s.takeWhile isHexDigit ++
      unsignedMark (s.drop (s.takeWhile isHexDigit).length)) := by
  simp only [hexLiteral]

theorem floatLiteral_of_point {s t : List Char} (hw : digits s ≠ [])
    (h : s.drop (digits s).length = '.' :: t) :
    floatLiteral s =
      digits s ++ '.' :: (digits t ++ exponent (t.drop (digits t).length)) := by
  have hne : (digits s).isEmpty = false := by simpa using hw
  simp only [floatLiteral, h, hne, Bool.false_and, Bool.false_eq_true, if_false]

theorem floatLiteral_of_exponent {s : List Char} (hw : digits s ≠ [])
    (h : ∀ t, s.drop (digits s).length ≠ '.' :: t)
    (he : exponent (s.drop (digits s).length) ≠ []) :
    floatLiteral s = digits s ++ exponent (s.drop (digits s).length) := by
  simp only [floatLiteral]

theorem floatLiteral_eq_nil {s : List Char} (h : ∀ t, s.drop (digits s).length ≠ '.' :: t)
    (he : digits s = [] ∨ exponent (s.drop (digits s).length) = []) : floatLiteral s = [] := by
  simp only [floatLiteral]
  split
  · rfl
  · rfl
  · rcases he with he | he
    · contradiction
    · contradiction

theorem takeWhile_append_of_all {p : Char → Bool} {w rest : List Char} (hw : ∀ c ∈ w, p c = true)
    (hrest : rest.takeWhile p = []) : (w ++ rest).takeWhile p = w := by
  rw [List.takeWhile_append_of_pos hw, hrest, List.append_nil]

namespace EndsWord
variable {rest : List Char}

theorem takeWhile_eq_nil (h : EndsWord rest) {p : Char → Bool}
    (hp : ∀ c, p c = true → isIdentPart c = true) : rest.takeWhile p = [] := by
  cases rest with
  | nil => rfl
  | cons c s =>
    have hc : p c = false := by
      cases hpc : p c with
      | false => rfl
      | true => exact absurd (h c rfl) (by simp [hp c hpc])
    rw [List.takeWhile_cons, hc]
    rfl

theorem digits_append (h : EndsWord rest) {d : List Char} (hd : ∀ c ∈ d, c.isDigit = true) :
    digits (d ++ rest) = d :=
  takeWhile_append_of_all hd (h.takeWhile_eq_nil fun _ => isIdentPart_of_isDigit)

theorem exponent_eq_nil (h : EndsWord rest) : exponent rest = [] := by
  cases rest with
  | nil => rfl
  | cons c s =>
    have hc : (c == 'e' || c == 'E') = false := by
      cases he : (c == 'e' || c == 'E') with
      | false => rfl
      | true =>
        simp only [Bool.or_eq_true, beq_iff_eq] at he
        rcases he with rfl | rfl <;> exact absurd (h _ rfl) (by decide)
    simp only [exponent, hc, Bool.false_eq_true, if_false]

theorem unsignedMark_eq_nil (h : EndsWord rest) : unsignedMark rest = [] := by
  unfold unsignedMark
  split
  · exact absurd (h 'u' rfl) (by decide)
  · rfl

end EndsWord

/-- A digit is no sign. -/
theorem sign_append {sg d : List Char} (hs : sg = [] ∨ sg = ['+'] ∨ sg = ['-']) (hd : IsDigits d)
    (rest : List Char) : sign (sg ++ (d ++ rest)) = sg := by
  rcases hs with rfl | rfl | rfl
  · obtain ⟨a, d, rfl⟩ := List.exists_cons_of_ne_nil hd.nonempty
    have ha : (a == '+' || a == '-') = false := by
      refine Bool.eq_false_iff.mpr fun ha => ?_
      rcases Bool.or_eq_true_iff.mp ha with ha | ha <;>
        exact absurd (hd.digit a List.mem_cons_self) (by rw [beq_iff_eq.mp ha]; decide)
    exact if_neg (Bool.eq_false_iff.mp ha)
  · rfl
  · rfl

theorem exponent_append {e rest : List Char} (he : IsExponent e) (h : EndsWord rest) :
    exponent (e ++ rest) = e := by
  obtain ⟨hc, hs, hd⟩ := he
  rename_i c sg d
  have hdigits : digits (d ++ rest) = d := h.digits_append hd.digit
  have hsign : sign (sg ++ (d ++ rest)) = sg := sign_append hs hd rest
  have hdrop : digits ((sg ++ (d ++ rest)).drop (sign (sg ++ (d ++ rest))).length) = d := by
    rw [hsign, List.drop_left, hdigits]
  rw [List.cons_append, List.append_assoc,
    exponent_cons_of_ne hc (by rw [hdrop]; exact hd.nonempty), hdrop, hsign]

theorem IsWord.ne_nil {w : List Char} (hw : IsWord w) : w ≠ [] := by
  rintro rfl
  exact hw.elim

theorem word_append {w rest : List Char} (hw : IsWord w) (h : EndsWord rest) :
    word (w ++ rest) = w := by
  cases w with
  | nil => exact hw.elim
  | cons c s =>
    have htake : (s ++ rest).takeWhile isIdentPart = s :=
      takeWhile_append_of_all hw.2 (h.takeWhile_eq_nil fun _ hc => hc)
    simp only [List.cons_append, word, hw.1, if_true, htake]

theorem intLiteral_append {w rest : List Char} (hw : IsInt w) (h : EndsWord rest) :
    intLiteral (w ++ rest) = w := by
  cases hw with
  | plain hd =>
    have hdigits : digits (w ++ rest) = w := h.digits_append hd.digit
    rw [intLiteral_of_ne (by rw [hdigits]; exact hd.nonempty), hdigits, List.drop_left,
      h.unsignedMark_eq_nil, List.append_nil]
  | @unsigned d hd =>
    have hdigits : digits (d ++ ('u' :: rest)) = d :=
      takeWhile_append_of_all hd.digit (by rw [List.takeWhile_cons]; rfl)
    rw [List.append_assoc, List.singleton_append,
      intLiteral_of_ne (by rw [hdigits]; exact hd.nonempty), hdigits, List.drop_left, unsignedMark]

theorem hexLiteral_append {w rest : List Char} (hw : IsHex w) (h : EndsWord rest) :
    hexLiteral (w ++ rest) = w := by
  obtain ⟨hd, hmark⟩ := hw
  rename_i d mark
  have htake : (d ++ (mark ++ rest)).takeWhile isHexDigit = d := by
    refine takeWhile_append_of_all hd.2 ?_
    rcases hmark with rfl | rfl
    · exact h.takeWhile_eq_nil fun _ => isIdentPart_of_isHexDigit
    · rw [List.singleton_append, List.takeWhile_cons]
      rfl
  have hm : unsignedMark (mark ++ rest) = mark := by
    rcases hmark with rfl | rfl
    · exact h.unsignedMark_eq_nil
    · rfl
  rw [List.cons_append, List.cons_append, List.append_assoc,
    hexLiteral_of_ne (by rw [htake]; exact hd.1), htake, List.drop_left, hm]

theorem floatLiteral_append {w rest : List Char} (hw : IsFloat w) (h : EndsWord rest) :
    floatLiteral (w ++ rest) = w := by
  cases hw with
  | @point whole fraction e hw hf he =>
    have htail : EndsWord ('.' :: (fraction ++ (e ++ rest))) := by
      intro c hc
      obtain rfl := Option.some.inj hc
      decide
    have hwhole : digits (whole ++ '.' :: (fraction ++ (e ++ rest))) = whole :=
      htail.digits_append hw.digit
    have hexp : exponent (e ++ rest) = e := by
      rcases he with rfl | he
      · exact h.exponent_eq_nil
      · exact exponent_append he h
    have hfraction : digits (fraction ++ (e ++ rest)) = fraction := by
      refine takeWhile_append_of_all hf ?_
      rcases he with rfl | ⟨hc, -, -⟩
      · exact h.takeWhile_eq_nil fun _ => isIdentPart_of_isDigit
      · rcases hc with rfl | rfl <;> rfl
    rw [List.append_assoc, List.cons_append, List.append_assoc,
      floatLiteral_of_point (by rw [hwhole]; exact hw.nonempty)
        (by rw [hwhole]; exact List.drop_left),
      hwhole, hfraction, List.drop_left, hexp]
  | @exponent whole e hw he =>
    have hwhole : digits (whole ++ (e ++ rest)) = whole := by
      refine takeWhile_append_of_all hw.digit ?_
      obtain ⟨hc, -, -⟩ := he
      rcases hc with rfl | rfl <;> rfl
    have hdrop :
        (whole ++ (e ++ rest)).drop (digits (whole ++ (e ++ rest))).length = e ++ rest := by
      rw [hwhole, List.drop_left]
    have hexp : exponent (e ++ rest) = e := exponent_append he h
    rw [List.append_assoc, floatLiteral_of_exponent, hdrop, hwhole, hexp]
    · rw [hwhole]
      exact hw.nonempty
    · intro t
      rw [hdrop]
      obtain ⟨hc, -, -⟩ := he
      rcases hc with rfl | rfl <;> simp
    · rw [hdrop, hexp]
      cases he
      exact List.cons_ne_nil _ _

theorem isDigits_digits {s : List Char} (h : digits s ≠ []) : IsDigits (digits s) :=
  ⟨h, List.all_eq_true.mp List.all_takeWhile⟩

theorem isWord_word {s : List Char} (h : word s ≠ []) : IsWord (word s) := by
  cases s with
  | nil => exact absurd rfl h
  | cons c s =>
    simp only [word] at h ⊢
    split at h
    · next hc =>
      rw [if_pos hc]
      exact ⟨hc, List.all_eq_true.mp List.all_takeWhile⟩
    · exact absurd rfl h

theorem isInt_intLiteral {s : List Char} (h : intLiteral s ≠ []) : IsInt (intLiteral s) := by
  by_cases hd : digits s = []
  · exact absurd (by simp only [intLiteral, hd]) h
  rw [intLiteral_of_ne hd]
  unfold unsignedMark
  split
  · exact .unsigned (isDigits_digits hd)
  · rw [List.append_nil]
    exact .plain (isDigits_digits hd)

theorem isHex_hexLiteral {s : List Char} (h : hexLiteral s ≠ []) : IsHex (hexLiteral s) := by
  by_cases hs : ∃ t, s = '0' :: 'x' :: t
  · obtain ⟨t, rfl⟩ := hs
    by_cases hd : t.takeWhile isHexDigit = []
    · exact absurd (by simp only [hexLiteral, hd]) h
    · have hmark : ∀ t : List Char, unsignedMark t = [] ∨ unsignedMark t = ['u'] := by
        intro t
        unfold unsignedMark
        split
        · exact Or.inr rfl
        · exact Or.inl rfl
      rw [hexLiteral_of_ne hd]
      exact .mk ⟨hd, List.all_eq_true.mp List.all_takeWhile⟩ (hmark _)
  · refine absurd ?_ h
    unfold hexLiteral
    split
    · next t => exact absurd ⟨t, rfl⟩ hs
    · rfl

theorem isExponent_exponent {s : List Char} (h : exponent s ≠ []) : IsExponent (exponent s) := by
  cases s with
  | nil => exact absurd rfl h
  | cons c s =>
    by_cases hc : (c == 'e' || c == 'E') = true
    · have hcc : c = 'e' ∨ c = 'E' := by simpa using hc
      by_cases hd : digits (s.drop (sign s).length) = []
      · exact absurd (by simp only [exponent, hc, hd, if_true]) h
      · rw [exponent_cons_of_ne hcc hd]
        refine .mk hcc ?_ (isDigits_digits hd)
        cases s with
        | nil => exact Or.inl rfl
        | cons a t =>
          simp only [sign]
          split
          · next ha =>
            simp only [Bool.or_eq_true, beq_iff_eq] at ha
            rcases ha with rfl | rfl
            · exact Or.inr (Or.inl rfl)
            · exact Or.inr (Or.inr rfl)
          · exact Or.inl rfl
    · exact absurd (by simp only [exponent, if_neg hc]) h

/-- The pattern for floats covers a float unless the text starts with a point. -/
theorem isFloat_floatLiteral {s : List Char} (h : floatLiteral s ≠ [])
    (hs : s.head? ≠ some '.') : IsFloat (floatLiteral s) := by
  have hwhole : digits s ≠ [] := by
    intro hw
    cases s with
    | nil => exact h rfl
    | cons c t =>
      have hc : c ≠ '.' := fun hc => hs (congrArg some hc)
      refine h ?_
      simp only [floatLiteral, hw, List.length_nil, List.drop_zero]
      split
      · next heq => exact absurd (List.cons.inj heq).1 hc
      · rfl
  have hw : IsDigits (digits s) := isDigits_digits hwhole
  by_cases hpoint : ∃ t, s.drop (digits s).length = '.' :: t
  · obtain ⟨t, ht⟩ := hpoint
    rw [floatLiteral_of_point hwhole ht]
    refine .point hw (List.all_eq_true.mp List.all_takeWhile) ?_
    by_cases he : exponent (t.drop (digits t).length) = []
    · exact Or.inl he
    · exact Or.inr (isExponent_exponent he)
  · have hp : ∀ t, s.drop (digits s).length ≠ '.' :: t := fun t ht => hpoint ⟨t, ht⟩
    by_cases he : exponent (s.drop (digits s).length) = []
    · exact absurd (floatLiteral_eq_nil hp (Or.inr he)) h
    · rw [floatLiteral_of_exponent hwhole hp he]
      exact .exponent hw (isExponent_exponent he)

theorem tokenPaste_of_ne {s : List Char} (h : tokenPaste s ≠ []) : tokenPaste s = ['#', '#'] := by
  unfold tokenPaste at h ⊢
  split
  · rfl
  · next hs =>
    split at h
    · exact absurd rfl (hs _)
    · exact absurd rfl h

theorem arguments_of_mem {t u : List Char} (ht : ')' ∉ t) :
    arguments ('(' :: (t ++ ')' :: u)) = '(' :: (t ++ [')']) := by
  have hinner : (t ++ ')' :: u).takeWhile (· != ')') = t := by
    rw [List.takeWhile_append_of_pos fun c hc => bne_iff_ne.mpr (ne_of_mem_of_not_mem hc ht)]
    simp
  rw [arguments, hinner, List.drop_left]

theorem arguments_of_not_mem {t : List Char} (ht : ')' ∉ t) : arguments ('(' :: t) = [] := by
  have hinner : t.takeWhile (· != ')') = t := by
    have := @List.takeWhile_append_of_pos _ (· != ')') t []
      fun c hc => bne_iff_ne.mpr (ne_of_mem_of_not_mem hc ht)
    simpa using this
  rw [arguments, hinner, List.drop_length]

theorem arguments_of_ne {s : List Char} (hs : ∀ t, s ≠ '(' :: t) : arguments s = [] := by
  unfold arguments
  split
  · exact absurd rfl (hs _)
  · rfl

/-- An argument list is closed by its first closing parenthesis. -/
theorem arguments_cases (s : List Char) :
    arguments s = [] ∨ ∃ t, ')' ∉ t ∧ arguments s = '(' :: (t ++ [')']) := by
  by_cases hopen : ∃ t, s = '(' :: t
  · obtain ⟨t, rfl⟩ := hopen
    by_cases hm : ')' ∈ t
    · obtain ⟨a, b, rfl, ha⟩ := List.eq_append_cons_of_mem hm
      exact Or.inr ⟨a, ha, arguments_of_mem ha⟩
    · exact Or.inl (arguments_of_not_mem hm)
  · exact Or.inl (arguments_of_ne fun t ht => hopen ⟨t, ht⟩)

theorem directiveBody_cons {c : Char} {s : List Char} (hn : c ≠ '\n')
    (h : c = '\\' → ∀ t, s ≠ '\n' :: t)
    (hcomment : c = '/' → ∀ t, s ≠ '/' :: t ∧ s ≠ '*' :: t) :
    directiveBody (c :: s) = c :: directiveBody s := by
  rw [directiveBody, if_neg hn]
  · rintro t rfl rfl
    exact h rfl t rfl
  · rintro t rfl rfl
    exact (hcomment rfl t).1 rfl
  · rintro t rfl rfl
    exact (hcomment rfl t).2 rfl

end ShaderPress.Pattern
