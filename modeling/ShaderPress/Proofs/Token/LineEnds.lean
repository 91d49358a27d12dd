import ShaderPress.Proofs.Token.Shapes
import ShaderPress.Proofs.Token.Writable

/-! # Texts that differ in how lines end

A carriage return before a line feed is a blank beside a blank.  No pattern tells a carriage
return from a line feed but those that follow an escaped line end or stop at a line end, so the
same rule finds the same form, up to the line ends inside blanks, comments and bodies.
-/
namespace ShaderPress

namespace Text

/-- The text with a carriage return before each line feed. -/
def crlf (s : List Char) : List Char := s.flatMap fun c => if c = '\n' then ['\r', '\n'] else [c]

/-- A text without carriage returns beside one with some before its line feeds.  Where a line feed
follows on the text there may be one at its end. -/
inductive SameLines (followed : Bool) : List Char → List Char → Prop
  | nil : SameLines followed [] []
  | last (h : followed = true) : SameLines followed [] ['\r']
  | newline {s s' : List Char} (h : SameLines followed s s') :
    SameLines followed ('\n' :: s) ('\n' :: s')
  | crlf {s s' : List Char} (h : SameLines followed s s') :
    SameLines followed ('\n' :: s) ('\r' :: '\n' :: s')
  | char {c : Char} {s s' : List Char} (hn : c ≠ '\n') (hr : c ≠ '\r')
    (h : SameLines followed s s') : SameLines followed (c :: s) (c :: s')

variable {followed : Bool} {c : Char} {s s' t t' w : List Char}

theorem sameLines_crlf (h : '\r' ∉ s) : SameLines followed s (crlf s) := by
  induction s with
  | nil => exact .nil
  | cons c s ih =>
    rw [List.mem_cons, not_or] at h
    rw [crlf, List.flatMap_cons, ← crlf]
    split
    · next hc =>
      subst hc
      exact .crlf (ih h.2)
    · next hc => exact .char hc (Ne.symm h.1) (ih h.2)

theorem SameLines.newlines (h : SameLines followed s s') : newlines s' = newlines s := by
  induction h with
  | nil | last => rfl
  | newline _ ih | crlf _ ih => simpa [Text.newlines] using ih
  | @char c s s' _ _ _ ih =>
    simp only [Text.newlines, List.count_cons] at ih ⊢
    rw [ih]

theorem SameLines.of_cons (hc : c ≠ '\n') (h : SameLines followed (c :: t) s') :
    ∃ t', s' = c :: t' ∧ SameLines followed t t' := by
  cases h with
  | newline | crlf => exact absurd rfl hc
  | char _ _ h => exact ⟨_, rfl, h⟩

theorem SameLines.of_cons' (hn : c ≠ '\n') (hr : c ≠ '\r') (h : SameLines followed s (c :: t')) :
    ∃ t, s = c :: t ∧ SameLines followed t t' := by
  cases h with
  | last | crlf => exact absurd rfl hr
  | newline => exact absurd rfl hn
  | char _ _ h => exact ⟨_, rfl, h⟩

/-- Both texts start with a character that is in no line end, or neither does. -/
theorem SameLines.starts (hn : c ≠ '\n') (hr : c ≠ '\r') (h : SameLines followed s s') :
    (∃ t t', s = c :: t ∧ s' = c :: t' ∧ SameLines followed t t') ∨
      (∀ t, s ≠ c :: t) ∧ ∀ t', s' ≠ c :: t' := by
  by_cases hs : ∃ t, s = c :: t
  · obtain ⟨t, rfl⟩ := hs
    obtain ⟨t', rfl, ht⟩ := h.of_cons hn
    exact Or.inl ⟨t, t', rfl, rfl, ht⟩
  · refine Or.inr ⟨fun t ht => hs ⟨t, ht⟩, ?_⟩
    rintro t' rfl
    obtain ⟨t, ht, -⟩ := h.of_cons' hn hr
    exact hs ⟨t, ht⟩

/-- Both texts start with two such characters, or neither does. -/
theorem SameLines.startsTwo {d : Char} (hc : c ≠ '\n' ∧ c ≠ '\r') (hd : d ≠ '\n' ∧ d ≠ '\r')
    (h : SameLines followed s s') :
    (∃ t t', s = c :: d :: t ∧ s' = c :: d :: t' ∧ SameLines followed t t') ∨
      (∀ t, s ≠ c :: d :: t) ∧ ∀ t', s' ≠ c :: d :: t' := by
  rcases h.starts hc.1 hc.2 with ⟨t, t', rfl, rfl, ht⟩ | ⟨hs, hs'⟩
  · rcases ht.starts hd.1 hd.2 with ⟨u, u', rfl, rfl, hu⟩ | ⟨ht, ht'⟩
    · exact Or.inl ⟨u, u', rfl, rfl, hu⟩
    · exact Or.inr ⟨fun u he => ht u (List.cons.inj he).2, fun u he => ht' u (List.cons.inj he).2⟩
  · exact Or.inr ⟨fun t => hs _, fun t => hs' _⟩

theorem SameLines.of_append (hw : '\n' ∉ w) (h : SameLines followed (w ++ t) s') :
    ∃ t', s' = w ++ t' ∧ SameLines followed t t' := by
  induction w generalizing s' with
  | nil => exact ⟨s', rfl, h⟩
  | cons c w ih =>
    rw [List.mem_cons, not_or] at hw
    obtain ⟨u, rfl, hu⟩ := SameLines.of_cons (Ne.symm hw.1) h
    obtain ⟨t', rfl, ht⟩ := ih hw.2 hu
    exact ⟨t', rfl, ht⟩

/-- Behind a stretch without line ends. -/
theorem SameLines.drop (h : SameLines followed s s') (hp : w <+: s) (hw : '\n' ∉ w) :
    SameLines followed (s.drop w.length) (s'.drop w.length) := by
  obtain ⟨t, rfl⟩ := hp
  obtain ⟨t', rfl, ht⟩ := h.of_append hw
  rwa [List.drop_left, List.drop_left]

theorem SameLines.isPrefix (h : SameLines followed s s') (hp : w <+: s) (hw : '\n' ∉ w) :
    w <+: s' := by
  obtain ⟨t, rfl⟩ := hp
  obtain ⟨t', rfl, -⟩ := h.of_append hw
  exact ⟨t', rfl⟩

theorem SameLines.append (ht : SameLines false s s') (h : SameLines followed t t') :
    SameLines followed (s ++ t) (s' ++ t') := by
  induction ht with
  | nil => exact h
  | last hfalse => cases hfalse
  | newline _ ih => exact .newline ih
  | crlf _ ih => exact .crlf ih
  | char hn hr _ ih => exact .char hn hr ih

theorem SameLines.split (h : SameLines followed (w ++ t) s') :
    ∃ w' t', s' = w' ++ t' ∧ SameLines false w w' ∧ SameLines followed t t' := by
  induction w generalizing s' with
  | nil => exact ⟨[], s', rfl, .nil, h⟩
  | cons c w ih =>
    cases h with
    | newline h =>
      obtain ⟨w', t', rfl, hw, ht⟩ := ih h
      exact ⟨'\n' :: w', t', rfl, .newline hw, ht⟩
    | crlf h =>
      obtain ⟨w', t', rfl, hw, ht⟩ := ih h
      exact ⟨'\r' :: '\n' :: w', t', rfl, .crlf hw, ht⟩
    | char hn hr h =>
      obtain ⟨w', t', rfl, hw, ht⟩ := ih h
      exact ⟨c :: w', t', rfl, .char hn hr hw, ht⟩

theorem SameLines.mem_iff (h : SameLines followed s s') (hr : c ≠ '\r') : c ∈ s' ↔ c ∈ s := by
  induction h with
  | nil => exact Iff.rfl
  | last => simp [hr]
  | newline _ ih | char _ _ _ ih => simp [ih]
  | crlf _ ih => simp [ih, hr]

theorem SameLines.eq_nil (h : SameLines false [] s') : s' = [] := by
  cases h with
  | nil => rfl
  | last h => cases h

theorem endsWord_sameLines (h : SameLines followed s s') : endsWord s' = endsWord s := by
  have hn : isWord '\n' = false := by decide
  have hr : isWord '\r' = false := by decide
  cases h with
  | nil | newline | char => rfl
  | last | crlf => simp only [endsWord, hn, hr, Bool.not_false]

theorem firstLine_sameLines (h : SameLines followed s s') (hf : followed = false ∨ '\n' ∈ s) :
    firstLine s' = firstLine s := by
  induction h with
  | nil => rfl
  | last h => exact absurd (hf.resolve_left (by rw [h]; exact Bool.noConfusion)) List.not_mem_nil
  | newline | crlf => rfl
  | @char c s s' hn hr _ ih =>
    have hs : followed = false ∨ '\n' ∈ s :=
      hf.imp_right fun hm => (List.mem_cons.mp hm).resolve_left (Ne.symm hn)
    rw [firstLine, firstLine, ih hs] <;> simp [hn, hr]

end Text

namespace Pattern
open Text
variable {followed : Bool} {s s' : List Char}

/-- A pattern that stays in a line and cannot tell a carriage return from its end. -/
structure Blind (pattern : List Char → List Char) : Prop where
  isPrefix : ∀ s, pattern s <+: s
  newline : ∀ s, '\n' ∉ pattern s
  eq : ∀ {followed s s'}, SameLines followed s s' → pattern s' = pattern s

theorem Blind.drop {pattern : List Char → List Char} (hp : Blind pattern)
    (h : SameLines followed s s') :
    SameLines followed (s.drop (pattern s).length) (s'.drop (pattern s').length) := by
  rw [hp.eq h]
  exact h.drop (hp.isPrefix s) (hp.newline s)

theorem takeWhile_sameLines {p : Char → Bool} (hn : p '\n' = false) (hr : p '\r' = false)
    (h : SameLines followed s s') : s'.takeWhile p = s.takeWhile p := by
  induction h with
  | nil => rfl
  | last => rw [List.takeWhile_cons_of_neg (by rw [hr]; exact Bool.noConfusion), List.takeWhile_nil]
  | newline => simp [hn]
  | crlf => simp [hn, hr]
  | @char c s s' _ _ _ ih => rw [List.takeWhile_cons, List.takeWhile_cons, ih]

theorem blind_takeWhile {p : Char → Bool} (hn : p '\n' = false) (hr : p '\r' = false) :
    Blind (List.takeWhile p) where
  isPrefix _ := List.takeWhile_prefix _
  newline s hm := by
    have := List.all_eq_true.mp (List.all_takeWhile (p := p) (l := s)) '\n' hm
    rw [hn] at this
    cases this
  eq := takeWhile_sameLines hn hr

theorem blind_gap : Blind gap := blind_takeWhile (by decide) (by decide)

theorem blind_digits : Blind digits := blind_takeWhile (by decide) (by decide)

theorem blind_word : Blind word where
  isPrefix := word_isPrefix
  newline s hm := by
    obtain ⟨-, -, -, -, hn⟩ := word_eq_cons (List.ne_nil_of_mem hm)
    exact hn hm
  eq h := by
    cases h with
    | nil => rfl
    | last | newline | crlf => rfl
    | @char c s s' _ _ h =>
      rw [word, word, takeWhile_sameLines (by decide) (by decide) h]

theorem blind_identifier : Blind identifier where
  isPrefix := identifier_isPrefix
  newline s := by
    cases s with
    | nil => exact List.not_mem_nil
    | cons c s =>
      rw [identifier]
      split
      · next hc =>
        have hword := blind_word.newline s
        split
        · exact List.not_mem_nil
        · refine fun hm => (List.mem_cons.mp hm).elim ?_ hword
          rintro rfl
          exact absurd hc (by decide)
      · exact blind_word.newline _
  eq h := by
    cases h with
    | nil => rfl
    | last | newline | crlf => rfl
    | @char c s s' hn hr h =>
      rw [identifier, identifier, blind_word.eq h, blind_word.eq (.char hn hr h)]

theorem blind_tokenPaste : Blind tokenPaste where
  isPrefix := tokenPaste_isPrefix
  newline := newline_not_mem_tokenPaste
  eq h := by
    have hnone : ∀ {s}, (∀ t, s ≠ '#' :: '#' :: t) → tokenPaste s = [] := by
      intro s hs
      unfold tokenPaste
      split
      · exact absurd rfl (hs _)
      · rfl
    rcases h.startsTwo (c := '#') (d := '#') (by decide) (by decide) with
      ⟨t, t', rfl, rfl, -⟩ | ⟨hs, hs'⟩
    · rfl
    · rw [hnone hs, hnone hs']

theorem blind_operator : Blind operator where
  isPrefix := operator_isPrefix
  newline := newline_not_mem_operator
  eq h := by
    cases h with
    | nil | newline | char => rfl
    | last | crlf => rfl

theorem blind_sign : Blind sign where
  isPrefix := sign_isPrefix
  newline s hm := by
    cases s with
    | nil => cases hm
    | cons c s =>
      rw [sign] at hm
      split at hm
      · next hc =>
        rw [← List.mem_singleton.mp hm] at hc
        exact absurd hc (by decide)
      · cases hm
  eq h := by
    cases h with
    | nil | newline | char => rfl
    | last | crlf => rfl

theorem blind_exponent : Blind exponent where
  isPrefix := exponent_isPrefix
  newline := newline_not_mem_exponent
  eq h := by
    cases h with
    | nil => rfl
    | last | newline | crlf => rfl
    | char _ _ h =>
      rw [exponent, exponent, blind_sign.eq h,
        blind_digits.eq (blind_sign.eq h ▸ blind_sign.drop h)]

theorem blind_unsignedMark : Blind unsignedMark where
  isPrefix := unsignedMark_isPrefix
  newline := newline_not_mem_unsignedMark
  eq h := by
    have hnone : ∀ {s}, (∀ t, s ≠ 'u' :: t) → unsignedMark s = [] := by
      intro s hs
      unfold unsignedMark
      split
      · exact absurd rfl (hs _)
      · rfl
    rcases h.starts (c := 'u') (by decide) (by decide) with ⟨t, t', rfl, rfl, -⟩ | ⟨hs, hs'⟩
    · rfl
    · rw [hnone hs, hnone hs']

theorem blind_intLiteral : Blind intLiteral where
  isPrefix := intLiteral_isPrefix
  newline := newline_not_mem_intLiteral
  eq h := by
    have hmark := blind_unsignedMark.eq (blind_digits.drop h)
    rw [blind_digits.eq h] at hmark
    rw [intLiteral, intLiteral, blind_digits.eq h]
    split
    · rfl
    · rw [hmark]

theorem blind_hexLiteral : Blind hexLiteral where
  isPrefix := hexLiteral_isPrefix
  newline := newline_not_mem_hexLiteral
  eq h := by
    have hhex : Blind (List.takeWhile isHexDigit) := blind_takeWhile (by decide) (by decide)
    have hnone : ∀ {s}, (∀ t, s ≠ '0' :: 'x' :: t) → hexLiteral s = [] := by
      intro s hs
      unfold hexLiteral
      split
      · exact absurd rfl (hs _)
      · rfl
    rcases h.startsTwo (c := '0') (d := 'x') (by decide) (by decide) with
      ⟨t, t', rfl, rfl, ht⟩ | ⟨hs, hs'⟩
    · have hmark := blind_unsignedMark.eq (hhex.drop ht)
      rw [hhex.eq ht] at hmark
      rw [hexLiteral, hexLiteral, hhex.eq ht]
      split
      · rfl
      · rw [hmark]
    · rw [hnone hs, hnone hs']

theorem blind_floatLiteral : Blind floatLiteral where
  isPrefix := floatLiteral_isPrefix
  newline := newline_not_mem_floatLiteral
  eq {_ s s'} h := by
    have hrest := blind_digits.drop h
    have hwhole : digits s' = digits s := blind_digits.eq h
    have htail : exponent (s'.drop (digits s').length) = exponent (s.drop (digits s).length) :=
      blind_exponent.eq hrest
    rcases hrest.starts (c := '.') (by decide) (by decide) with ⟨u, u', hu, hu', ht⟩ | ⟨hs, hs'⟩
    · have hexp := blind_exponent.eq (blind_digits.drop ht)
      rw [blind_digits.eq ht] at hexp
      rw [floatLiteral, floatLiteral, hu, hu', hwhole]
      simp only [blind_digits.eq ht, hexp]
    · by_cases hnil : digits s = [] ∨ exponent (s.drop (digits s).length) = []
      · rw [floatLiteral_eq_nil hs hnil, floatLiteral_eq_nil hs' (by rwa [htail, hwhole])]
      · obtain ⟨hw, he⟩ := not_or.mp hnil
        rw [floatLiteral_of_exponent hw hs he,
          floatLiteral_of_exponent (hwhole ▸ hw) hs' (htail ▸ he), htail, hwhole]

/-- Stretches at the start of two texts that differ in how lines end, as do the texts behind
them; `ends` tells whether a line feed follows on the first stretch. -/
structure SameStretch (followed ends : Bool) (s s' w w' : List Char) : Prop where
  own : SameLines ends w w'
  rest : SameLines followed (s.drop w.length) (s'.drop w'.length)

variable {ends : Bool} {w w' : List Char}

theorem SameStretch.nil (h : SameLines followed s s') : SameStretch followed ends s s' [] [] :=
  ⟨.nil, h⟩

theorem SameStretch.newline (h : SameStretch followed ends s s' w w') :
    SameStretch followed ends ('\n' :: s) ('\n' :: s') ('\n' :: w) ('\n' :: w') :=
  ⟨.newline h.own, h.rest⟩

theorem SameStretch.crlf (h : SameStretch followed ends s s' w w') :
    SameStretch followed ends ('\n' :: s) ('\r' :: '\n' :: s') ('\n' :: w) ('\r' :: '\n' :: w') :=
  ⟨.crlf h.own, h.rest⟩

theorem SameStretch.char {c : Char} (hn : c ≠ '\n') (hr : c ≠ '\r')
    (h : SameStretch followed ends s s' w w') :
    SameStretch followed ends (c :: s) (c :: s') (c :: w) (c :: w') :=
  ⟨.char hn hr h.own, h.rest⟩

theorem whitespace_cons (c : Char) (s : List Char) (hc : Text.isBlank c = true) :
    whitespace (c :: s) = c :: whitespace s := by
  have hne : c ≠ '\\' := by
    rintro rfl
    exact absurd hc (by decide)
  rw [whitespace, if_pos hc] <;> simp [hne]

/-- Blanks are blanks whatever ends their lines. -/
theorem whitespace_sameLines (h : SameLines followed s s') :
    SameStretch followed true s s' (whitespace s) (whitespace s') := by
  fun_induction whitespace s generalizing s' with
  | case1 =>
    cases h with
    | nil => exact .nil .nil
    | last =>
      rw [whitespace_cons _ _ (by decide)]
      exact ⟨.last rfl, .nil⟩
  | case2 s ih =>
    obtain ⟨u, rfl, hu⟩ := h.of_cons (by decide)
    cases hu with
    | newline hu =>
      rw [whitespace]
      exact (ih hu).newline.char (by decide) (by decide)
    | crlf hu =>
      rw [whitespace]
      exact (ih hu).crlf.char (by decide) (by decide)
    | char hn => exact absurd rfl hn
  | case3 s ih =>
    obtain ⟨u, rfl, hu⟩ := h.of_cons (by decide)
    cases hu with
    | char _ hr => exact absurd rfl hr
  | case4 c s hescaped hreturn hc ih =>
    cases h with
    | newline h =>
      rw [whitespace_cons _ _ (by decide)]
      exact (ih h).newline
    | crlf h =>
      rw [whitespace_cons _ _ (by decide), whitespace_cons _ _ (by decide)]
      exact (ih h).crlf
    | char hn hr h =>
      rw [whitespace_cons _ _ hc]
      exact (ih h).char hn hr
  | case5 c s hescaped hreturn hc =>
    have hnone : whitespace s' = [] := by
      cases h with
      | newline | crlf => exact absurd (by decide) hc
      | @char c s u hn hr h =>
        by_cases hb : c = '\\'
        · subst hb
          cases h with
          | nil | last => rfl
          | newline | crlf => exact absurd rfl (hescaped _ rfl)
          | char hn hr _ => rw [whitespace, if_neg hc] <;> simp [hn, hr]
        · rw [whitespace, if_neg hc] <;> simp [hb]
    rw [hnone]
    exact .nil h

theorem commentRest?_cons {c : Char} (h : c = '*' → ∀ t, s ≠ '/' :: t) :
    commentRest? (c :: s) = (commentRest? s).map (c :: ·) := by
  rw [commentRest?]
  rintro t rfl rfl
  exact h rfl t rfl

theorem rel_map {α β γ δ : Type} {R : α → β → Prop} {S : γ → δ → Prop} {f : α → γ} {g : β → δ}
    {x : Option α} {y : Option β} (h : Option.Rel R x y) (hf : ∀ {a b}, R a b → S (f a) (g b)) :
    Option.Rel S (x.map f) (y.map g) := by
  cases h with
  | none => exact .none
  | some h => exact .some (hf h)

/-- A comment is closed whatever ends its lines. -/
theorem commentRest?_sameLines (h : SameLines followed s s') :
    Option.Rel (SameStretch followed true s s') (commentRest? s) (commentRest? s') := by
  induction h with
  | nil | last => exact .none
  | newline _ ih =>
    rw [commentRest?_cons (by simp), commentRest?_cons (by simp)]
    exact rel_map ih .newline
  | crlf _ ih =>
    rw [commentRest?_cons (by simp), commentRest?_cons (by simp), commentRest?_cons (by simp),
      Option.map_map]
    exact rel_map ih .crlf
  | @char c s s' hn hr h ih =>
    by_cases hend : c = '*' ∧ ∃ t, s = '/' :: t
    · obtain ⟨rfl, t, rfl⟩ := hend
      obtain ⟨t', rfl, ht⟩ := h.of_cons (by decide)
      exact .some (((SameStretch.nil ht).char (by decide) (by decide)).char hn hr)
    · have hs : c = '*' → ∀ t, s ≠ '/' :: t := fun hc t ht => hend ⟨hc, t, ht⟩
      have hs' : c = '*' → ∀ t, s' ≠ '/' :: t := by
        rintro hc t rfl
        obtain ⟨u, rfl, -⟩ := h.of_cons' (by decide) (by decide)
        exact hs hc u rfl
      rw [commentRest?_cons hs, commentRest?_cons hs']
      exact rel_map ih (.char hn hr)

theorem lineRest_cons {c : Char} (hn : c ≠ '\n') (h : c = '\\' → ∀ t, s ≠ '\n' :: t) :
    lineRest (c :: s) = c :: lineRest s := by
  rw [lineRest, if_neg hn]
  rintro t rfl rfl
  exact h rfl t rfl

/-- The rest of a line goes up to the same end if no line end is escaped in it. -/
theorem lineRest_sameLines (h : SameLines followed s s') (hline : '\n' ∉ lineRest s) :
    SameStretch followed true s s' (lineRest s) (lineRest s') := by
  fun_induction lineRest s generalizing s' with
  | case1 =>
    cases h with
    | nil => exact .nil .nil
    | last => exact ⟨.last rfl, .nil⟩
  | case2 => simp at hline
  | case3 =>
    cases h with
    | newline h => exact .nil (.newline h)
    | crlf h => exact ⟨.last rfl, .newline h⟩
    | char hn => exact absurd rfl hn
  | case4 c s hescaped hn ih =>
    cases h with
    | newline | crlf => exact absurd rfl hn
    | @char _ _ s' _ hr h =>
      have hescaped' : c = '\\' → ∀ t, s' ≠ '\n' :: t := by
        rintro rfl t rfl
        cases h with
        | newline => exact hescaped _ rfl rfl
        | char hn => exact absurd rfl hn
      rw [lineRest_cons hn hescaped']
      exact (ih h fun hm => hline (List.mem_cons_of_mem c hm)).char hn hr

/-- The next line end stands here; at the end of the text it follows on it. -/
def lineEnds (followed : Bool) : List Char → Bool
  | [] => followed
  | c :: _ => c == '\n'

/-- A body without an escaped line end goes up to the same comment or line end. -/
theorem directiveBody_sameLines (h : SameLines followed s s') (hline : '\n' ∉ directiveBody s) :
    SameStretch followed (lineEnds followed (s.drop (directiveBody s).length)) s s'
      (directiveBody s) (directiveBody s') := by
  fun_induction directiveBody s generalizing s' with
  | case1 =>
    cases h with
    | nil => exact .nil .nil
    | last h => exact ⟨.last h, .nil⟩
  | case2 => simp at hline
  | case3 t =>
    obtain ⟨u, rfl, hu⟩ := h.of_cons (by decide)
    obtain ⟨v, rfl, -⟩ := hu.of_cons (by decide)
    exact .nil h
  | case4 t =>
    obtain ⟨u, rfl, hu⟩ := h.of_cons (by decide)
    obtain ⟨v, rfl, -⟩ := hu.of_cons (by decide)
    exact .nil h
  | case5 =>
    cases h with
    | newline h => exact .nil (.newline h)
    | crlf h => exact ⟨.last rfl, .newline h⟩
    | char hn => exact absurd rfl hn
  | case6 c s hescaped hslash hstar hn ih =>
    cases h with
    | newline | crlf => exact absurd rfl hn
    | @char _ _ s' _ hr h =>
      have hescaped' : c = '\\' → ∀ t, s' ≠ '\n' :: t := by
        rintro rfl t rfl
        cases h with
        | newline => exact hescaped _ rfl rfl
        | char hn => exact absurd rfl hn
      have hcomment' : c = '/' → ∀ t, s' ≠ '/' :: t ∧ s' ≠ '*' :: t := by
        rintro rfl t
        constructor
        · rintro rfl
          obtain ⟨u, rfl, -⟩ := h.of_cons' (by decide) (by decide)
          exact hslash u rfl rfl
        · rintro rfl
          obtain ⟨u, rfl, -⟩ := h.of_cons' (by decide) (by decide)
          exact hstar u rfl rfl
      rw [directiveBody_cons hn hescaped' hcomment']
      exact (ih h fun hm => hline (List.mem_cons_of_mem c hm)).char hn hr

/-- An argument list goes up to the same parenthesis. -/
theorem arguments_sameLines (h : SameLines followed s s') :
    SameStretch followed false s s' (arguments s) (arguments s') := by
  rcases h.starts (c := '(') (by decide) (by decide) with ⟨t, t', rfl, rfl, ht⟩ | ⟨hs, hs'⟩
  · by_cases hm : ')' ∈ t
    · obtain ⟨a, b, rfl, ha⟩ := List.eq_append_cons_of_mem hm
      obtain ⟨a', u, rfl, hown, hu⟩ := ht.split
      obtain ⟨b', rfl, hb⟩ := hu.of_cons (by decide)
      have ha' : ')' ∉ a' := mt (hown.mem_iff (by decide)).mp ha
      rw [arguments_of_mem ha, arguments_of_mem ha']
      refine ⟨(hown.append (.char (by decide) (by decide) .nil)).char (by decide) (by decide), ?_⟩
      simpa using hb
    · rw [arguments_of_not_mem hm, arguments_of_not_mem (mt (ht.mem_iff (by decide)).mp hm)]
      exact .nil h
  · rw [arguments_of_ne hs, arguments_of_ne hs']
    exact .nil h

end Pattern

end ShaderPress
