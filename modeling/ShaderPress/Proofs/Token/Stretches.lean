import ShaderPress.Proofs.Token.Writable

/-! # The stretches that are lexed in turn

Inside a form its parts are lexed, and behind it the rest of the text.  What stands before a part
of a directive holds no line feed but those of an argument list, so the line on which a stretch
starts is the line of the form with the line feeds up to the stretch.
-/
namespace ShaderPress.Form
open Pattern

/-- A definition up to its parts. -/
def defineHead (gap space : List Char) (name : Ident) : List Char :=
  '#' :: (gap ++ Keyword.define.text ++ space ++ name)

/-- The stretches of a text that are lexed inside and behind the form at its start, each with the
text before it. -/
def stretches (s : List Char) : Form → List (List Char × List Char)
  | define gap space name arguments body =>
    let text := (define gap space name arguments body).text
    [(defineHead gap space name, arguments), (defineHead gap space name ++ arguments, body),
      (text, s.drop text.length)]
  | directive gap body =>
    [('#' :: gap, body), ((directive gap body).text, s.drop (directive gap body).text.length)]
  | f => [(f.text, s.drop f.text.length)]

theorem text_define (gap space : List Char) (name : Ident) (arguments body : List Char) :
    (define gap space name arguments body).text =
      defineHead gap space name ++ arguments ++ body := rfl

section
variable {s : List Char} {f : Form}

theorem text_append_drop (h : first? s = some f) : f.text ++ s.drop f.text.length = s := by
  rcases covers_of_first? h with ⟨keyword, rfl⟩ | ⟨hp, -⟩
  · rfl
  · exact List.prefix_iff_eq_append.mp hp

theorem text_isPrefix (h : first? s = some f) : f.text <+: s := ⟨_, text_append_drop h⟩

theorem isPrefix_of_mem_stretches (h : first? s = some f) {p : List Char × List Char}
    (hp : p ∈ f.stretches s) : p.1 ++ p.2 <+: s := by
  have behind : f.text ++ s.drop f.text.length <+: s :=
    ⟨[], by rw [List.append_nil, text_append_drop h]⟩
  cases f with
  | define gap space name arguments body =>
    have htext := text_isPrefix h
    rw [text_define] at htext
    simp only [stretches, List.mem_cons, List.not_mem_nil, or_false] at hp
    rcases hp with rfl | rfl | rfl
    · exact (List.prefix_append _ body).trans htext
    · exact htext
    · exact behind
  | directive gap body =>
    simp only [stretches, List.mem_cons, List.not_mem_nil, or_false] at hp
    rcases hp with rfl | rfl
    · exact text_isPrefix h
    · exact behind
  | conditional | definedTest | lexeme | unknown | malformed =>
    rw [List.mem_singleton.mp hp]
    exact behind

/-- Every stretch is shorter than the text, since something stands before it. -/
theorem length_lt_of_mem_stretches (h : first? s = some f) (hm : ∀ keyword, f ≠ malformed keyword)
    {p : List Char × List Char} (hp : p ∈ f.stretches s) : p.2.length < s.length := by
  have hle := (isPrefix_of_mem_stretches h hp).length_le
  have hlead : p.1 ≠ [] := by
    have htext : f.text ≠ [] := by
      rcases covers_of_first? h with ⟨keyword, rfl⟩ | ⟨-, hne⟩
      · exact absurd rfl (hm keyword)
      · exact hne
    cases f with
    | define gap space name arguments body =>
      simp only [stretches, List.mem_cons, List.not_mem_nil, or_false] at hp
      rcases hp with rfl | rfl | rfl <;> exact List.cons_ne_nil _ _
    | directive gap body =>
      simp only [stretches, List.mem_cons, List.not_mem_nil, or_false] at hp
      rcases hp with rfl | rfl <;> exact List.cons_ne_nil _ _
    | conditional | definedTest | lexeme | unknown | malformed =>
      rw [List.mem_singleton.mp hp]
      exact htext
  have hpos := List.length_pos_iff.mpr hlead
  rw [List.length_append] at hle
  omega

theorem newlines_of_isGap {gap : List Char} (h : IsGap gap) : Text.newlines gap = 0 := by
  refine List.count_eq_zero.mpr fun hm => ?_
  rcases h _ hm with hc | hc <;> exact absurd hc (by decide)

theorem newlines_name {name : Ident} (h : OneLine (Ident.stripSigil name)) :
    Text.newlines name = 0 := by
  refine List.count_eq_zero.mpr fun hm => h.newline ?_
  cases name with
  | nil => exact hm
  | cons c name =>
    rw [Ident.stripSigil]
    split
    · next hc =>
      rcases List.mem_cons.mp hm with rfl | hm
      · exact absurd hc (by decide)
      · exact hm
    · exact hm

/-- A definition starts its parts on its own line. -/
theorem newlines_defineHead {gap space arguments body : List Char} {name : Ident}
    (h : first? s = some (define gap space name arguments body)) :
    Text.newlines (defineHead gap space name) = 0 := by
  obtain ⟨hgap, hspace, -⟩ := isSpaced_of_first? h
  have hname := newlines_name (isWritable_of_first? h)
  have hhead : defineHead gap space name =
      ['#'] ++ gap ++ Keyword.define.text ++ space ++ name := rfl
  have hmark : Text.newlines ['#'] = 0 := rfl
  have hkeyword : Text.newlines Keyword.define.text = 0 := rfl
  simp only [hhead, Text.newlines_append, hmark, hkeyword, newlines_of_isGap hgap,
    newlines_of_isGap hspace, hname]

theorem newlines_directiveHead {gap body : List Char} (h : first? s = some (directive gap body)) :
    Text.newlines ('#' :: gap) = 0 := by
  have hgap := newlines_of_isGap (isSpaced_of_first? h)
  have happend := Text.newlines_append ['#'] gap
  rw [hgap] at happend
  exact happend

end

end ShaderPress.Form
