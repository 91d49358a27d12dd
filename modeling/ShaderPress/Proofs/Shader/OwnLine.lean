import ShaderPress.Proofs.Shader.LineEnd

/-! # Directives on lines of their own

A directive always starts a line, and it ends the line unless it is taken to have ended
it already.  So every directive of a shader stands on a line of its own, and the layout
reports the start of a line correctly, exactly if no directive ends in a part for which
nothing is written.
-/
namespace ShaderPress

def AtLineStart (text : List Char) : Prop := text = [] ∨ text.getLast? = some '\n'

namespace EmitContext
open Token Layout LineState
variable {cx : EmitContext} {preserve : Bool}

/-- Each directive of a stream starts at the start of a line and is followed by a line end
before anything else is, and what is reported of the text is whether a line starts behind it. -/
structure OnOwnLines (cx : EmitContext) (preserve : Bool) (tokens : List Token)
    (text : List Char) (newline : Bool) : Prop where
  directive : ∀ pre u post, tokens = pre ++ u :: post → u.isDirective = true →
    ∃ before own after, text = before ++ own ++ after ∧
      cx.spell preserve ((streamPieces false start pre).1 ++
        separator (behind false start pre) u) = .ok before ∧
      cx.spell preserve (tokenPieces false (behind false start pre) u).1 = .ok own ∧
      cx.spell preserve (streamPieces false (advance false (behind false start pre) u) post).1 =
        .ok after ∧
      AtLineStart before ∧ own.getLast? = some '\n'
  newline : newline = true ↔ AtLineStart text

theorem whitespace_of_spell_nil {tokens : List Token}
    (h : ∀ t ∈ tokens, t.isWhitespace = false → cx.EndsAsToken preserve t) {c : Cursor}
    (ht : cx.spell preserve (streamPieces false c tokens).1 = .ok []) :
    ∀ t ∈ tokens, t.isWhitespace = true := by
  induction tokens generalizing c with
  | nil => simp
  | cons t ts ih =>
    rw [List.forall_mem_cons] at h ⊢
    rw [streamPieces_cons] at ht
    obtain ⟨own, rest, ho, hr, he⟩ := spell_append_eq_ok.mp ht
    obtain ⟨rfl, rfl⟩ := List.append_eq_nil_iff.mp he.symm
    refine ⟨?_, ih h.2 hr⟩
    cases hw : t.isWhitespace with
    | true => rfl
    | false =>
      rw [Layout.written, if_neg (by simp [hw])] at ho
      obtain ⟨space, text, -, htext, he⟩ := spell_append_eq_ok.mp ho
      have hnil := (List.append_eq_nil_iff.mp he.symm).2
      exact absurd hnil (h.1 hw c text htext).1

/-- Where all directives end their lines, a line starts behind a text exactly if the layout
takes it to. -/
theorem atStart_iff {tokens : List Token}
    (h : ∀ t ∈ tokens, t.isWhitespace = false → cx.EndsAsToken preserve t)
    (hd : ∀ t ∈ tokens, t.isDirective = true → t.lineState = .ended) {text : List Char}
    (ht : cx.spell preserve (layout false tokens).1 = .ok text) :
    (streamState .untouched tokens).atStart = true ↔ AtLineStart text := by
  have hne : ∀ t ∈ tokens, t.isWhitespace = false → t.lineState ≠ .untouched := by
    intro t htok _
    cases hdir : t.isDirective with
    | true =>
      rw [hd t htok hdir]
      decide
    | false =>
      rw [lineState_of_not_isDirective hdir]
      decide
  have hends := ends_layout h ht
  cases hs : streamState .untouched tokens with
  | untouched =>
    have hw := (whitespace_of_streamState hne hs).2
    rw [layout, streamPieces_of_whitespace hw] at ht
    cases ht
    exact iff_of_true rfl (Or.inl rfl)
  | within =>
    refine iff_of_false (by decide) ?_
    rintro (rfl | hl)
    · have hw := whitespace_of_spell_nil h ht
      rw [streamState_of_whitespace hw] at hs
      cases hs
    · have := hends.mp hl
      rw [hs] at this
      cases this
  | ended => exact iff_of_true rfl (Or.inr (hends.mpr hs))

theorem spell_around {pre post : List Token} {u : Token} (hu : u.isDirective = true)
    {text : List Char}
    (ht : cx.spell preserve (layout false (pre ++ u :: post)).1 = .ok text) :
    ∃ before own after, text = before ++ own ++ after ∧
      cx.spell preserve ((streamPieces false start pre).1 ++
        separator (behind false start pre) u) = .ok before ∧
      cx.spell preserve (tokenPieces false (behind false start pre) u).1 = .ok own ∧
      cx.spell preserve (streamPieces false (advance false (behind false start pre) u) post).1 =
        .ok after := by
  have hw : u.isWhitespace = false := isWhitespace_of_isDirective hu
  rw [layout, streamPieces_append, streamPieces_cons, Layout.written, if_neg (by simp [hw])] at ht
  obtain ⟨front, rest, hf, hr, rfl⟩ := spell_append_eq_ok.mp ht
  obtain ⟨mine, after, hm, ha, rfl⟩ := spell_append_eq_ok.mp hr
  obtain ⟨space, own, hs, ho, rfl⟩ := spell_append_eq_ok.mp hm
  refine ⟨front ++ space, own, after, ?_, spell_append_eq_ok.mpr ⟨front, space, hf, hs, rfl⟩, ho, ha⟩
  simp only [List.append_assoc]

/-- Directives stand on lines of their own exactly if each of them ends its line. -/
theorem onOwnLines_iff_of_spell (hcx : cx.SpellsOnOneLine preserve) {tokens : List Token}
    (hw : ∀ u ∈ deep tokens, u.IsWritable) {text : List Char}
    (ht : cx.spell preserve (layout false tokens).1 = .ok text) :
    cx.OnOwnLines preserve tokens text (layout false tokens).2 ↔
      ∀ u ∈ tokens, u.isDirective = true → u.lineState = .ended := by
  have hends := endsAsToken_of_mem hcx hw
  constructor
  · intro h u hu hd
    obtain ⟨pre, post, he⟩ := List.append_of_mem hu
    obtain ⟨before, own, after, -, -, ho, -, -, hl⟩ := h.directive pre u post he hd
    have hwu : u.isWhitespace = false := isWhitespace_of_isDirective hd
    exact (hends u hu hwu _ own ho).2.mp hl
  · intro h
    constructor
    · intro pre u post he hd
      subst he
      obtain ⟨before, own, after, rfl, hb, ho, ha⟩ := spell_around hd ht
      refine ⟨before, own, after, rfl, hb, ho, ha, ?_, ?_⟩
      · obtain ⟨front, space, hf, hs, rfl⟩ := spell_append_eq_ok.mp hb
        rw [separator_directive _ hd] at hs
        cases hn : (behind false start pre).newline with
        | false =>
          rw [lineStart, hn] at hs
          cases hs
          exact Or.inr List.getLast?_concat
        | true =>
          rw [lineStart, hn] at hs
          cases hs
          have hstate : (streamState .untouched pre).atStart = true := by
            rw [← hn, newline_behind]
            exact (newline_streamPieces pre rfl).symm
          rw [List.append_nil]
          refine (atStart_iff ?_ ?_ hf).mp hstate
          · exact fun t htok => hends t (List.mem_append_left _ htok)
          · exact fun t htok => h t (List.mem_append_left _ htok)
      · have hwu : u.isWhitespace = false := isWhitespace_of_isDirective hd
        have hu : u ∈ pre ++ u :: post := by simp
        exact (hends u hu hwu _ own ho).2.mpr (h u hu hd)
    · have hflag : (layout false tokens).2 = (streamState .untouched tokens).atStart :=
        newline_streamPieces tokens rfl
      rw [hflag]
      exact atStart_iff hends h ht

end EmitContext

end ShaderPress
