import ShaderPress.Proofs.Rename.Allocation
import ShaderPress.Proofs.Shader.LineState
import ShaderPress.Proofs.Shader.Spelling
import ShaderPress.Proofs.Token.Writable

/-! # The end of a text

Whatever names are chosen, they are spelled on one line.  So the state of a token or a
stream tells whether its text ends with a line end.
-/
namespace ShaderPress

/-- What a state says about a text: it ends with a line end exactly if a line has been ended. -/
def LineState.Ends (state : LineState) (text : List Char) : Prop :=
  text.getLast? = some '\n' ↔ state = .ended

namespace LineState
variable {state : LineState} {text more : List Char}

theorem Ends.append (text : List Char) (hne : more ≠ []) (h : Ends state more) :
    Ends state (text ++ more) := by
  obtain ⟨c, hc⟩ := Option.isSome_iff_exists.mp (List.getLast?_isSome.mpr hne)
  rw [Ends, List.getLast?_append, hc, Option.some_or, ← hc]
  exact h

theorem ends_of_ne (ht : text.getLast? ≠ some '\n') (hs : state ≠ .ended) : Ends state text :=
  ⟨fun h => absurd h ht, fun h => absurd h hs⟩

theorem getLast?_ne_of_oneLine (h : OneLine text) : text.getLast? ≠ some '\n' :=
  fun hl => h.newline (List.mem_of_getLast? hl)

theorem Ends.of_oneLine (h : OneLine text) : Ends .within text :=
  ends_of_ne (getLast?_ne_of_oneLine h) (by decide)

end LineState

namespace EmitContext
open Token Layout LineState
variable {cx : EmitContext} {preserve : Bool}

def SpellsOnOneLine (cx : EmitContext) (preserve : Bool) : Prop :=
  ∀ x name, OneLine (Ident.stripSigil x) → cx.spelling preserve x = .ok name → OneLine name

/-- The texts of a token that is not whitespace are not empty and end as its state says. -/
def EndsAsToken (cx : EmitContext) (preserve : Bool) (t : Token) : Prop :=
  ∀ c text, cx.spell preserve (tokenPieces false c t).1 = .ok text →
    text ≠ [] ∧ Ends t.lineState text

theorem spellsOnOneLine {c : Catalog} {t : RenameTable}
    (h : RenameTable.allocate c false = .ok t) (options : MinifyOptions) :
    SpellsOnOneLine ⟨t, c, options⟩ preserve := by
  intro x name hx hs
  unfold spelling at hs
  split at hs
  · cases hs
    exact hx
  · unfold outputName at hs
    split at hs
    · next output hn =>
      cases hs
      rcases RenameTable.get?_cases h hn with rfl | hg
      · unfold Ident.literal
        split
        · exact hx.append_left (by decide)
        · exact hx
      · refine ⟨List.length_pos_iff.mp hg.nonempty, ?_⟩
        intro hnl
        exact absurd (hg.letters _ hnl) (by decide)
    · cases hs

theorem spell_define {c : Cursor} {source : List Char} {line : Nat} {name : Ident}
    {arguments body : Option (List Token)} {text : List Char}
    (h : cx.spell preserve (tokenPieces false c (.define source line name arguments body)).1 =
      .ok text) :
    ∃ spelled list inner close, cx.spelling preserve name = .ok spelled ∧
      cx.spell preserve (nestedPieces false false arguments).1 = .ok list ∧
      cx.spell preserve (nestedPieces false (nestedPieces false false arguments).2 body).1 =
        .ok inner ∧
      cx.spell preserve (lineEnd false
        (nestedPieces false (nestedPieces false false arguments).2 body).2) = .ok close ∧
      text = ['#', 'd', 'e', 'f', 'i', 'n', 'e', ' '] ++ spelled ++ list ++
        (if body = none then [] else [' ']) ++ inner ++ close := by
  rw [tokenPieces_define, List.cons_append, List.singleton_append] at h
  obtain ⟨_, h₁, rfl⟩ := spell_fixed_eq_ok.mp h
  obtain ⟨spelled, _, hs, h₂, rfl⟩ := spell_cons_eq_ok.mp h₁
  obtain ⟨list, _, hl, h₃, rfl⟩ := spell_append_eq_ok.mp h₂
  obtain ⟨space, _, hsp, h₄, rfl⟩ := spell_append_eq_ok.mp h₃
  obtain ⟨inner, close, hi, hc, rfl⟩ := spell_append_eq_ok.mp h₄
  refine ⟨spelled, list, inner, close, hs, hl, hi, hc, ?_⟩
  have he : space = if body = none then [] else [' '] := by
    cases body <;> cases hsp <;> rfl
  rw [he]
  simp only [List.append_assoc]

theorem spell_directive {c : Cursor} {source : List Char} {line : Nat}
    {body : Option (List Token)} {text : List Char}
    (h : cx.spell preserve (tokenPieces false c (.directive source line body)).1 = .ok text) :
    ∃ inner close, cx.spell preserve (nestedPieces false false body).1 = .ok inner ∧
      cx.spell preserve (lineEnd false (nestedPieces false false body).2) = .ok close ∧
      text = '#' :: inner ++ close := by
  rw [tokenPieces_directive, List.singleton_append] at h
  obtain ⟨_, h₁, rfl⟩ := spell_fixed_eq_ok.mp h
  obtain ⟨inner, close, hi, hc, rfl⟩ := spell_append_eq_ok.mp h₁
  exact ⟨inner, close, hi, hc, rfl⟩

theorem spell_conditional {c : Cursor} {source : List Char} {line : Nat} {test : Conditional}
    {name : Ident} {text : List Char}
    (h : cx.spell preserve (tokenPieces false c (.conditional source line test name)).1 =
      .ok text) :
    ∃ spelled, cx.spelling preserve name = .ok spelled ∧
      text = '#' :: (test.keyword ++ [' ']) ++ spelled ++ ['\n'] := by
  rw [tokenPieces] at h
  obtain ⟨_, h₁, rfl⟩ := spell_fixed_eq_ok.mp h
  obtain ⟨spelled, close, hs, hc, rfl⟩ := spell_cons_eq_ok.mp h₁
  cases hc
  exact ⟨spelled, hs, (List.append_assoc _ _ _).symm⟩

theorem ends_streamPieces_of {tokens : List Token}
    (h : ∀ t ∈ tokens, t.isWhitespace = false → cx.EndsAsToken preserve t) {c : Cursor}
    {state : LineState} {before text : List Char} (hb : Ends state before)
    (ht : cx.spell preserve (streamPieces false c tokens).1 = .ok text) :
    Ends (streamState state tokens) (before ++ text) := by
  induction tokens generalizing c state before text with
  | nil =>
    rw [streamPieces_nil] at ht
    cases ht
    rwa [List.append_nil, streamState]
  | cons t ts ih =>
    rw [List.forall_mem_cons] at h
    rw [streamPieces_cons] at ht
    obtain ⟨own, rest, ho, hr, rfl⟩ := spell_append_eq_ok.mp ht
    rw [streamState, ← List.append_assoc]
    refine ih h.2 ?_ hr
    cases hw : t.isWhitespace with
    | true =>
      rw [Layout.written, if_pos hw] at ho
      cases ho
      rwa [List.append_nil, if_pos rfl]
    | false =>
      rw [Layout.written, if_neg (by simp [hw])] at ho
      obtain ⟨space, text, -, htext, rfl⟩ := spell_append_eq_ok.mp ho
      obtain ⟨hne, he⟩ := h.1 hw c text htext
      rw [← List.append_assoc, if_neg Bool.false_ne_true]
      exact he.append _ hne

theorem ends_nestedPieces_of {part : Option (List Token)}
    (h : ∀ s, part = some s → ∀ t ∈ s, t.isWhitespace = false → cx.EndsAsToken preserve t)
    {newline : Bool} {state : LineState} {before text : List Char}
    (hnone : part = none → Ends state before)
    (hsome : part ≠ none → before.getLast? ≠ some '\n')
    (ht : cx.spell preserve (nestedPieces false newline part).1 = .ok text) :
    Ends (partState state part) (before ++ text) := by
  cases part with
  | none =>
    rw [nestedPieces_none] at ht
    cases ht
    rw [List.append_nil, partState]
    exact hnone rfl
  | some s =>
    rw [nestedPieces_some] at ht
    rw [partState]
    exact ends_streamPieces_of (h s rfl) (ends_of_ne (hsome (by simp)) (by decide)) ht

theorem ends_lineEnd {state : LineState} {newline : Bool} (hn : newline = state.atStart)
    {before text : List Char} (hb : Ends state before)
    (ht : cx.spell preserve (lineEnd false newline) = .ok text) :
    Ends state.close (before ++ text) := by
  subst hn
  cases state with
  | within =>
    cases ht
    exact iff_of_true List.getLast?_concat rfl
  | untouched | ended =>
    cases ht
    rwa [List.append_nil]

theorem oneLine_of_not_isDirective (hcx : cx.SpellsOnOneLine preserve) {t : Token}
    (hw : t.IsWritable) (ht : t.isWhitespace = false) (hd : t.isDirective = false) {c : Cursor}
    {text : List Char} (h : cx.spell preserve (tokenPieces false c t).1 = .ok text) :
    OneLine text := by
  cases t with
  | definedTest source line name =>
    rw [tokenPieces] at h
    obtain ⟨_, h₁, rfl⟩ := spell_fixed_eq_ok.mp h
    obtain ⟨spelled, _, hs, h₂, rfl⟩ := spell_cons_eq_ok.mp h₁
    cases h₂
    exact ((hcx name spelled hw hs).append_right (by decide)).append_left (by decide)
  | lexeme source line kind =>
    by_cases hk : kind = .identifier
    · subst hk
      rw [tokenPieces] at h
      obtain ⟨spelled, _, hs, h₁, rfl⟩ := spell_cons_eq_ok.mp h
      cases h₁
      rw [List.append_nil]
      unfold identifier at hs
      split at hs
      · split at hs
        · next hx =>
          cases hs
          exact Ident.oneLine_of_canonicalSwizzle? hx
        · exact hcx source spelled hw hs
      · exact hcx source spelled hw hs
    · have hs : OneLine source := by
        cases kind with
        | identifier => exact absurd rfl hk
        | whitespace => cases ht
        | lineComment | blockComment => exact hw.elim
        | _ => exact hw
      rw [tokenPieces_lexeme hk] at h
      cases h
      rwa [List.append_nil]
  | _ => cases hd

theorem ends_definition_of {arguments body : Option (List Token)}
    (ha : ∀ s, arguments = some s → ∀ t ∈ s, t.isWhitespace = false → cx.EndsAsToken preserve t)
    (hb : ∀ s, body = some s → ∀ t ∈ s, t.isWhitespace = false → cx.EndsAsToken preserve t)
    {head list inner : List Char} {newline newline' : Bool} (hone : OneLine head)
    (hl : cx.spell preserve (nestedPieces false newline arguments).1 = .ok list)
    (hi : cx.spell preserve (nestedPieces false newline' body).1 = .ok inner) :
    Ends (partState .within arguments) (head ++ list) ∧
      Ends (partState (partState .within arguments) body)
        (head ++ list ++ (if body = none then [] else [' ']) ++ inner) := by
  have hal := ends_nestedPieces_of ha (fun _ => Ends.of_oneLine hone)
    (fun _ => getLast?_ne_of_oneLine hone) hl
  refine ⟨hal, ends_nestedPieces_of hb ?_ ?_ hi⟩
  · intro hnone
    rwa [if_pos hnone, List.append_nil]
  · intro hsome
    rw [if_neg hsome, List.getLast?_concat]
    decide

theorem ends_directive_of {body : Option (List Token)}
    (hb : ∀ s, body = some s → ∀ t ∈ s, t.isWhitespace = false → cx.EndsAsToken preserve t)
    {inner : List Char} {newline : Bool}
    (hi : cx.spell preserve (nestedPieces false newline body).1 = .ok inner) :
    Ends (partState .within body) (['#'] ++ inner) := by
  have hmark : OneLine ['#'] := ⟨by decide, by decide⟩
  exact ends_nestedPieces_of hb (fun _ => Ends.of_oneLine hmark)
    (fun _ => getLast?_ne_of_oneLine hmark) hi

/-- The text of a token ends as its state says. -/
theorem endsAsToken (hcx : cx.SpellsOnOneLine preserve) {t : Token}
    (hw : Throughout IsWritable t) (ht : t.isWhitespace = false) : cx.EndsAsToken preserve t := by
  induction hw with
  | define text line name arguments body hname _ _ ha hb =>
    intro c out ho
    obtain ⟨spelled, list, inner, close, hs, hl, hi, hc, rfl⟩ := spell_define ho
    refine ⟨by simp, ?_⟩
    have hone : OneLine (['#', 'd', 'e', 'f', 'i', 'n', 'e', ' '] ++ spelled) :=
      (hcx name spelled hname hs).append_left (by decide)
    have hn : (nestedPieces false false arguments).2 = (partState .within arguments).atStart :=
      newline_nestedPieces arguments rfl
    have hfront := (ends_definition_of ha hb hone hl hi).2
    exact ends_lineEnd (newline_nestedPieces body hn) hfront hc
  | conditional text line test name =>
    intro c out ho
    obtain ⟨spelled, hs, rfl⟩ := spell_conditional ho
    exact ⟨by simp, iff_of_true List.getLast?_concat rfl⟩
  | definedTest text line name hown =>
    intro c out ho
    have hone := oneLine_of_not_isDirective hcx hown ht rfl ho
    exact ⟨hone.nonempty, Ends.of_oneLine hone⟩
  | directive text line body _ _ hb =>
    intro c out ho
    obtain ⟨inner, close, hi, hc, rfl⟩ := spell_directive ho
    refine ⟨by simp, ?_⟩
    exact ends_lineEnd (newline_nestedPieces body rfl) (ends_directive_of hb hi) hc
  | lexeme text line kind hown =>
    intro c out ho
    have hone := oneLine_of_not_isDirective hcx hown ht rfl ho
    exact ⟨hone.nonempty, Ends.of_oneLine hone⟩

theorem endsAsToken_of_mem (hcx : cx.SpellsOnOneLine preserve) {tokens : List Token}
    (hw : ∀ u ∈ deep tokens, u.IsWritable) :
    ∀ t ∈ tokens, t.isWhitespace = false → cx.EndsAsToken preserve t :=
  fun t ht => endsAsToken hcx (throughout_of_deep hw t ht)

theorem ends_layout {tokens : List Token}
    (h : ∀ t ∈ tokens, t.isWhitespace = false → cx.EndsAsToken preserve t) {text : List Char}
    (ht : cx.spell preserve (layout false tokens).1 = .ok text) :
    Ends (streamState .untouched tokens) text := by
  have hstart : Ends .untouched [] := ends_of_ne (by decide) (by decide)
  have hends : Ends (streamState .untouched tokens) ([] ++ text) := ends_streamPieces_of h hstart ht
  exact hends

end EmitContext

end ShaderPress
