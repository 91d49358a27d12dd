import ShaderPress.Proofs.Shader.LineEnd
import ShaderPress.Proofs.Shader.StrippedLayout

/-! # Tokens on a single line

A stream is written on a single line if nothing is written behind a line end and no
directive in it is put on a line of its own.  Whether that is so can be told from the
tokens: by what the directives among them leave behind and by what stands before them.
-/
namespace ShaderPress

namespace Token

mutual

/-- A token that is written without a line end but for one behind it. -/
def isUnbroken : Token → Bool
  | define _ _ _ arguments body =>
    isUnbrokenPart arguments && isUnbrokenPart body &&
      (body.isNone || partState .within arguments != .ended)
  | directive _ _ body => isUnbrokenPart body
  | conditional .. | definedTest .. | lexeme .. => true

def isUnbrokenPart : Option (List Token) → Bool
  | none => true
  | some tokens => isUnbrokenFrom .untouched tokens

/-- A stream behind which no line end is written but one at its very end. -/
def isUnbrokenFrom (before : LineState) : List Token → Bool
  | [] => true
  | t :: ts =>
    if t.isWhitespace then isUnbrokenFrom before ts
    else
      (before == .untouched || before == .within && !t.isDirective) && t.isUnbroken &&
        isUnbrokenFrom t.lineState ts

end

end Token

def withoutLineEnd (text : List Char) : List Char :=
  if text.getLast? = some '\n' then text.dropLast else text

def Unbroken (text : List Char) : Prop := '\n' ∉ text.dropLast

section Unbroken
variable {text more : List Char}

theorem unbroken_append (hne : more ≠ []) : Unbroken (text ++ more) ↔ '\n' ∉ text ∧ Unbroken more := by
  rw [Unbroken, List.dropLast_append_of_ne_nil hne, List.mem_append, not_or]
  rfl

theorem newline_not_mem_iff : '\n' ∉ text ↔ Unbroken text ∧ text.getLast? ≠ some '\n' := by
  rcases List.eq_nil_or_concat text with rfl | ⟨front, c, rfl⟩
  · simp [Unbroken]
  · simp [Unbroken, eq_comm]

theorem OneLine.unbroken (h : OneLine text) : Unbroken text := (newline_not_mem_iff.mp h.newline).1

theorem newline_not_mem_withoutLineEnd : '\n' ∉ withoutLineEnd text ↔ Unbroken text := by
  unfold withoutLineEnd
  split
  · rfl
  · next hl =>
    rw [newline_not_mem_iff]
    exact and_iff_left hl

theorem withoutLineEnd_concat (text : List Char) : withoutLineEnd (text ++ ['\n']) = text := by
  rw [withoutLineEnd, if_pos List.getLast?_concat, List.dropLast_concat]

theorem withoutLineEnd_isPrefix (text : List Char) : withoutLineEnd text <+: text := by
  unfold withoutLineEnd
  split
  · exact List.dropLast_prefix text
  · exact List.prefix_refl text

end Unbroken

namespace EmitContext
open Token Layout LineState
variable {cx : EmitContext} {preserve : Bool}

def BreaksAsToken (cx : EmitContext) (preserve : Bool) (t : Token) : Prop :=
  ∀ c text, cx.spell preserve (tokenPieces false c t).1 = .ok text →
    (Unbroken text ↔ t.isUnbroken = true)

theorem newline_mem_separator {c : Cursor} {t : Token} {space : List Char}
    (h : cx.spell preserve (separator c t) = .ok space) :
    '\n' ∈ space ↔ t.isDirective = true ∧ c.newline = false := by
  cases hd : t.isDirective with
  | true =>
    rw [separator_directive c hd, lineStart] at h
    cases hn : c.newline with
    | true =>
      rw [hn] at h
      cases h
      simp
    | false =>
      rw [hn] at h
      cases h
      simp
  | false =>
    refine iff_of_false ?_ (fun hf => Bool.false_ne_true hf.1)
    unfold separator at h
    rw [if_neg (by simp [hd])] at h
    split at h
    · cases h
      decide
    · split at h
      · cases h
        decide
      · cases h
        exact List.not_mem_nil

theorem unbroken_streamPieces_of {tokens : List Token}
    (he : ∀ t ∈ tokens, t.isWhitespace = false → cx.EndsAsToken preserve t)
    (h : ∀ t ∈ tokens, t.isWhitespace = false → cx.BreaksAsToken preserve t) {c : Cursor}
    {state : LineState} (hc : c.newline = state.atStart) {before text : List Char}
    (hb : Ends state before) (ht : cx.spell preserve (streamPieces false c tokens).1 = .ok text) :
    Unbroken (before ++ text) ↔ Unbroken before ∧ isUnbrokenFrom state tokens = true := by
  induction tokens generalizing c state before text with
  | nil =>
    rw [streamPieces_nil] at ht
    cases ht
    simp [isUnbrokenFrom]
  | cons t ts ih =>
    rw [List.forall_mem_cons] at he h
    rw [streamPieces_cons] at ht
    obtain ⟨own, rest, ho, hr, rfl⟩ := spell_append_eq_ok.mp ht
    rw [isUnbrokenFrom, ← List.append_assoc]
    cases hw : t.isWhitespace with
    | true =>
      rw [Layout.written, if_pos hw] at ho
      cases ho
      rw [List.append_nil, if_pos rfl]
      refine ih he.2 h.2 ?_ hb hr
      simp [advance, hw, hc]
    | false =>
      rw [Layout.written, if_neg (by simp [hw])] at ho
      obtain ⟨space, mine, hs, hm, rfl⟩ := spell_append_eq_ok.mp ho
      obtain ⟨hne, hends⟩ := he.1 hw c mine hm
      have hbreak := h.1 hw c mine hm
      rw [← List.append_assoc, if_neg Bool.false_ne_true]
      rw [ih he.2 h.2 (newline_advance c hw) (hends.append _ hne) hr, unbroken_append hne,
        List.mem_append, not_or, newline_not_mem_iff, hbreak]
      have hstate : before.getLast? ≠ some '\n' ↔ state ≠ .ended := not_congr hb
      rw [hstate, newline_mem_separator hs, hc]
      cases state <;> cases t.isDirective <;> simp [LineState.atStart, and_assoc]

theorem unbroken_nestedPieces_of {part : Option (List Token)}
    (he : ∀ s, part = some s → ∀ t ∈ s, t.isWhitespace = false → cx.EndsAsToken preserve t)
    (h : ∀ s, part = some s → ∀ t ∈ s, t.isWhitespace = false → cx.BreaksAsToken preserve t)
    {newline : Bool} {before text : List Char}
    (hsome : part ≠ none → before.getLast? ≠ some '\n')
    (ht : cx.spell preserve (nestedPieces false newline part).1 = .ok text) :
    Unbroken (before ++ text) ↔ Unbroken before ∧ isUnbrokenPart part = true := by
  cases part with
  | none =>
    rw [nestedPieces_none] at ht
    cases ht
    simp [isUnbrokenPart]
  | some s =>
    rw [nestedPieces_some] at ht
    rw [isUnbrokenPart]
    exact unbroken_streamPieces_of (he s rfl) (h s rfl) rfl
      (ends_of_ne (hsome (by simp)) (by decide)) ht

theorem unbroken_lineEnd {state : LineState} {newline : Bool} (hn : newline = state.atStart)
    {before text : List Char} (hb : Ends state before)
    (ht : cx.spell preserve (lineEnd false newline) = .ok text) :
    Unbroken (before ++ text) ↔ Unbroken before := by
  subst hn
  cases state with
  | within =>
    cases ht
    have hne : before.getLast? ≠ some '\n' := by
      intro hl
      cases hb.mp hl
    rw [unbroken_append (by simp), newline_not_mem_iff]
    simp [Unbroken, hne]
  | untouched | ended =>
    cases ht
    rw [List.append_nil]

theorem breaksAsToken (hcx : cx.SpellsOnOneLine preserve) {t : Token}
    (hw : Throughout IsWritable t) (ht : t.isWhitespace = false) :
    cx.BreaksAsToken preserve t := by
  have hends : ∀ {o : Option (List Token)}, (∀ s, o = some s → ∀ t ∈ s, Throughout IsWritable t) →
      ∀ s, o = some s → ∀ t ∈ s, t.isWhitespace = false → cx.EndsAsToken preserve t :=
    fun hall s hs t ht => endsAsToken hcx (hall s hs t ht)
  induction hw with
  | define text line name arguments body hname hargs hbody ha hb =>
    intro c out ho
    obtain ⟨spelled, list, inner, close, hs, hl, hi, hc, rfl⟩ := spell_define ho
    have hone : OneLine (['#', 'd', 'e', 'f', 'i', 'n', 'e', ' '] ++ spelled) :=
      (hcx name spelled hname hs).append_left (by decide)
    have hn : (nestedPieces false false arguments).2 = (partState .within arguments).atStart :=
      newline_nestedPieces arguments rfl
    obtain ⟨hal, hfront⟩ := ends_definition_of (hends hargs) (hends hbody) hone hl hi
    have hlist := unbroken_nestedPieces_of (hends hargs) ha
      (fun _ => getLast?_ne_of_oneLine hone) hl
    rw [unbroken_lineEnd (newline_nestedPieces body hn) hfront hc, isUnbroken]
    have hhead := hone.unbroken
    clear ho hfront
    generalize ['#', 'd', 'e', 'f', 'i', 'n', 'e', ' '] ++ spelled = head at hal hlist hhead ⊢
    cases body with
    | none =>
      rw [nestedPieces_none] at hi
      cases hi
      rw [if_pos rfl, List.append_nil, List.append_nil, hlist]
      simp [hhead, isUnbrokenPart]
    | some s =>
      -- the blank before the body stands behind whatever ends the arguments
      have hblank : (head ++ list ++ [' ']).getLast? ≠ some '\n' := by
        rw [List.getLast?_concat]
        decide
      have hinner := unbroken_nestedPieces_of (hends hbody) hb (fun _ => hblank) hi
      have hstate : (head ++ list).getLast? ≠ some '\n' ↔ partState .within arguments ≠ .ended :=
        not_congr hal
      rw [if_neg (by simp), hinner, unbroken_append (by simp), newline_not_mem_iff, hlist, hstate]
      have hspace : Unbroken [' '] := by simp [Unbroken]
      simp [hhead, hspace, and_right_comm]
  | conditional text line test name hown =>
    intro c out ho
    obtain ⟨spelled, hs, rfl⟩ := spell_conditional ho
    have hkey : '\n' ∉ '#' :: (test.keyword ++ [' ']) := by
      cases test <;> decide
    have hone : OneLine ('#' :: (test.keyword ++ [' ']) ++ spelled) :=
      (hcx name spelled hown hs).append_left hkey
    refine iff_of_true ?_ rfl
    rw [unbroken_append (by simp)]
    exact ⟨hone.newline, by simp [Unbroken]⟩
  | definedTest text line name hown =>
    intro c out ho
    have hone := oneLine_of_not_isDirective hcx hown ht rfl ho
    exact iff_of_true hone.unbroken rfl
  | directive text line body _ hbody hb =>
    intro c out ho
    obtain ⟨inner, close, hi, hc, rfl⟩ := spell_directive ho
    have hmark : OneLine ['#'] := ⟨by decide, by decide⟩
    have hfront := ends_directive_of (hends hbody) hi
    have hinner := unbroken_nestedPieces_of (hends hbody) hb
      (fun _ => getLast?_ne_of_oneLine hmark) hi
    have hclose := unbroken_lineEnd (newline_nestedPieces body rfl) hfront hc
    rw [List.singleton_append] at hclose hinner
    rw [hclose, hinner, isUnbroken]
    exact and_iff_right hmark.unbroken
  | lexeme text line kind hown =>
    intro c out ho
    have hone := oneLine_of_not_isDirective hcx hown ht rfl ho
    exact iff_of_true hone.unbroken rfl

theorem unbroken_layout (hcx : cx.SpellsOnOneLine preserve) {tokens : List Token}
    (hw : ∀ u ∈ deep tokens, u.IsWritable) {text : List Char}
    (ht : cx.spell preserve (layout false tokens).1 = .ok text) :
    Unbroken text ↔ isUnbrokenFrom .untouched tokens = true := by
  have hbreaks : ∀ t ∈ tokens, t.isWhitespace = false → cx.BreaksAsToken preserve t :=
    fun t ht => breaksAsToken hcx (throughout_of_deep hw t ht)
  have hstart : Ends .untouched [] := ends_of_ne (by decide) (by decide)
  have hiff : Unbroken ([] ++ text) ↔ Unbroken [] ∧ isUnbrokenFrom .untouched tokens = true :=
    unbroken_streamPieces_of (endsAsToken_of_mem hcx hw) hbreaks rfl hstart ht
  exact hiff.trans (and_iff_right List.not_mem_nil)

/-- What is kept of a line comes out behind what is kept before it, on a single line. -/
def OnSingleLine (cx : EmitContext) (preserve : Bool) (dead : Ident → Bool)
    (pre line : List Token) (text : List Char) : Prop :=
  ∃ front space own after, cx.spell preserve (layout false (strip dead pre)).1 = .ok front ∧
    (space = [] ∨ space = ['\n']) ∧
    cx.spell preserve (layout false (strip dead line)).1 = .ok own ∧
    text = front ++ space ++ withoutLineEnd own ++ after ∧ '\n' ∉ withoutLineEnd own

/-- A stream that begins with the tokens of a line also begins with their text, but for a line end
behind them. -/
theorem spell_beginsAs {newline : Bool} {cut full : List Piece} (h : BeginsAs newline cut full)
    {text : List Char} (ht : cx.spell preserve full = .ok text) :
    ∃ own after, cx.spell preserve cut = .ok own ∧ text = withoutLineEnd own ++ after := by
  obtain ⟨front, rest, rfl, hcut⟩ := h
  obtain ⟨line, after, hl, -, rfl⟩ := spell_append_eq_ok.mp ht
  rcases hcut with rfl | ⟨rfl, -⟩
  · obtain ⟨after', ha⟩ := withoutLineEnd_isPrefix line
    refine ⟨line, after' ++ after, hl, ?_⟩
    rw [← List.append_assoc, ha]
  · refine ⟨line ++ ['\n'], after, ?_, by rw [withoutLineEnd_concat]⟩
    exact spell_append_eq_ok.mpr ⟨line, ['\n'], hl, rfl, rfl⟩

/-- What starts within `n` characters from a directive on comes out on a single line exactly if
the tokens kept of it are unbroken. -/
theorem onSingleLine_iff_of_spell (hcx : cx.SpellsOnOneLine preserve) {dead : Ident → Bool}
    {pre post : List Token} {u : Token} (hu : u.isDirective = true)
    (hd : u.isDropped dead = false) {text : List Char}
    (ht : cx.spell preserve (layout false (strip dead (pre ++ u :: post))).1 = .ok text) (n : Nat)
    (hw : ∀ v ∈ deep (strip dead (startingWithin n (u :: post))), v.IsWritable) :
    cx.OnSingleLine preserve dead pre (startingWithin n (u :: post)) text ↔
      isUnbrokenFrom .untouched (strip dead (startingWithin n (u :: post))) = true := by
  obtain ⟨v, hv, hs⟩ := strip_directive_cons hu hd post
  rw [layout, (sameLayout_strip_append dead pre (u :: post) start).1, streamPieces_append, hs,
    streamPieces_directive_cons _ hv, ← hs] at ht
  obtain ⟨front, rest, hf, hr, rfl⟩ := spell_append_eq_ok.mp ht
  obtain ⟨space, all, hsp, hall, rfl⟩ := spell_append_eq_ok.mp hr
  have hspace : space = [] ∨ space = ['\n'] := by
    unfold lineStart at hsp
    split at hsp
    · cases hsp
      exact Or.inl rfl
    · cases hsp
      exact Or.inr rfl
  obtain ⟨own, after, hown, rfl⟩ :=
    spell_beginsAs (beginsAs_startingWithin dead (u :: post) n start) hall
  have hunbroken := unbroken_layout hcx hw hown
  rw [← newline_not_mem_withoutLineEnd] at hunbroken
  rw [← hunbroken]
  constructor
  · rintro ⟨-, -, own', -, -, -, hown', -, hn⟩
    cases hown.symm.trans hown'
    exact hn
  · intro hn
    refine ⟨front, space, own, after, hf, hspace, hown, ?_, hn⟩
    simp only [List.append_assoc]

end EmitContext

end ShaderPress
