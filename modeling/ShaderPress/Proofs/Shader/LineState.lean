import ShaderPress.Proofs.Shader.Directive

/-! # Where a text leaves its line

A part of a directive is laid out as if it stood at the start of a line.  When nothing is
written for it, the directive is taken to have ended its line although it has not.  The
states below tell that case from a line that has been ended, and they determine what the
layout reports about a stream.
-/
namespace ShaderPress

/-- How a stretch of output leaves its line. -/
inductive LineState where
  /-- Nothing has been written since a start that was taken for the start of a line. -/
  | untouched
  | within
  /-- A line end has been written, and nothing behind it. -/
  | ended
deriving DecidableEq, Repr

namespace LineState

def atStart : LineState → Bool
  | within => false
  | untouched | ended => true

/-- The state behind a directive: its line is ended, unless it is taken to be ended already. -/
def close : LineState → LineState
  | within | ended => ended
  | untouched => untouched

@[simp] theorem atStart_close (state : LineState) : state.close.atStart = true := by
  cases state <;> rfl

end LineState

namespace Token

mutual

/-- How a token that is not whitespace leaves its line. -/
def lineState : Token → LineState
  | define _ _ _ arguments body => (partState (partState .within arguments) body).close
  | conditional .. => .ended
  | directive _ _ body => (partState .within body).close
  | definedTest .. | lexeme .. => .within

def partState (before : LineState) : Option (List Token) → LineState
  | none => before
  | some tokens => streamState .untouched tokens

/-- How a stream leaves the line; its last token that is not whitespace decides. -/
def streamState (before : LineState) : List Token → LineState
  | [] => before
  | t :: ts => streamState (if t.isWhitespace then before else t.lineState) ts

end

theorem lineState_of_not_isDirective {t : Token} (ht : t.isDirective = false) :
    t.lineState = .within := by
  cases t with
  | definedTest | lexeme => rfl
  | _ => cases ht

theorem atStart_lineState {t : Token} (ht : t.isDirective = true) : t.lineState.atStart = true := by
  cases t with
  | conditional => rfl
  | define | directive => exact LineState.atStart_close _
  | _ => cases ht

end Token

namespace Layout
open Token

theorem newline_advance (c : Cursor) {t : Token} (ht : t.isWhitespace = false) :
    (advance false c t).newline = t.lineState.atStart := by
  cases hd : t.isDirective with
  | true => simp [advance, ht, afterToken, hd, atStart_lineState]
  | false =>
    simp [advance, ht, afterToken, hd, newline_tokenPieces c hd, lineState_of_not_isDirective,
      LineState.atStart]

/-- What the layout reports of a stream is whether its state counts as the start of a line. -/
theorem newline_streamPieces (tokens : List Token) {c : Cursor} {state : LineState}
    (hc : c.newline = state.atStart) :
    (streamPieces false c tokens).2 = (streamState state tokens).atStart := by
  induction tokens generalizing c state with
  | nil => rw [streamPieces_nil, streamState, hc]
  | cons t ts ih =>
    rw [streamPieces_cons, streamState]
    refine ih ?_
    cases hw : t.isWhitespace with
    | true => simp [advance, hw, hc]
    | false => exact newline_advance c hw

theorem newline_nestedPieces (part : Option (List Token)) {newline : Bool} {state : LineState}
    (hn : newline = state.atStart) :
    (nestedPieces false newline part).2 = (partState state part).atStart := by
  cases part with
  | none => rw [nestedPieces_none, partState, hn]
  | some tokens =>
    rw [nestedPieces_some, partState]
    exact newline_streamPieces tokens rfl

theorem newline_behind (c : Cursor) (tokens : List Token) :
    (behind false c tokens).newline = (streamPieces false c tokens).2 := by
  have h : streamPieces false c (tokens ++ []) = _ := streamPieces_append c tokens []
  rw [List.append_nil, streamPieces_nil] at h
  rw [h]

theorem streamPieces_of_whitespace {tokens : List Token}
    (h : ∀ t ∈ tokens, t.isWhitespace = true) (c : Cursor) :
    (streamPieces false c tokens).1 = [] := by
  induction tokens generalizing c with
  | nil => rw [streamPieces_nil]
  | cons t ts ih =>
    rw [List.forall_mem_cons] at h
    rw [streamPieces_cons, Layout.written, if_pos h.1, ih h.2]
    rfl

theorem streamState_of_whitespace {tokens : List Token} {state : LineState}
    (h : ∀ t ∈ tokens, t.isWhitespace = true) : streamState state tokens = state := by
  induction tokens with
  | nil => rfl
  | cons t ts ih =>
    rw [List.forall_mem_cons] at h
    rw [streamState, if_pos h.1]
    exact ih h.2

theorem whitespace_of_streamState {tokens : List Token} {state : LineState}
    (ht : ∀ t ∈ tokens, t.isWhitespace = false → t.lineState ≠ .untouched)
    (h : streamState state tokens = .untouched) :
    state = .untouched ∧ ∀ t ∈ tokens, t.isWhitespace = true := by
  induction tokens generalizing state with
  | nil => exact ⟨h, by simp⟩
  | cons t ts ih =>
    rw [List.forall_mem_cons] at ht ⊢
    rw [streamState] at h
    obtain ⟨hstate, hts⟩ := ih ht.2 h
    cases hw : t.isWhitespace with
    | true =>
      rw [if_pos hw] at hstate
      exact ⟨hstate, rfl, hts⟩
    | false =>
      rw [if_neg (by simp [hw])] at hstate
      exact absurd hstate (ht.1 hw)

end Layout

end ShaderPress
