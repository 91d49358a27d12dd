import ShaderPress.Proofs.Shader.Directive
import ShaderPress.Proofs.Token.LogicalLine

/-! # The layout of a stripped stream

Stripping joins blanks, which leaves no trace outside human-readable output, so the parts
of a stripped stream are laid out one after the other.  The tokens of a line that is cut
off somewhere are laid out as the whole stream begins, but for the line end that a
directive is given which has lost what followed in it.
-/
namespace ShaderPress

namespace Token

def isDropped (dead : Ident → Bool) : Token → Bool
  | define _ _ name .. => dead name
  | _ => false

theorem strip_directive_cons {dead : Ident → Bool} {t : Token} (ht : t.isDirective = true)
    (hd : t.isDropped dead = false) (ts : List Token) :
    ∃ u, u.isDirective = true ∧ strip dead (t :: ts) = u :: strip dead ts := by
  cases t with
  | define text line name arguments body =>
    have hname : dead name = false := hd
    exact ⟨_, rfl, by simp only [strip, hname, Bool.false_eq_true, if_false]; rfl⟩
  | conditional text line test name =>
    exact ⟨_, rfl, by simp only [strip, blankedComment, attach]; rfl⟩
  | directive text line body => exact ⟨_, rfl, by simp only [strip]; rfl⟩
  | _ => cases ht

end Token

namespace Layout
open Token

/-- Two streams that are written alike and leave the same cursor, wherever they stand. -/
def SameLayout (xs ys : List Token) : Prop :=
  ∀ c, streamPieces false c xs = streamPieces false c ys ∧ behind false c xs = behind false c ys

theorem SameLayout.refl (xs : List Token) : SameLayout xs xs := fun _ => ⟨rfl, rfl⟩

theorem SameLayout.symm {xs ys : List Token} (h : SameLayout xs ys) : SameLayout ys xs :=
  fun c => ⟨(h c).1.symm, (h c).2.symm⟩

theorem SameLayout.trans {xs ys zs : List Token} (h : SameLayout xs ys) (h' : SameLayout ys zs) :
    SameLayout xs zs :=
  fun c => ⟨(h c).1.trans (h' c).1, (h c).2.trans (h' c).2⟩

theorem behind_append (c : Cursor) (xs ys : List Token) :
    behind false c (xs ++ ys) = behind false (behind false c xs) ys := List.foldl_append

theorem SameLayout.append_left {xs ys : List Token} (h : SameLayout xs ys) (zs : List Token) :
    SameLayout (zs ++ xs) (zs ++ ys) := by
  intro c
  obtain ⟨hp, hb⟩ := h (behind false c zs)
  rw [streamPieces_append, streamPieces_append, behind_append, behind_append, hp, hb]
  exact ⟨rfl, rfl⟩

theorem SameLayout.append_right {xs ys : List Token} (h : SameLayout xs ys) (zs : List Token) :
    SameLayout (xs ++ zs) (ys ++ zs) := by
  intro c
  obtain ⟨hp, hb⟩ := h c
  rw [streamPieces_append, streamPieces_append, behind_append, behind_append, hp, hb]
  exact ⟨rfl, rfl⟩

theorem sameLayout_attach (text : List Char) (line : Nat) (ts : List Token) :
    SameLayout (attach (.lexeme text line .whitespace) ts)
      ([.lexeme text line .whitespace] ++ ts) := by
  unfold attach
  split
  · intro c
    rw [List.singleton_append, streamPieces_cons, streamPieces_cons, streamPieces_cons]
    exact ⟨rfl, rfl⟩
  · exact SameLayout.refl _

theorem sameLayout_strip_cons (dead : Ident → Bool) (t : Token) (ts : List Token) :
    SameLayout (strip dead (t :: ts)) (strip dead [t] ++ strip dead ts) := by
  cases t with
  | define text line name arguments body =>
    simp only [strip]
    split
    · exact SameLayout.refl _
    · exact SameLayout.refl _
  | directive text line body =>
    simp only [strip]
    exact SameLayout.refl _
  | conditional text line test name =>
    simp only [strip, blankedComment, attach]
    exact SameLayout.refl _
  | definedTest text line name =>
    simp only [strip, blankedComment, attach]
    exact SameLayout.refl _
  | lexeme text line kind =>
    cases kind with
    | whitespace | lineComment | blockComment =>
      simp only [strip, blankedComment]
      exact sameLayout_attach _ _ _
    | _ =>
      simp only [strip, blankedComment, attach]
      exact SameLayout.refl _

theorem sameLayout_strip_append (dead : Ident → Bool) (xs ys : List Token) :
    SameLayout (strip dead (xs ++ ys)) (strip dead xs ++ strip dead ys) := by
  induction xs with
  | nil =>
    simp only [strip]
    exact SameLayout.refl _
  | cons t ts ih =>
    have hall := (sameLayout_strip_cons dead t (ts ++ ys)).trans (ih.append_left (strip dead [t]))
    have hfirst := (sameLayout_strip_cons dead t ts).symm.append_right (strip dead ys)
    rw [List.append_assoc] at hfirst
    exact hall.trans hfirst

/-- The pieces of `cut` begin `full`, but for a line end behind them where one is reported. -/
def BeginsAs (newline : Bool) (cut full : List Piece) : Prop :=
  ∃ front rest, full = front ++ rest ∧
    (cut = front ∨ cut = front ++ [.fixed ['\n']] ∧ newline = true)

section BeginsAs
variable {newline : Bool} {cut full : List Piece}

theorem BeginsAs.nil (newline : Bool) (full : List Piece) : BeginsAs newline [] full :=
  ⟨[], full, rfl, Or.inl rfl⟩

theorem BeginsAs.refl (newline : Bool) (pieces : List Piece) : BeginsAs newline pieces pieces :=
  ⟨pieces, [], (List.append_nil _).symm, Or.inl rfl⟩

theorem BeginsAs.append_left (h : BeginsAs newline cut full) (ps : List Piece) :
    BeginsAs newline (ps ++ cut) (ps ++ full) := by
  obtain ⟨front, rest, rfl, hc⟩ := h
  refine ⟨ps ++ front, rest, (List.append_assoc _ _ _).symm, ?_⟩
  rcases hc with rfl | ⟨rfl, hn⟩
  · exact Or.inl rfl
  · exact Or.inr ⟨(List.append_assoc _ _ _).symm, hn⟩

theorem BeginsAs.append_right (h : BeginsAs newline cut full) (ps : List Piece) :
    BeginsAs newline cut (full ++ ps) := by
  obtain ⟨front, rest, rfl, hc⟩ := h
  exact ⟨front, rest ++ ps, List.append_assoc _ _ _, hc⟩

theorem BeginsAs.lineEnd (h : BeginsAs newline cut full) :
    BeginsAs true (cut ++ lineEnd false newline) full := by
  obtain ⟨front, rest, rfl, hc⟩ := h
  refine ⟨front, rest, rfl, ?_⟩
  rcases hc with rfl | ⟨rfl, rfl⟩
  · cases newline with
    | true => exact Or.inl (List.append_nil _)
    | false => exact Or.inr ⟨rfl, rfl⟩
  · exact Or.inr ⟨List.append_nil _, rfl⟩

end BeginsAs

theorem startingWithin_zero (tokens : List Token) : startingWithin 0 tokens = [] := by
  cases tokens with
  | nil => rfl
  | cons t ts => exact if_pos rfl

theorem cutPart_zero (part : Option (List Token)) : cutPart 0 part = none := by
  cases part with
  | none => rfl
  | some tokens => rw [cutPart, if_pos rfl]

theorem beginsAs_nestedPieces (dead : Ident → Bool) {part : Option (List Token)}
    (h : ∀ s, part = some s → ∀ n c,
      BeginsAs (streamPieces false c (strip dead (startingWithin n s))).2
        (streamPieces false c (strip dead (startingWithin n s))).1
        (streamPieces false c (strip dead s)).1) (n : Nat) (newline : Bool) :
    BeginsAs (nestedPieces false newline (stripNested dead (cutPart n part))).2
      (nestedPieces false newline (stripNested dead (cutPart n part))).1
      (nestedPieces false newline (stripNested dead part)).1 := by
  cases part with
  | none => exact BeginsAs.refl _ _
  | some s =>
    rw [cutPart]
    split
    · simp only [stripNested, nestedPieces_none]
      exact BeginsAs.nil _ _
    · simp only [stripNested, nestedPieces_some]
      exact h s rfl n start

/-- The tokens at the start of a stream are laid out as the whole stream begins. -/
theorem beginsAs_startingWithin (dead : Ident → Bool) (tokens : List Token) (n : Nat) (c : Cursor) :
    BeginsAs (streamPieces false c (strip dead (startingWithin n tokens))).2
      (streamPieces false c (strip dead (startingWithin n tokens))).1
      (streamPieces false c (strip dead tokens)).1 := by
  have step : ∀ {t ts}, (∀ n c, BeginsAs (streamPieces false c (strip dead [cutOff n t])).2
        (streamPieces false c (strip dead [cutOff n t])).1
        (streamPieces false c (strip dead [t])).1) →
      (∀ n c, BeginsAs (streamPieces false c (strip dead (startingWithin n ts))).2
        (streamPieces false c (strip dead (startingWithin n ts))).1
        (streamPieces false c (strip dead ts)).1) →
      ∀ n c, BeginsAs (streamPieces false c (strip dead (startingWithin n (t :: ts)))).2
        (streamPieces false c (strip dead (startingWithin n (t :: ts)))).1
        (streamPieces false c (strip dead (t :: ts))).1 := by
    intro t ts ht hts n c
    rw [(sameLayout_strip_cons dead t ts c).1, streamPieces_append, startingWithin]
    by_cases hn : n = 0
    · rw [if_pos hn]
      simp only [strip, streamPieces_nil]
      exact BeginsAs.nil _ _
    · rw [if_neg hn]
      by_cases hl : t.text.length ≤ n
      · rw [if_pos hl, (sameLayout_strip_cons dead t _ c).1, streamPieces_append]
        exact (hts _ _).append_left _
      · have hz : n - t.text.length = 0 := by omega
        rw [if_neg hl, hz, startingWithin_zero]
        exact (ht n c).append_right _
  induction tokens using stream_induction generalizing n c with
  | nil => exact BeginsAs.refl _ _
  | define text line name arguments body rest ha hb hr =>
    refine step ?_ hr n c
    intro n c
    simp only [cutOff, strip]
    split
    · exact BeginsAs.refl _ _
    · rw [streamPieces_directive c rfl, streamPieces_directive c rfl]
      refine BeginsAs.append_left ?_ _
      rw [tokenPieces_define, tokenPieces_define]
      refine BeginsAs.append_left ?_ _
      generalize n - (text.length - coveredBy arguments - coveredBy body) = inner
      by_cases hin : inner - coveredBy arguments = 0
      · -- the cut comes before the body, so the directive ends with the arguments
        rw [hin, cutPart_zero]
        have hargs := (beginsAs_nestedPieces dead ha inner false).lineEnd
        simp only [stripNested, nestedPieces_none, bodySeparator, Option.isNone_none, Bool.true_or,
          if_true, List.nil_append]
        exact hargs.append_right _
      · -- the cut comes in the body, so the arguments are whole
        have hlt : coveredBy arguments < inner := by omega
        rw [cutPart_of_lt hlt]
        refine BeginsAs.append_left ?_ _
        have hbody := (beginsAs_nestedPieces dead hb (inner - coveredBy arguments)
          (nestedPieces false false (stripNested dead arguments)).2).lineEnd
        have hsep :
            bodySeparator false (stripNested dead (cutPart (inner - coveredBy arguments) body)) =
            bodySeparator false (stripNested dead body) := by
          cases body with
          | none => rfl
          | some s =>
            rw [cutPart, if_neg hin]
            simp only [stripNested]
            rfl
        rw [hsep]
        exact (hbody.append_right _).append_left _
  | conditional text line test name rest hr => exact step (fun _ _ => BeginsAs.refl _ _) hr n c
  | definedTest text line name rest hr => exact step (fun _ _ => BeginsAs.refl _ _) hr n c
  | directive text line body rest hb hr =>
    refine step ?_ hr n c
    intro n c
    simp only [cutOff, strip]
    rw [streamPieces_directive c rfl, streamPieces_directive c rfl]
    refine BeginsAs.append_left ?_ _
    rw [tokenPieces_directive, tokenPieces_directive]
    refine BeginsAs.append_left ?_ _
    exact (beginsAs_nestedPieces dead hb _ false).lineEnd.append_right _
  | lexeme text line kind rest hr => exact step (fun _ _ => BeginsAs.refl _ _) hr n c

end Layout

end ShaderPress
