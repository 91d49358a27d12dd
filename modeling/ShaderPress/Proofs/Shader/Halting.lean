import Mathlib
import ShaderPress.Proofs.Shader.LineState
import ShaderPress.Proofs.Shader.Spelling
import ShaderPress.Proofs.Token.Boundaries

/-! # Argument lists that end a line

The assertion on argument lists fails in a layout exactly if some token, at any depth, has
a list behind which the layout takes a line to start.  In minified layout that is a list
whose last token is a directive.  In human-readable layout a line starts only behind a line
end of the source, and an argument list ends with its parenthesis.
-/
namespace ShaderPress

namespace Token

/-- The last token of a stream that is not whitespace. -/
def lastWritten? (tokens : List Token) : Option Token :=
  (tokens.filter fun t => !t.isWhitespace).getLast?

/-- The argument list of a macro ends in a directive, which has taken the closing parenthesis. -/
def listEndsInDirective : Token → Bool
  | define _ _ _ (some arguments) _ => (lastWritten? arguments).any isDirective
  | _ => false

theorem lastWritten?_cons_of_isWhitespace {t : Token} (ht : t.isWhitespace = true)
    (ts : List Token) : lastWritten? (t :: ts) = lastWritten? ts := by
  rw [lastWritten?, List.filter_cons_of_neg (by simp [ht]), lastWritten?]

theorem lastWritten?_cons {t : Token} (ht : t.isWhitespace = false) (ts : List Token) :
    lastWritten? (t :: ts) = some ((lastWritten? ts).getD t) := by
  rw [lastWritten?, List.filter_cons_of_pos (by simp [ht]), List.getLast?_cons, lastWritten?]

/-- Whether a stream is left at the start of a line is decided by the last token that is written. -/
theorem atStart_streamState (before : LineState) (tokens : List Token) :
    (streamState before tokens).atStart =
      (lastWritten? tokens).elim before.atStart isDirective := by
  induction tokens generalizing before with
  | nil => rfl
  | cons t ts ih =>
    rw [streamState, ih]
    cases hw : t.isWhitespace with
    | true => rw [lastWritten?_cons_of_isWhitespace hw, if_pos rfl]
    | false =>
      rw [lastWritten?_cons hw, if_neg Bool.false_ne_true]
      have hown : t.lineState.atStart = t.isDirective := by
        cases hd : t.isDirective with
        | true => exact atStart_lineState hd
        | false => rw [lineState_of_not_isDirective hd, LineState.atStart]
      cases lastWritten? ts with
      | none => exact hown
      | some u => rfl

end Token

namespace Layout
open Token
variable {humanReadable : Bool}

/-- The layout takes a line to start behind the argument list of a macro. -/
def listEndsLine (humanReadable : Bool) : Token → Bool
  | .define _ _ _ arguments _ => (nestedPieces humanReadable false arguments).2
  | _ => false

theorem streamStop?_cons (c : Cursor) (t : Token) (ts : List Token) :
    streamStop? humanReadable c (t :: ts) =
      ((tokenStop? humanReadable t).map (separator c t ++ ·)).or
        ((streamStop? humanReadable (advance humanReadable c t) ts).map
          (Layout.written humanReadable c t ++ ·)) := by
  rw [streamStop?, Layout.written, advance]
  cases hw : t.isWhitespace with
  | false =>
    simp only [Bool.false_eq_true, if_false, Option.map_or, Option.map_map, Function.comp_def,
      List.append_assoc]
  | true =>
    have ht : tokenStop? humanReadable t = none := by
      cases t with
      | lexeme => rw [tokenStop?]
      | _ => cases hw
    rw [ht]
    cases humanReadable with
    | false => exact Option.map_id'.symm
    | true => rfl

theorem isPrefix_of_streamStop?_of {tokens : List Token}
    (h : ∀ t ∈ tokens, ∀ pieces, tokenStop? humanReadable t = some pieces →
      ∀ c, pieces <+: (tokenPieces humanReadable c t).1) {c : Cursor} {pieces : List Piece}
    (hs : streamStop? humanReadable c tokens = some pieces) :
    pieces <+: (streamPieces humanReadable c tokens).1 := by
  induction tokens generalizing c pieces with
  | nil =>
    rw [streamStop?] at hs
    cases hs
  | cons t ts ih =>
    rw [List.forall_mem_cons] at h
    rw [streamStop?_cons, Option.or_eq_some_iff] at hs
    rw [streamPieces_cons]
    rcases hs with hs | ⟨-, hs⟩
    · obtain ⟨own, ho, rfl⟩ := Option.map_eq_some_iff.mp hs
      have hw : t.isWhitespace = false := by
        cases t with
        | lexeme =>
          rw [tokenStop?] at ho
          cases ho
        | _ => rfl
      rw [Layout.written, if_neg (by simp [hw]), List.append_assoc]
      exact (List.prefix_append_right_inj _).mpr ((h.1 own ho c).trans (List.prefix_append _ _))
    · obtain ⟨rest, hr, rfl⟩ := Option.map_eq_some_iff.mp hs
      exact (List.prefix_append_right_inj _).mpr (ih h.2 hr)

theorem isPrefix_of_tokenStop? {t : Token} {pieces : List Piece}
    (h : tokenStop? humanReadable t = some pieces) (c : Cursor) :
    pieces <+: (tokenPieces humanReadable c t).1 := by
  have nested : ∀ {part : Option (List Token)} {newline},
      (∀ s, part = some s → ∀ t ∈ s, ∀ pieces, tokenStop? humanReadable t = some pieces →
        ∀ c, pieces <+: (tokenPieces humanReadable c t).1) →
      ∀ pieces, nestedStop? humanReadable part = some pieces →
        pieces <+: (nestedPieces humanReadable newline part).1 := by
    intro part newline ih pieces hp
    cases part with
    | none =>
      rw [nestedStop?] at hp
      cases hp
    | some s =>
      rw [nestedStop?] at hp
      rw [nestedPieces_some]
      exact isPrefix_of_streamStop?_of (ih s rfl) hp
  induction t using parts_induction generalizing c pieces with
  | define text line name arguments body ha hb =>
    rw [tokenStop?] at h
    obtain ⟨inside, hi, rfl⟩ := Option.map_eq_some_iff.mp h
    rw [tokenPieces]
    simp only [List.prefix_cons_inj, List.append_assoc]
    rcases Option.or_eq_some_iff.mp hi with hi | ⟨-, hi⟩
    · exact (nested ha inside hi).trans (List.prefix_append _ _)
    · obtain ⟨behind, hbehind, rfl⟩ := Option.map_eq_some_iff.mp hi
      refine (List.prefix_append_right_inj _).mpr ?_
      split at hbehind
      · cases hbehind
        exact List.nil_prefix
      · obtain ⟨own, ho, rfl⟩ := Option.map_eq_some_iff.mp hbehind
        exact (List.prefix_append_right_inj _).mpr
          ((nested hb own ho).trans (List.prefix_append _ _))
  | directive text line body hb =>
    rw [tokenStop?] at h
    obtain ⟨inside, hi, rfl⟩ := Option.map_eq_some_iff.mp h
    rw [tokenPieces]
    exact (List.prefix_cons_inj _).mpr ((nested hb inside hi).trans (List.prefix_append _ _))
  | _ =>
    rw [tokenStop?] at h
    cases h

/-- Where the assertion fails, the beginning of the layout has been written. -/
theorem isPrefix_of_layoutStop? {tokens : List Token} {pieces : List Piece}
    (h : layoutStop? humanReadable tokens = some pieces) :
    pieces <+: (layout humanReadable tokens).1 :=
  isPrefix_of_streamStop?_of (fun _ _ _ ht => isPrefix_of_tokenStop? ht) h

/-- The assertion fails exactly at an argument list behind which a line is taken to start. -/
theorem streamStop?_eq_none_iff (tokens : List Token) (c : Cursor) :
    streamStop? humanReadable c tokens = none ↔
      ∀ u ∈ deep tokens, listEndsLine humanReadable u = false := by
  have nested : ∀ {part : Option (List Token)},
      (∀ s, part = some s → ∀ c, streamStop? humanReadable c s = none ↔
        ∀ u ∈ deep s, listEndsLine humanReadable u = false) →
      (nestedStop? humanReadable part = none ↔
        ∀ u ∈ deepNested part, listEndsLine humanReadable u = false) := by
    intro part ih
    cases part with
    | none =>
      rw [nestedStop?]
      exact iff_of_true rfl (List.forall_mem_nil _)
    | some s =>
      rw [nestedStop?]
      exact ih s rfl start
  have step : ∀ {t : Token} {rest : List Token},
      (tokenStop? humanReadable t = none ↔
        ∀ u ∈ t.withParts, listEndsLine humanReadable u = false) →
      (∀ c, streamStop? humanReadable c rest = none ↔
        ∀ u ∈ deep rest, listEndsLine humanReadable u = false) →
      ∀ c, streamStop? humanReadable c (t :: rest) = none ↔
        ∀ u ∈ deep (t :: rest), listEndsLine humanReadable u = false := by
    intro t rest ht hr c
    rw [streamStop?_cons, Option.or_eq_none_iff, Option.map_eq_none_iff, Option.map_eq_none_iff,
      ht, hr, deep, List.forall_mem_append]
  induction tokens using stream_induction generalizing c with
  | nil =>
    rw [streamStop?]
    exact iff_of_true rfl (List.forall_mem_nil _)
  | define text line name arguments body rest ha hb hr =>
    refine step ?_ hr c
    rw [tokenStop?, Option.map_eq_none_iff, Option.or_eq_none_iff, Option.map_eq_none_iff,
      nested ha, withParts, List.forall_mem_cons, List.forall_mem_append, listEndsLine]
    cases (nestedPieces humanReadable false arguments).2 with
    | true => simp
    | false =>
      rw [if_neg Bool.false_ne_true, Option.map_eq_none_iff, nested hb]
      exact (and_iff_right rfl).symm
  | directive text line body rest hb hr =>
    refine step ?_ hr c
    rw [tokenStop?, Option.map_eq_none_iff, nested hb, withParts, List.forall_mem_cons]
    exact (and_iff_right rfl).symm
  | conditional text line test name rest hr | definedTest text line name rest hr
  | lexeme text line kind rest hr =>
    refine step ?_ hr c
    rw [tokenStop?, withParts, List.forall_mem_singleton]
    exact iff_of_true rfl rfl

theorem layoutStop?_eq_none_iff {tokens : List Token} :
    layoutStop? humanReadable tokens = none ↔
      ∀ u ∈ deep tokens, listEndsLine humanReadable u = false :=
  streamStop?_eq_none_iff tokens start

/-- In minified layout a line is taken to start behind a list that ends in a directive. -/
theorem listEndsLine_false {u : Token} (hu : u.EndsWords) :
    listEndsLine false u = u.listEndsInDirective := by
  cases u with
  | define text line name arguments body =>
    have hn : (nestedPieces false false arguments).2 = (partState .within arguments).atStart :=
      newline_nestedPieces arguments rfl
    rw [listEndsLine, hn]
    cases arguments with
    | none => rfl
    | some s =>
      obtain ⟨_, rest, rfl⟩ := hu s rfl
      rw [partState, atStart_streamState, listEndsInDirective, lastWritten?_cons rfl]
      rfl
  | _ => rfl

section HumanReadable
variable {policy : UnknownPolicy} {line : Nat} {s : List Char} {tokens : List Token}

/-- Where human-readable layout takes a line to start behind a stream, its source ends with a
line end. -/
def StartsBehind (s : List Char) (tokens : List Token) : Prop :=
  ∀ c, (streamPieces true c tokens).2 = true →
    tokens = [] ∧ s = [] ∧ c.newline = true ∨ s.getLast? = some '\n'

theorem startsBehind_nil : StartsBehind [] [] := by
  intro c hc
  rw [streamPieces_nil] at hc
  exact Or.inl ⟨rfl, rfl, hc⟩

theorem StartsBehind.cons {t : Token} {text : List Char} (hp : text <+: s)
    (hown : ∀ c, (advance true c t).newline = true → text.getLast? = some '\n')
    (h : StartsBehind (s.drop text.length) tokens) : StartsBehind s (t :: tokens) := by
  intro c hc
  have hs : text ++ s.drop text.length = s := List.prefix_iff_eq_append.mp hp
  rw [streamPieces_cons] at hc
  rw [← hs, List.getLast?_append]
  rcases h _ hc with ⟨-, hnil, hn⟩ | hl
  · rw [hnil]
    exact Or.inr (hown c hn)
  · rw [hl]
    exact Or.inr rfl

theorem getLast?_of_nestedPieces {p : List Token → Prop} {o : Option (List Token)}
    {tr : List Occurrence} (h : PartHolds (fun _ s ts _ => StartsBehind s ts ∧ p ts) line s o tr)
    {newline : Bool} (hn : (nestedPieces true newline o).2 = true) :
    s = [] ∧ newline = true ∨ s.getLast? = some '\n' := by
  rcases h with ⟨rfl, rfl, -⟩ | ⟨hne, ts, rfl, hts, -⟩
  · rw [nestedPieces_none] at hn
    exact Or.inl ⟨rfl, hn⟩
  · rw [nestedPieces_some] at hn
    rcases hts start hn with ⟨-, he, -⟩ | hl
    · exact absurd he hne
    · exact Or.inr hl

theorem forall_deepNested_of_partHolds {q : Token → Prop} {o : Option (List Token)}
    {tr : List Occurrence}
    (h : PartHolds (fun _ s ts _ => StartsBehind s ts ∧ ∀ u ∈ deep ts, q u) line s o tr) :
    ∀ u ∈ deepNested o, q u := by
  rcases h with ⟨-, rfl, -⟩ | ⟨-, ts, rfl, -, hts⟩
  · exact List.forall_mem_nil _
  · exact hts

/-- In human-readable layout no argument list of a lexed source ends a line. -/
theorem listEndsLine_true (h : (lexFrom policy line s).outcome = .ok tokens) :
    ∀ u ∈ deep tokens, listEndsLine true u = false := by
  have covers : ∀ {s f}, Form.first? s = some f → (∀ keyword, f ≠ .malformed keyword) →
      f.text <+: s := by
    intro s f hf hm
    rcases Form.covers_of_first? hf with ⟨keyword, rfl⟩ | ⟨hp, -⟩
    · exact absurd rfl (hm keyword)
    · exact hp
  have plain : ∀ {t : Token} {text : List Char}, t.isWhitespace = false →
      (∀ c, (tokenPieces true c t).2 = false) →
      ∀ c, (advance true c t).newline = true → text.getLast? = some '\n' := by
    intro t text hw ht c hc
    simp [advance, hw, afterToken, ht] at hc
  refine (lexFrom_induction (motive := fun _ s ts _ =>
    StartsBehind s ts ∧ ∀ u ∈ deep ts, listEndsLine true u = false) ?_ ?_ ?_ ?_ ?_ ?_ ?_
    s line tokens h).2
  · exact fun _ => ⟨startsBehind_nil, List.forall_mem_nil _⟩
  · intro line s gap space name arguments body a b ts ta tb tr hf ha hb text hr
    have harguments : (nestedPieces true false a).2 = false := by
      refine Bool.eq_false_iff.mpr fun hn => ?_
      rcases getLast?_of_nestedPieces ha hn with ⟨-, hfalse⟩ | hl
      · cases hfalse
      · rcases Form.endsWords_of_first? hf with rfl | ⟨t, rfl⟩
        · cases hl
        · rw [← List.cons_append, List.getLast?_concat] at hl
          cases hl
    refine ⟨hr.1.cons (covers hf (by simp)) fun c hc => ?_, ?_⟩
    · have hbody : (nestedPieces true false b).2 = true := by
        simpa [advance, isWhitespace, afterToken, tokenPieces, harguments] using hc
      rcases getLast?_of_nestedPieces hb hbody with ⟨-, hfalse⟩ | hl
      · cases hfalse
      · rw [Form.text, ← List.cons_append, List.getLast?_append, hl, Option.some_or]
    · rw [deep, withParts, List.forall_mem_append, List.forall_mem_cons, List.forall_mem_append]
      exact ⟨⟨harguments, forall_deepNested_of_partHolds ha,
        forall_deepNested_of_partHolds hb⟩, hr.2⟩
  · intro line s gap test space name ts tr hf text hr
    refine ⟨hr.1.cons (covers hf (by simp)) (plain rfl fun c => by rw [tokenPieces]), ?_⟩
    exact List.forall_mem_cons.mpr ⟨rfl, hr.2⟩
  · intro line s name ts tr hf text hr
    refine ⟨hr.1.cons (covers hf (by simp)) (plain rfl fun c => newline_tokenPieces c rfl), ?_⟩
    exact List.forall_mem_cons.mpr ⟨rfl, hr.2⟩
  · intro line s gap body b ts tb tr hf hb text hr
    refine ⟨hr.1.cons (covers hf (by simp)) fun c hc => ?_, ?_⟩
    · have hbody : (nestedPieces true false b).2 = true := by
        simpa [advance, isWhitespace, afterToken, tokenPieces] using hc
      rcases getLast?_of_nestedPieces hb hbody with ⟨-, hfalse⟩ | hl
      · cases hfalse
      · rw [Form.text, ← List.cons_append, List.getLast?_append, hl, Option.some_or]
    · rw [deep, withParts, List.forall_mem_append, List.forall_mem_cons]
      exact ⟨⟨rfl, forall_deepNested_of_partHolds hb⟩, hr.2⟩
  · intro line s text kind ts tr hf hr
    refine ⟨hr.1.cons (covers hf (by simp)) fun c hc => ?_, List.forall_mem_cons.mpr ⟨rfl, hr.2⟩⟩
    cases hw : (Token.lexeme text line kind).isWhitespace with
    | true =>
      rw [advance, if_pos hw, if_pos rfl] at hc
      exact beq_iff_eq.mp hc
    | false => exact plain hw (fun c => newline_tokenPieces c rfl) c hc
  · intro line s c ts tr _ hf hr
    refine ⟨hr.1.cons (covers hf (by simp)) (plain rfl fun c => newline_tokenPieces c rfl), ?_⟩
    exact List.forall_mem_cons.mpr ⟨rfl, hr.2⟩

end HumanReadable

end Layout

namespace Shader
variable {s : Shader} {cx : EmitContext}

theorem checkLists_of_none {build : Build}
    (h : build = .debug → layoutStop? cx.options.humanReadable s.tokens = none) (preserve : Bool) :
    s.checkLists build cx preserve = .ok () := by
  cases build with
  | release => rfl
  | debug =>
    unfold checkLists
    rw [h rfl]
    rfl

/-- A debug build stops where the assertion fails, since the names before it are there. -/
theorem checkLists_of_some {pieces : List Piece}
    (h : layoutStop? cx.options.humanReadable s.tokens = some pieces)
    (hs : ∀ x ∈ Layout.names (layout cx.options.humanReadable s.tokens).1,
      (cx.names.get? x).isSome = true) (preserve : Bool) :
    s.checkLists .debug cx preserve = .error .listEndsLine := by
  have hnamed : ∀ x ∈ Layout.names pieces, (cx.names.get? x).isSome = true := fun x hx =>
    hs x (((Layout.isPrefix_of_layoutStop? h).sublist.filterMap _).subset hx)
  obtain ⟨text, ht⟩ := EmitContext.spell_isOk preserve hnamed
  unfold checkLists
  rw [h]
  simp only [ht]
  rfl

end Shader

namespace Artifacts
variable {s : Shader} {cx : EmitContext}

/-- Where no assertion fails, a build of either kind renders a shader. -/
theorem renderIn_of_none {build : Build}
    (h : build = .debug → layoutStop? cx.options.humanReadable s.tokens = none) :
    renderIn build cx s = (render cx s).mapError .naming := by
  rw [renderIn, render, Shader.checkLists_of_none h, Shader.checkLists_of_none h]
  cases s.exportsHeader cx with
  | error => rfl
  | ok =>
    cases s.embeddedSource cx with
    | error => rfl
    | ok => cases s.offlineSource cx <;> rfl

theorem renderIn_of_some {pieces : List Piece}
    (h : layoutStop? cx.options.humanReadable s.tokens = some pieces)
    (hs : ∀ x ∈ Layout.names (layout cx.options.humanReadable s.tokens).1,
      (cx.names.get? x).isSome = true)
    (he : ∀ x ∈ cx.catalog.exports, (cx.names.get? x).isSome = true) :
    renderIn .debug cx s = .error .listEndsLine := by
  obtain ⟨lines, hl⟩ := EmitContext.exportLines_isOk he
  rw [renderIn, Shader.checkLists_of_some h hs, Shader.exportsHeader, hl]
  rfl

end Artifacts

end ShaderPress
