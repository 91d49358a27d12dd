import ShaderPress.Proofs.Shader.Alignment
import ShaderPress.Proofs.Shader.LineEnd

/-! # The name of a directive

A directive that has no form of its own is written as its mark and its body, so its name is
the first identifier of the body and is spelled as any other identifier is.  What is written
before it holds no identifier, and what is written behind it ends the word.
-/
namespace ShaderPress

/-- The first identifier behind the mark of a directive that has no form of its own. -/
def Token.directiveName? : Token → Option Ident
  | directive _ _ body => (deepNested body).findSome? ownName?
  | _ => none

/-- Blanks and then an identifier. -/
def Token.startsWithName : List Token → Bool
  | lexeme _ _ .whitespace :: ts => startsWithName ts
  | lexeme _ _ .identifier :: _ => true
  | _ => false

/-- The name of a directive follows its mark, but for blanks. -/
def Token.isNamedAtOnce : Token → Bool
  | directive _ _ (some body) => startsWithName body
  | _ => false

namespace Layout
open Token
variable {c : Cursor} {tokens : List Token} {u : Token}

/-- No blank is written before the identifier that comes first. -/
theorem streamPieces_of_startsWithName (h : startsWithName tokens = true)
    (hc : c.operator = none ∧ c.needsSpacing = false) :
    ∃ x ps, (streamPieces false c tokens).1 = .name x :: ps := by
  fun_induction startsWithName tokens generalizing c with
  | case1 text line ts ih =>
    obtain ⟨x, ps, he⟩ := ih h (c := { c with separated := true }) hc
    exact ⟨x, ps, by rw [EmitContext.streamPieces_whitespace_cons rfl, he]⟩
  | case2 x line ts =>
    have hseparator : separator c (.lexeme x line .identifier) = [] := by
      simp [separator, hc, mergesWith, isDirective]
    have hname : identifier c x = .name x := by simp [identifier, hc]
    rw [streamPieces_cons, Layout.written, if_neg (by simp [isWhitespace]), hseparator, tokenPieces,
      hname]
    exact ⟨x, _, rfl⟩
  | case3 => cases h

theorem tokenPieces_infix_of_mem
    (h : ∀ t ∈ tokens, u ∈ t.withParts → ∀ c,
      (tokenPieces false start u).1 <:+: written false c t)
    (hu : u ∈ deep tokens) :
    (tokenPieces false start u).1 <:+: (streamPieces false c tokens).1 := by
  induction tokens generalizing c with
  | nil => cases hu
  | cons t ts ih =>
    rw [List.forall_mem_cons] at h
    rw [streamPieces_cons]
    rcases List.mem_append.mp hu with hu | hu
    · exact (h.1 hu c).trans (List.infix_append' [] _ _)
    · exact (ih h.2 hu).trans (List.suffix_append _ _).isInfix

/-- A directive at any depth is written in the same way wherever its stream is. -/
theorem tokenPieces_infix_written (hu : u.isDirective = true) (t : Token) (ht : u ∈ t.withParts)
    (c : Cursor) : (tokenPieces false start u).1 <:+: Layout.written false c t := by
  have self : ∀ c, (tokenPieces false start u).1 <:+: Layout.written false c u := by
    intro c
    rw [written_directive c hu, tokenPieces_eq_of_isDirective start c hu]
    exact (List.suffix_append _ _).isInfix
  have behind : ∀ {front pieces : List Piece}, (tokenPieces false start u).1 <:+: pieces →
      (tokenPieces false start u).1 <:+: front ++ pieces :=
    fun h => h.trans (List.suffix_append _ _).isInfix
  have within : ∀ {front pieces back : List Piece}, (tokenPieces false start u).1 <:+: pieces →
      (tokenPieces false start u).1 <:+: front ++ (pieces ++ back) :=
    fun h => h.trans (List.infix_append' _ _ _)
  have nested : ∀ {part : Option (List Token)} {newline : Bool},
      (∀ s, part = some s → ∀ t ∈ s, u ∈ t.withParts → ∀ c,
        (tokenPieces false start u).1 <:+: Layout.written false c t) →
      u ∈ deepNested part →
      (tokenPieces false start u).1 <:+: (nestedPieces false newline part).1 := by
    intro part newline hp hmem
    cases part with
    | none => cases hmem
    | some s =>
      rw [nestedPieces_some]
      exact tokenPieces_infix_of_mem (hp s rfl) hmem
  induction t using parts_induction generalizing c with
  | define text line name arguments body ha hb =>
    rw [withParts, List.mem_cons, List.mem_append] at ht
    rcases ht with rfl | ht | ht
    · exact self c
    all_goals rw [written_directive c rfl, tokenPieces_define]
    · exact behind (within (nested ha ht))
    · exact behind (behind (behind (within (nested hb ht))))
  | directive text line body hb =>
    rw [withParts, List.mem_cons] at ht
    rcases ht with rfl | ht
    · exact self c
    · rw [written_directive c rfl, tokenPieces_directive]
      exact behind (within (nested hb ht))
  | conditional text line test name | definedTest text line name | lexeme text line kind =>
    obtain rfl := List.mem_singleton.mp ht
    exact self c

theorem tokenPieces_infix_streamPieces (hu : u.isDirective = true) (h : u ∈ deep tokens) :
    (tokenPieces false start u).1 <:+: (streamPieces false c tokens).1 :=
  tokenPieces_infix_of_mem (fun t _ => tokenPieces_infix_written hu t) h

end Layout

namespace EmitContext
open Layout Token Pattern
variable {cx : EmitContext} {preserve : Bool} {x : Ident}

/-- The first identifier of some pieces is `x`, and what is written behind it, with `r` in the end,
ends the word. -/
def Opens (cx : EmitContext) (preserve : Bool) (x : Ident) (pieces : List Piece)
    (r : List Char) : Prop :=
  ∃ front back rest, pieces = front ++ .name x :: back ∧ Layout.names front = [] ∧
    cx.spell preserve back = .ok rest ∧ EndsWord (rest ++ r)

theorem Opens.behind {ps qs : List Piece} {r : List Char} (h : cx.Opens preserve x qs r)
    (hp : Layout.names ps = []) : cx.Opens preserve x (ps ++ qs) r := by
  obtain ⟨front, back, rest, rfl, hfront, hrest, hend⟩ := h
  refine ⟨ps ++ front, back, rest, (List.append_assoc _ _ _).symm, ?_, hrest, hend⟩
  rw [names_append, hp, hfront, List.append_nil]

theorem Opens.before {ps qs : List Piece} {text r : List Char}
    (h : cx.Opens preserve x ps (text ++ r)) (hq : cx.spell preserve qs = .ok text) :
    cx.Opens preserve x (ps ++ qs) r := by
  obtain ⟨front, back, rest, rfl, hfront, hrest, hend⟩ := h
  refine ⟨front, back ++ qs, rest ++ text, by simp, hfront, ?_, ?_⟩
  · exact spell_append_eq_ok.mpr ⟨rest, text, hrest, hq, rfl⟩
  · rwa [List.append_assoc]

/-- If `x` is the first identifier of a token, it is the first that is written for it. -/
def OpensAsToken (cx : EmitContext) (preserve : Bool) (x : Ident) (t : Token) : Prop :=
  ∀ (c : Cursor) own r, cx.spell preserve (tokenPieces false c t).1 = .ok own →
    t.withParts.findSome? ownName? = some x → (t.needsSpacing = true → EndsWord r) →
    cx.Opens preserve x (tokenPieces false c t).1 r

theorem endsWord_of_spell {t : Token} {ts : List Token} {c : Cursor} {rest r : List Char}
    (ht : t.needsSpacing = true) (hbounded : ∀ u ∈ ts, u.Bounded)
    (hrest : cx.spell preserve (streamPieces false (advance false c t) ts).1 = .ok rest)
    (hr : (streamPieces false (advance false c t) ts).2 = false → EndsWord r) :
    EndsWord (rest ++ r) := by
  have hplain : t.isWhitespace = false ∧ t.isDirective = false := by
    cases t with
    | lexeme text line kind => cases kind <;> first | exact ⟨rfl, rfl⟩ | cases ht
    | _ => first | exact ⟨rfl, rfl⟩ | cases ht
  have hadvance : advance false c t = ⟨t.operator?, true, false, false⟩ := by
    simp [advance, hplain, afterToken, ht, newline_tokenPieces c hplain.2]
  rw [hadvance] at hrest hr
  have htext := textFrom_of_spell hrest
  have hend :
      EndsWord ((textFrom (cx.respell preserve) ⟨t.operator?, true, false, false⟩ ts).1 ++ r) :=
    endsWord_textFrom rfl rfl hbounded fun hf => hr ((congrArg Prod.snd htext).symm.trans hf)
  rwa [htext] at hend

theorem opens_streamPieces_of_mem {tokens : List Token} {c : Cursor} {text r : List Char}
    (ht : ∀ t ∈ tokens, cx.OpensAsToken preserve x t) (hbounded : ∀ t ∈ tokens, t.Bounded)
    (hx : (deep tokens).findSome? ownName? = some x)
    (h : cx.spell preserve (streamPieces false c tokens).1 = .ok text)
    (hr : (streamPieces false c tokens).2 = false → EndsWord r) :
    cx.Opens preserve x (streamPieces false c tokens).1 r := by
  induction tokens generalizing c text with
  | nil => cases hx
  | cons t ts ih =>
    rw [List.forall_mem_cons] at ht hbounded
    rw [streamPieces_cons] at h hr ⊢
    obtain ⟨own, rest, hown, hrest, rfl⟩ := spell_append_eq_ok.mp h
    rw [deep, List.findSome?_append, Option.or_eq_some_iff] at hx
    rcases hx with hx | ⟨hnone, hx⟩
    · -- the identifier is in this token, and the others only have to end its word
      have hw : t.isWhitespace = false := by
        cases t with
        | lexeme text line kind => cases kind <;> first | rfl | cases hx
        | _ => rfl
      rw [Layout.written, if_neg (by simp [hw])] at hown ⊢
      obtain ⟨_, mine, -, hmine, -⟩ := spell_append_eq_ok.mp hown
      have hspaced : t.needsSpacing = true → EndsWord (rest ++ r) :=
        fun hn => endsWord_of_spell hn hbounded.2 hrest hr
      exact ((ht.1 c mine _ hmine hx hspaced).behind (names_separator c t)).before hrest
    · -- a token that mentions no identifier writes none
      refine (ih ht.2 hbounded.2 hx hrest hr).behind ?_
      have hnil : t.withParts.filterMap ownName? = [] :=
        List.filterMap_eq_nil_iff.mpr (List.findSome?_eq_none_iff.mp hnone)
      exact List.sublist_nil.mp (hnil ▸ names_written_sublist t c)

theorem opens_body_of {s : List Token} {text r : List Char}
    (ht : ∀ t ∈ s, cx.OpensAsToken preserve x t) (hbounded : ∀ t ∈ s, t.Bounded)
    (hx : (deep s).findSome? ownName? = some x)
    (h : cx.spell preserve ((streamPieces false start s).1 ++
      lineEnd false (streamPieces false start s).2) = .ok text) :
    cx.Opens preserve x ((streamPieces false start s).1 ++
      lineEnd false (streamPieces false start s).2) r := by
  obtain ⟨inner, close, hinner, hclose, rfl⟩ := spell_append_eq_ok.mp h
  have hline : close = verbatim (lineEnd false (streamPieces false start s).2) :=
    Except.ok.inj (hclose.symm.trans (spell_verbatim (names_lineEnd _)))
  refine Opens.before (opens_streamPieces_of_mem ht hbounded hx hinner fun hf => ?_) hclose
  rw [hline]
  exact endsWord_lineEnd hf

theorem opensAsToken (hx : Ident.canonicalSwizzle? x = none) {t : Token}
    (hbounded : Throughout Bounded t) : cx.OpensAsToken preserve x t := by
  -- every form but the plain directive has an identifier of its own before those of its parts
  induction hbounded with
  | define text line name arguments body hbounded =>
    intro c own r hown hfirst _
    cases hfirst
    have htext := congrArg Prod.fst (tokenText_of_spell _ hown)
    rw [tokenPieces_define] at hown ⊢
    obtain ⟨_, hname, rfl⟩ := spell_fixed_eq_ok.mp hown
    obtain ⟨name, rest, hs, hrest, rfl⟩ := spell_cons_eq_ok.mp hname
    refine ⟨[.fixed ['#', 'd', 'e', 'f', 'i', 'n', 'e', ' ']], _, rest, rfl, rfl, hrest, ?_⟩
    have he : cx.respell preserve false x = name := nameOf_eq hs
    simp only [tokenText, he, List.append_cancel_left_eq] at htext
    rw [← htext]
    simp only [List.append_assoc]
    exact endsWord_behindName hbounded.ends r
  | conditional text line test name =>
    intro c own r hown hfirst _
    cases hfirst
    rw [tokenPieces]
    exact ⟨[_], _, ['\n'], rfl, rfl, rfl, endsWord_cons (by decide)⟩
  | definedTest text line name =>
    intro c own r hown hfirst _
    cases hfirst
    rw [tokenPieces]
    exact ⟨[_], _, [')'], rfl, rfl, rfl, endsWord_cons (by decide)⟩
  | directive text line body _ hinBody hb =>
    intro c own r hown hfirst _
    cases body with
    | none => cases hfirst
    | some s =>
      rw [tokenPieces_directive, nestedPieces_some] at hown ⊢
      obtain ⟨_, hbody, rfl⟩ := (spell_verbatim_append rfl).mp hown
      exact (opens_body_of (hb s rfl) (fun t ht => (hinBody s rfl t ht).own) hfirst
        hbody).behind rfl
  | lexeme text line kind =>
    intro c own r hown hfirst hr
    cases kind with
    | identifier =>
      cases hfirst
      have hname : Layout.identifier c x = .name x := by simp [Layout.identifier, hx]
      rw [tokenPieces, hname]
      exact ⟨[], [], [], rfl, rfl, rfl, hr rfl⟩
    | _ => cases hfirst

/-- A text holds what is written for a directive, and the first identifier in that is spelled
`name`, as a word of its own.  If it follows the mark in the source it does so in the text. -/
def WritesDirective (cx : EmitContext) (preserve : Bool) (u : Token) (x : Ident)
    (name text : List Char) : Prop :=
  ∃ front back before rest after,
    (tokenPieces false start u).1 = [.fixed ['#']] ++ (front ++ .name x :: back) ∧
    Layout.names front = [] ∧ (u.isNamedAtOnce = true → front = []) ∧
    cx.spelling preserve x = .ok name ∧ cx.spell preserve back = .ok rest ∧
    text = before ++ ('#' :: (verbatim front ++ (name ++ rest)) ++ after) ∧
    Pattern.identifier (name ++ (rest ++ after)) = name

theorem WritesDirective.spelling_eq {u : Token} {name text : List Char}
    (h : cx.WritesDirective preserve u x name text) : cx.spelling preserve x = .ok name := by
  obtain ⟨front, back, before, rest, after, -, -, -, hname, -⟩ := h
  exact hname

theorem writesDirective_of_spell (hx : Ident.canonicalSwizzle? x = none)
    (hword : ∀ name, cx.spelling preserve x = .ok name → IsWord name) {tokens : List Token}
    (hbounded : ∀ u ∈ deep tokens, u.Bounded) {text : List Char}
    (h : cx.spell preserve (layout false tokens).1 = .ok text) {u : Token} (hu : u ∈ deep tokens)
    (hfirst : u.directiveName? = some x) : ∃ name, cx.WritesDirective preserve u x name text := by
  obtain ⟨source, line, s, rfl, hs⟩ : ∃ source line s, u = .directive source line (some s) ∧
      (deep s).findSome? ownName? = some x := by
    cases u with
    | directive source line body =>
      cases body with
      | none => cases hfirst
      | some s => exact ⟨source, line, s, rfl, hfirst⟩
    | _ => cases hfirst
  have hin : ∀ t ∈ s, Throughout Bounded t := by
    obtain ⟨t, ht, hut⟩ := exists_mem_withParts hu
    refine throughout_of_deep fun w hw => hbounded w ?_
    exact mem_deep_of_mem_withParts ht (withParts_subset hut (List.mem_cons_of_mem _ hw))
  -- the text of the whole stream, cut around what is written for the directive
  obtain ⟨ps, qs, he⟩ := tokenPieces_infix_streamPieces (c := start) rfl hu
  rw [layout, ← he, List.append_assoc] at h
  obtain ⟨before, _, hbefore, hboth, rfl⟩ := spell_append_eq_ok.mp h
  obtain ⟨own, after, hown, hafter, rfl⟩ := spell_append_eq_ok.mp hboth
  have hpieces := tokenPieces_directive start source line (some s)
  rw [nestedPieces_some] at hpieces
  rw [hpieces] at hown
  obtain ⟨_, hbody, rfl⟩ := (spell_verbatim_append rfl).mp hown
  obtain ⟨front, back, rest, hopens, hfront, hrest, hend⟩ :=
    opens_body_of (fun t ht => opensAsToken hx (hin t ht)) (fun t ht => (hin t ht).own) hs hbody
      (r := after)
  have hatOnce : startsWithName s = true → front = [] := by
    intro hstarts
    obtain ⟨y, ps, hy⟩ := streamPieces_of_startsWithName (c := start) hstarts ⟨rfl, rfl⟩
    rw [hy] at hopens
    cases front with
    | nil => rfl
    | cons p front =>
      obtain rfl := (List.cons.inj hopens).1
      cases hfront
  rw [hopens] at hbody hpieces
  obtain ⟨b, hb, rfl⟩ := (spell_verbatim_append hfront).mp hbody
  obtain ⟨name, _, hname, hrest', rfl⟩ := spell_cons_eq_ok.mp hb
  obtain rfl := Except.ok.inj (hrest.symm.trans hrest')
  exact ⟨name, front, back, before, rest, after, hpieces, hfront, hatOnce, hname, hrest, rfl,
    Form.identifier_append (hword name hname) hend⟩

end EmitContext

end ShaderPress
