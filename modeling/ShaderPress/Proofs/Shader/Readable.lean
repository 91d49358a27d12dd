import ShaderPress.Proofs.Shader.Text
import ShaderPress.Proofs.Token.Accessors
import ShaderPress.Proofs.Token.Lossless
import ShaderPress.Proofs.Token.WholeLines

/-! # Human-readable layout

Human-readable layout writes the tokens of a source as they stand and only ever adds to them: a
line end before a directive for which none was written, and a space between two words that stand
side by side.  It is the source itself exactly if no stream has such a pair of neighbours.  What
is asked of the source is that nothing of it is written otherwise: directives in their plain
spelling, and no accessor in another spelling than `xyzw`.
-/
namespace ShaderPress

/-- A text that is written with nothing left out and, exactly if a condition fails, with more. -/
structure Copies (source written : List Char) (exact : Prop) : Prop where
  sublist : source.Sublist written
  eq_iff : written = source ↔ exact

namespace Copies
variable {s s' w w' : List Char} {p p' : Prop}

theorem self (s : List Char) : Copies s s True := ⟨.refl s, by simp⟩

theorem addition (w : List Char) : Copies [] w (w = []) := ⟨List.nil_sublist w, Iff.rfl⟩

theorem append (h : Copies s w p) (h' : Copies s' w' p') : Copies (s ++ s') (w ++ w') (p ∧ p') := by
  refine ⟨h.sublist.append h'.sublist, ?_⟩
  rw [← h.eq_iff, ← h'.eq_iff]
  constructor
  · intro he
    -- neither half can have grown, since both together have not
    have hle := h.sublist.length_le
    have hle' := h'.sublist.length_le
    have hlength := congrArg List.length he
    rw [List.length_append, List.length_append] at hlength
    exact ⟨(h.sublist.eq_of_length (by omega)).symm, (h'.sublist.eq_of_length (by omega)).symm⟩
  · rintro ⟨rfl, rfl⟩
    rfl

theorem congr (h : Copies s w p) (hp : p ↔ p') : Copies s w p' := ⟨h.sublist, h.eq_iff.trans hp⟩

end Copies

namespace Token

/-- A preprocessor form as it is written out: no gap behind the hash, one space behind the keyword,
and a macro body that starts with whitespace. -/
def IsCanonical : Token → Prop
  | define text _ name arguments body =>
    text = '#' :: (Keyword.define.text ++ [' '] ++ name ++ partSource arguments ++ partSource body) ∧
      (body.isSome = true → Layout.startsWithWhitespace body = true)
  | conditional text _ test name => text = '#' :: (test.keyword ++ [' '] ++ name)
  | directive text _ body => text = '#' :: partSource body
  | _ => True

instance : (t : Token) → Decidable t.IsCanonical
  | define .. => inferInstanceAs (Decidable (_ ∧ _))
  | conditional .. | directive .. => inferInstanceAs (Decidable (_ = _))
  | definedTest .. | lexeme .. => inferInstanceAs (Decidable True)

/-- Neighbours between which nothing is added: a directive stands behind a line end, and two words
are apart. -/
def Beside (t u : Token) : Prop :=
  (u.isDirective = true → t.isWhitespace = true ∧ t.text.getLast? = some '\n') ∧
    ¬ (t.needsSpacing = true ∧ u.needsSpacing = true)

instance (t u : Token) : Decidable (t.Beside u) := inferInstanceAs (Decidable (_ ∧ _))

/-- A stream whose neighbours leave no room for additions. -/
def KeepsLayout (stream : List Token) : Prop := stream.IsChain Beside

instance (stream : List Token) : Decidable (KeepsLayout stream) :=
  inferInstanceAs (Decidable (stream.IsChain Beside))

/-- A token that is written as it stands but for what is added. -/
structure IsPlain (t : Token) : Prop where
  canonical : ∀ u ∈ t.withParts, u.IsCanonical
  composed : ∀ u ∈ t.withParts, u.IsComposed
  accessors : ∀ stream ∈ t.withParts.flatMap parts, accessorsIn stream = []

theorem isPlain_of_deep {tokens : List Token} (hcanonical : ∀ t ∈ deep tokens, t.IsCanonical)
    (hcomposed : ∀ t ∈ deep tokens, t.IsComposed)
    (haccessors : ∀ stream ∈ streams tokens, accessorsIn stream = []) : ∀ t ∈ tokens, t.IsPlain := by
  intro t ht
  refine ⟨fun u hu => hcanonical u (mem_deep_of_mem_withParts ht hu),
    fun u hu => hcomposed u (mem_deep_of_mem_withParts ht hu), fun stream hs => ?_⟩
  obtain ⟨u, hu, hpart⟩ := List.mem_flatMap.mp hs
  exact haccessors stream (List.mem_cons_of_mem _
    (List.mem_flatMap.mpr ⟨u, mem_deep_of_mem_withParts ht hu, hpart⟩))

theorem IsPlain.part {t : Token} (h : t.IsPlain) {s : List Token} (hs : s ∈ t.parts) :
    (∀ u ∈ s, u.IsPlain) ∧ accessorsIn s = [] := by
  have hdeep : deep s ⊆ t.withParts := by
    have hsub := deep_subset_of_mem_parts (List.mem_singleton_self t) hs
    rwa [deep, deep, List.append_nil] at hsub
  have hinside : ∀ stream ∈ streams s, accessorsIn stream = [] := by
    refine forall_streams.mpr ⟨h.accessors s ?_, fun stream hstream => ?_⟩
    · exact List.mem_flatMap.mpr ⟨t, self_mem_withParts t, hs⟩
    · obtain ⟨u, hu, hpart⟩ := List.mem_flatMap.mp hstream
      exact h.accessors stream (List.mem_flatMap.mpr ⟨u, hdeep hu, hpart⟩)
  exact ⟨isPlain_of_deep (fun u hu => h.canonical u (hdeep hu)) (fun u hu => h.composed u (hdeep hu))
    hinside, (forall_streams.mp hinside).1⟩

end Token

namespace Layout
open Token

/-- Nothing is added before a token of a stream. -/
def Undivided (c : Cursor) : List Token → Prop
  | [] => True
  | t :: ts => (t.isWhitespace = false → separator c t = []) ∧ Undivided (advance true c t) ts

@[simp] theorem verbatim_nil : verbatim [] = [] := rfl

@[simp] theorem verbatim_fixed (text : List Char) (ps : List Piece) :
    verbatim (.fixed text :: ps) = text ++ verbatim ps := rfl

@[simp] theorem verbatim_name (x : Ident) (ps : List Piece) :
    verbatim (.name x :: ps) = x ++ verbatim ps := rfl

@[simp] theorem verbatim_append (ps qs : List Piece) : verbatim (ps ++ qs) = verbatim ps ++ verbatim qs :=
  List.flatMap_append

theorem copies_separator (c : Cursor) (t : Token) :
    Copies [] (verbatim (separator c t)) (separator c t = []) := by
  refine (Copies.addition _).congr ?_
  unfold separator
  repeat' split
  all_goals simp [verbatim]

/-- An identifier is written as it stands unless it is an accessor in another spelling. -/
def KeepsName (c : Cursor) : Token → Prop
  | .lexeme text _ .identifier => c.operator = some ['.'] → Ident.canonicalSwizzle? text = none
  | _ => True

theorem keepsName_of_accessor? {c : Cursor} {before t : Token} (h : accessor? before t = none)
    (hc : c.operator = some ['.'] → before.isPoint = true) : KeepsName c t := by
  cases t with
  | lexeme text line kind =>
    cases kind with
    | identifier =>
      intro hpoint
      rw [accessor?, if_pos (hc hpoint)] at h
      simpa using h
    | _ => trivial
  | _ => trivial

theorem isPoint_of_operator?_advance {c : Cursor} {before t : Token}
    (hc : c.operator = some ['.'] → before.isPoint = true) :
    (advance true c t).operator = some ['.'] →
      (if t.isBlank then before else t).isPoint = true := by
  intro h
  rw [advance] at h
  cases hw : t.isWhitespace with
  | true =>
    rw [hw, if_pos rfl, if_pos rfl] at h
    rw [isBlank, hw, Bool.true_or, if_pos rfl]
    exact hc h
  | false =>
    rw [hw, if_neg Bool.false_ne_true] at h
    have hpoint : t.isPoint = true := by
      rw [isPoint, beq_iff_eq]
      exact h
    have hblank : t.isBlank = false := by
      cases t with
      | lexeme text line kind => cases kind <;> first | rfl | cases h
      | _ => rfl
    rw [hblank, if_neg Bool.false_ne_true]
    exact hpoint

/-- A token that is no accessor in another spelling is copied, with what is added in the streams
inside it. -/
def IsCopied (t : Token) : Prop :=
  ∀ c, KeepsName c t → Copies t.text (verbatim (tokenPieces true c t).1)
    (∀ stream ∈ t.withParts.flatMap parts, Undivided start stream)

/-- A stream is copied where its tokens are. -/
theorem copies_streamPieces {tokens : List Token} {c : Cursor} {before : Token}
    (hown : ∀ t ∈ tokens, IsCopied t)
    (haccessors : accessorsBehind before tokens = [])
    (hc : c.operator = some ['.'] → before.isPoint = true) :
    Copies (sourceOf tokens) (verbatim (streamPieces true c tokens).1)
      (Undivided c tokens ∧ ∀ stream ∈ (deep tokens).flatMap parts, Undivided start stream) := by
  induction tokens generalizing c before with
  | nil =>
    rw [streamPieces_nil]
    exact (Copies.self []).congr (by simp [Undivided, deep])
  | cons t ts ih =>
    rw [List.forall_mem_cons] at hown
    have hbehind : accessorsBehind (if t.isBlank then before else t) ts = [] ∧ KeepsName c t := by
      cases hb : t.isBlank with
      | true =>
        rw [accessorsBehind_blank hb] at haccessors
        refine ⟨haccessors, ?_⟩
        cases t with
        | lexeme text line kind => cases kind <;> trivial
        | _ => trivial
      | false =>
        rw [accessorsBehind_cons hb, List.append_eq_nil_iff, Option.toList_eq_nil_iff] at haccessors
        exact ⟨haccessors.2, keepsName_of_accessor? haccessors.1 hc⟩
    have hrest := ih hown.2 hbehind.1 (isPoint_of_operator?_advance hc)
    rw [streamPieces_cons, verbatim_append, sourceOf_cons]
    have hfirst : Copies t.text (verbatim (written true c t))
        ((t.isWhitespace = false → separator c t = []) ∧
          ∀ stream ∈ t.withParts.flatMap parts, Undivided start stream) := by
      rw [written]
      cases hw : t.isWhitespace with
      | true =>
        rw [if_pos rfl, if_pos rfl, verbatim_fixed, verbatim_nil, List.append_nil]
        refine (Copies.self t.text).congr ?_
        cases t with
        | lexeme text line kind => simp [withParts, parts]
        | _ => cases hw
      | false =>
        rw [if_neg Bool.false_ne_true, verbatim_append]
        exact ((copies_separator c t).append (hown.1 c hbehind.2)).congr (by simp)
    refine (hfirst.append hrest).congr ?_
    rw [Undivided, forall_inside_cons]
    exact and_and_and_comm

theorem copies_layout {tokens : List Token} (hown : ∀ t ∈ tokens, IsCopied t)
    (haccessors : accessorsIn tokens = []) :
    Copies (sourceOf tokens) (verbatim (layout true tokens).1)
      (∀ stream ∈ streams tokens, Undivided start stream) := by
  have hstream := @copies_streamPieces tokens start (.lexeme [] 0 .whitespace) hown
    ((accessorsBehind_eq_accessorsIn rfl tokens).trans haccessors) nofun
  exact hstream.congr forall_streams.symm

/-- A stream inside a token is copied from its start. -/
theorem copies_nestedPieces {o : Option (List Token)} (newline : Bool)
    (hown : ∀ s, o = some s → (∀ t ∈ s, IsCopied t) ∧ accessorsIn s = []) :
    Copies (partSource o) (verbatim (nestedPieces true newline o).1)
      (∀ s, o = some s → ∀ stream ∈ streams s, Undivided start stream) := by
  cases o with
  | none =>
    rw [nestedPieces_none]
    exact (Copies.self []).congr (by simp)
  | some s =>
    obtain ⟨htokens, haccessors⟩ := hown s rfl
    rw [nestedPieces_some]
    exact (copies_layout htokens haccessors).congr (by simp)

theorem copied_part {t : Token} (h : t.IsPlain) {s : List Token} (hs : s ∈ t.parts)
    (ih : ∀ u ∈ s, u.IsPlain → IsCopied u) : (∀ u ∈ s, IsCopied u) ∧ accessorsIn s = [] :=
  (h.part hs).imp_left fun hplain u hu => ih u hu (hplain u hu)

theorem isCopied_of_isPlain (t : Token) (h : t.IsPlain) : IsCopied t := by
  induction t using parts_induction with
  | define text line name arguments body ha hb =>
    intro c _
    obtain ⟨htext, hbody⟩ := h.canonical _ (self_mem_withParts _)
    have hseparator : bodySeparator true body = [] := by
      rw [bodySeparator]
      cases body with
      | none => rfl
      | some s => simp [hbody rfl]
    have hparts := copies_nestedPieces false fun s hs =>
      copied_part h (by simp [parts, hs]) (ha s hs)
    have hbodies := copies_nestedPieces (nestedPieces true false arguments).2 fun s hs =>
      copied_part h (by simp [parts, hs]) (hb s hs)
    have hpieces : verbatim (tokenPieces true c (.define text line name arguments body)).1 =
        '#' :: (Keyword.define.text ++ [' ']) ++ (name ++
          (verbatim (nestedPieces true false arguments).1 ++
            verbatim (nestedPieces true (nestedPieces true false arguments).2 body).1)) := by
      simp [tokenPieces, hseparator, lineEnd, Keyword.text]
    have hcopies := (Copies.self ('#' :: (Keyword.define.text ++ [' ']))).append
      ((Copies.self name).append (hparts.append hbodies))
    rw [hpieces, Token.text, htext, forall_inside_define]
    simpa using hcopies
  | conditional text line test name =>
    intro c _
    have htext : text = _ := h.canonical _ (self_mem_withParts _)
    have hpieces : verbatim (tokenPieces true c (.conditional text line test name)).1 = text := by
      simp [tokenPieces, lineEnd, htext]
    rw [hpieces]
    exact (Copies.self text).congr (by simp [withParts, parts])
  | definedTest text line name =>
    intro c _
    have htext : text = _ := h.composed _ (self_mem_withParts _)
    have hpieces : verbatim (tokenPieces true c (.definedTest text line name)).1 = text := by
      simp [tokenPieces, htext, Form.definedOpen]
    rw [hpieces]
    exact (Copies.self text).congr (by simp [withParts, parts])
  | directive text line body hb =>
    intro c _
    have htext : text = _ := h.canonical _ (self_mem_withParts _)
    have hbodies := copies_nestedPieces false fun s hs =>
      copied_part h (by simp [parts, hs]) (hb s hs)
    have hpieces : verbatim (tokenPieces true c (.directive text line body)).1 =
        ['#'] ++ verbatim (nestedPieces true false body).1 := by
      simp [tokenPieces, lineEnd]
    have hcopies := (Copies.self ['#']).append hbodies
    rw [hpieces, Token.text, htext, forall_inside_directive]
    simpa using hcopies
  | lexeme text line kind =>
    intro c hname
    have hpieces : verbatim (tokenPieces true c (.lexeme text line kind)).1 = text := by
      cases kind with
      | identifier =>
        rw [tokenPieces, identifier]
        split
        · next hpoint =>
          rw [hname hpoint]
          simp
        · simp
      | _ => simp [tokenPieces]
    rw [hpieces]
    exact (Copies.self text).congr (by simp [withParts, parts])

theorem eq_false_of_isWhitespace {t : Token} (ht : t.isWhitespace = true) :
    t.isDirective = false ∧ t.needsSpacing = false := by
  cases t with
  | lexeme text line kind => cases kind <;> first | exact ⟨rfl, rfl⟩ | cases ht
  | _ => cases ht

theorem ended_of_takesLine {t : Token} (ht : t.takesLine = false) (c : Cursor) :
    (tokenPieces true c t).2 = false := by
  cases t with
  | define | directive => cases ht
  | lexeme text line kind => cases kind <;> rfl
  | _ => rfl

/-- What is added before a token depends on the token before it alone. -/
theorem separator_advance_eq_nil_iff {c : Cursor} {t u : Token} (hc : c.separated = false)
    (hline : t.takesLine = true → u.isDirective = false) :
    separator (advance true c t) u = [] ↔ t.Beside u := by
  have hdirective : u.isDirective = true → u.needsSpacing = false := by
    cases u with
    | lexeme => exact nofun
    | definedTest => exact nofun
    | _ => exact fun _ => rfl
  rw [separator, advance, Beside]
  cases hw : t.isWhitespace with
  | true =>
    cases hu : u.isDirective <;> simp [hc, (eq_false_of_isWhitespace hw).2]
  | false =>
    cases hu : u.isDirective with
    | true =>
      have hended : t.takesLine = false := by
        cases ht : t.takesLine with
        | false => rfl
        | true => rw [hline ht] at hu; cases hu
      simp [afterToken, ended_of_takesLine hended c]
    | false => simp [afterToken, and_comm]

theorem separated_advance {c : Cursor} (hc : c.separated = false) (t : Token) :
    (advance true c t).separated = false := by
  rw [advance]
  cases t.isWhitespace <;> simp [afterToken, hc]

theorem undivided_advance_iff {c : Cursor} {t : Token} {ts : List Token} (hc : c.separated = false)
    (hline : EndsLines (t :: ts)) :
    Undivided (advance true c t) ts ↔ KeepsLayout (t :: ts) := by
  induction ts generalizing c t with
  | nil => simp [Undivided, KeepsLayout]
  | cons u us ih =>
    rw [EndsLines, List.isChain_cons_cons] at hline
    rw [Undivided, ih (separated_advance hc t) hline.2, KeepsLayout, KeepsLayout,
      List.isChain_cons_cons, separator_advance_eq_nil_iff hc hline.1]
    refine and_congr_left fun _ => ⟨fun h => ?_, fun h _ => h⟩
    cases hw : u.isWhitespace with
    | false => exact h hw
    | true =>
      obtain ⟨hdirective, hneeds⟩ := eq_false_of_isWhitespace hw
      simp [Beside, hdirective, hneeds]

/-- Nothing is added to a stream exactly if nothing is added between its neighbours. -/
theorem undivided_start_iff {stream : List Token} (hline : EndsLines stream) :
    Undivided start stream ↔ KeepsLayout stream := by
  cases stream with
  | nil => simp [Undivided, KeepsLayout]
  | cons t ts =>
    rw [Undivided, undivided_advance_iff rfl hline]
    exact and_iff_right fun _ => by simp [separator, start]

end Layout

end ShaderPress
