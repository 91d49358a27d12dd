import ShaderPress.Shader.Layout
import ShaderPress.Catalog.Recount
import ShaderPress.Proofs.Token.Depth

/-! # Layouts, token by token

A layout is written from left to right: each token adds its separator and its own
pieces, and leaves a cursor to the next one.  The identifiers in a layout are carried
by its tokens, and where no comment is left they are the ones that counting meets.
-/
namespace ShaderPress.Layout
open Token

def advance (humanReadable : Bool) (c : Cursor) (t : Token) : Cursor :=
  if t.isWhitespace then
    if humanReadable then ⟨c.operator, false, t.text.getLast? == some '\n', c.separated⟩
    else { c with separated := true }
  else afterToken humanReadable (tokenPieces humanReadable c t).2 t

/-- What one token adds to a layout. -/
def written (humanReadable : Bool) (c : Cursor) (t : Token) : List Piece :=
  if t.isWhitespace then if humanReadable then [.fixed t.text] else []
  else separator c t ++ (tokenPieces humanReadable c t).1

variable {humanReadable : Bool}

@[simp] theorem streamPieces_nil (c : Cursor) :
    streamPieces humanReadable c [] = ([], c.newline) := by
  rw [streamPieces]

theorem streamPieces_cons (c : Cursor) (t : Token) (ts : List Token) :
    streamPieces humanReadable c (t :: ts) =
      (written humanReadable c t ++ (streamPieces humanReadable (advance humanReadable c t) ts).1,
        (streamPieces humanReadable (advance humanReadable c t) ts).2) := by
  rw [streamPieces, written, advance]
  cases t.isWhitespace <;> cases humanReadable <;> rfl

@[simp] theorem nestedPieces_none (newline : Bool) :
    nestedPieces humanReadable newline none = ([], newline) := by
  rw [nestedPieces]

@[simp] theorem nestedPieces_some (newline : Bool) (tokens : List Token) :
    nestedPieces humanReadable newline (some tokens) = streamPieces humanReadable start tokens := by
  rw [nestedPieces]

def behind (humanReadable : Bool) (c : Cursor) (tokens : List Token) : Cursor :=
  tokens.foldl (advance humanReadable) c

theorem streamPieces_append (c : Cursor) (xs ys : List Token) :
    streamPieces humanReadable c (xs ++ ys) =
      ((streamPieces humanReadable c xs).1 ++
          (streamPieces humanReadable (behind humanReadable c xs) ys).1,
        (streamPieces humanReadable (behind humanReadable c xs) ys).2) := by
  induction xs generalizing c with
  | nil => simp [behind]
  | cons t xs ih =>
    rw [List.cons_append, streamPieces_cons, streamPieces_cons, ih, List.append_assoc]
    rfl

def names (pieces : List Piece) : List Ident :=
  pieces.filterMap fun
    | .name x => some x
    | .fixed _ => none

@[simp] theorem names_nil : names [] = [] := rfl

@[simp] theorem names_append (ps qs : List Piece) : names (ps ++ qs) = names ps ++ names qs :=
  List.filterMap_append

@[simp] theorem names_fixed (text : List Char) (ps : List Piece) :
    names (.fixed text :: ps) = names ps := rfl

@[simp] theorem names_name (x : Ident) (ps : List Piece) : names (.name x :: ps) = x :: names ps := rfl

theorem mem_names {ps : List Piece} {x : Ident} : x ∈ names ps ↔ .name x ∈ ps := by
  induction ps with
  | nil => simp
  | cons p ps ih => cases p <;> simp [ih]

@[simp] theorem names_separator (c : Cursor) (t : Token) : names (separator c t) = [] := by
  unfold separator
  repeat' split
  all_goals rfl

@[simp] theorem names_lineEnd (newline : Bool) : names (lineEnd humanReadable newline) = [] := by
  unfold lineEnd
  split <;> rfl

@[simp] theorem names_bodySeparator (body : Option (List Token)) :
    names (bodySeparator humanReadable body) = [] := by
  unfold bodySeparator
  split <;> rfl

theorem names_written {c : Cursor} {t : Token} (ht : t.isWhitespace = false) :
    names (written humanReadable c t) = names (tokenPieces humanReadable c t).1 := by
  simp [written, ht]

theorem names_identifier (c : Cursor) (x : Ident) : (names [identifier c x]).Sublist [x] := by
  unfold identifier
  split
  · split
    · exact List.nil_sublist _
    · exact List.Sublist.refl _
  · exact List.Sublist.refl _

theorem names_streamPieces_sublist {tokens : List Token}
    (h : ∀ t ∈ tokens, ∀ c,
      (names (written humanReadable c t)).Sublist (t.withParts.filterMap ownName?)) (c : Cursor) :
    (names (streamPieces humanReadable c tokens).1).Sublist (mentioned tokens) := by
  induction tokens generalizing c with
  | nil => simp
  | cons t ts ih =>
    rw [streamPieces_cons, names_append, mentioned_cons]
    have hts := ih (fun u hu => h u (List.mem_cons_of_mem t hu)) (advance humanReadable c t)
    exact (h t List.mem_cons_self c).append hts

/-- The identifiers that a token adds to a layout are its own and those of its parts, in order. -/
theorem names_written_sublist (t : Token) (c : Cursor) :
    (names (written humanReadable c t)).Sublist (t.withParts.filterMap ownName?) := by
  have nested : ∀ {o : Option (List Token)} {newline},
      (∀ s, o = some s → ∀ t ∈ s, ∀ c,
        (names (written humanReadable c t)).Sublist (t.withParts.filterMap ownName?)) →
      (names (nestedPieces humanReadable newline o).1).Sublist
        ((deepNested o).filterMap ownName?) := by
    intro o newline ho
    cases o with
    | none => simp
    | some s =>
      rw [nestedPieces_some]
      exact names_streamPieces_sublist (ho s rfl) start
  induction t using parts_induction generalizing c with
  | define text line name arguments body ha hb =>
    rw [names_written rfl]
    simp only [tokenPieces, names_fixed, names_name, names_append, names_bodySeparator,
      names_lineEnd, List.append_nil, withParts, List.filterMap_cons, ownName?,
      List.filterMap_append]
    exact ((nested ha).append (nested hb)).cons_cons name
  | conditional text line test name =>
    rw [names_written rfl]
    simp [tokenPieces, withParts, ownName?]
  | definedTest text line name =>
    rw [names_written rfl]
    simp [tokenPieces, withParts, ownName?]
  | directive text line body hb =>
    rw [names_written rfl]
    simp only [tokenPieces, names_fixed, names_append, names_lineEnd, List.append_nil, withParts,
      List.filterMap_cons, ownName?]
    exact nested hb
  | lexeme text line kind =>
    cases kind with
    | whitespace => cases humanReadable <;> exact List.nil_sublist _
    | identifier =>
      rw [names_written rfl]
      simp only [tokenPieces, withParts]
      exact names_identifier c text
    | _ =>
      rw [names_written rfl]
      simp [tokenPieces]

/-- The identifiers in a layout are identifiers of the stream, in their order. -/
theorem names_layout_sublist (tokens : List Token) :
    (names (layout humanReadable tokens).1).Sublist (mentioned tokens) :=
  names_streamPieces_sublist (fun t _ c => names_written_sublist t c) start

def followsPoint (c : Cursor) : Bool := c.operator == some ['.']

theorem followsPoint_advance {c : Cursor} {t : Token} (ht : t.isComment = false) :
    followsPoint (advance false c t) = if t.isBlank then followsPoint c else t.isPoint := by
  cases hw : t.isWhitespace <;>
    simp [advance, followsPoint, isBlank, isPoint, afterToken, ht, hw]

theorem names_identifier_subset_written (c : Cursor) (x : Ident) :
    names [identifier c x] ⊆ [Token.written (followsPoint c) x] := by
  by_cases hp : c.operator = some ['.']
  · have hf : followsPoint c = true := by simp [followsPoint, hp]
    cases hx : Ident.canonicalSwizzle? x with
    | some swizzle => simp [identifier, hp, hx]
    | none => simp [identifier, hp, hx, Token.written]
  · have hf : followsPoint c = false := by simp [followsPoint, hp]
    simp [identifier, hp, Token.written, hf]

theorem names_streamPieces_subset_occurrences {tokens : List Token}
    (hc : ∀ t ∈ tokens, t.isComment = false)
    (h : ∀ t ∈ tokens, ∀ c, names (written false c t) ⊆
      (occurrencesOf (followsPoint c) t).map Occurrence.name) (c : Cursor) :
    names (streamPieces false c tokens).1 ⊆
      (occurrencesFrom (followsPoint c) tokens).map Occurrence.name := by
  induction tokens generalizing c with
  | nil => simp
  | cons t ts ih =>
    have hts := ih (fun u hu => hc u (List.mem_cons_of_mem t hu))
      (fun u hu => h u (List.mem_cons_of_mem t hu)) (advance false c t)
    rw [followsPoint_advance (hc t List.mem_cons_self)] at hts
    rw [streamPieces_cons, names_append, occurrencesFrom, List.map_append]
    exact List.append_subset.mpr ⟨List.subset_append_of_subset_left _ (h t List.mem_cons_self c),
      List.subset_append_of_subset_right _ hts⟩

/-- Where no comment is left, the identifiers that a token adds to a layout are those counted. -/
theorem names_written_subset_occurrencesOf {t : Token}
    (ht : Throughout (·.isComment = false) t) (c : Cursor) :
    names (written false c t) ⊆ (occurrencesOf (followsPoint c) t).map Occurrence.name := by
  have nested : ∀ {o : Option (List Token)} {newline},
      (∀ s, o = some s → ∀ t ∈ s, Throughout (·.isComment = false) t) →
      (∀ s, o = some s → ∀ t ∈ s, ∀ c, names (written false c t) ⊆
        (occurrencesOf (followsPoint c) t).map Occurrence.name) →
      names (nestedPieces false newline o).1 ⊆ (nestedOccurrences o).map Occurrence.name := by
    intro o newline hcomment ho
    cases o with
    | none => simp
    | some s =>
      rw [nestedPieces_some, nestedOccurrences]
      exact names_streamPieces_subset_occurrences (fun t ht => (hcomment s rfl t ht).own)
        (ho s rfl) start
  induction ht generalizing c with
  | define text line name arguments body _ harguments hbody ha hb =>
    rw [names_written rfl]
    simp only [tokenPieces, names_fixed, names_name, names_append, names_bodySeparator,
      names_lineEnd, List.append_nil, occurrencesOf, List.map_append, List.append_assoc]
    have hname : name ∈ [Occurrence.defined name].map Occurrence.name := List.mem_singleton_self _
    refine List.cons_subset.mpr ⟨?_, List.append_subset.mpr ⟨?_, ?_⟩⟩
    · exact List.mem_append_right _ (List.mem_append_right _ hname)
    · exact List.subset_append_of_subset_left _ (nested harguments ha)
    · exact List.subset_append_of_subset_right _
        (List.subset_append_of_subset_left _ (nested hbody hb))
  | conditional text line test name =>
    rw [names_written rfl]
    simp [tokenPieces, occurrencesOf, Occurrence.name]
  | definedTest text line name =>
    rw [names_written rfl]
    simp [tokenPieces, occurrencesOf, Occurrence.name]
  | directive text line body _ hbody hb =>
    rw [names_written rfl]
    simp only [tokenPieces, names_fixed, names_append, names_lineEnd, List.append_nil,
      occurrencesOf]
    exact nested hbody hb
  | lexeme text line kind =>
    cases kind with
    | whitespace => exact List.nil_subset _
    | identifier =>
      rw [names_written rfl]
      simp only [tokenPieces, occurrencesOf]
      exact names_identifier_subset_written c text
    | _ =>
      rw [names_written rfl]
      simp [tokenPieces]

end ShaderPress.Layout
