import ShaderPress.Proofs.Shader.Layout
import ShaderPress.Proofs.Token.Accessors

/-! # The identifiers that a layout leaves to be spelled

Each identifier of a stream without comments is either left in the layout, to be spelled, or
an accessor that the layout spells itself.
-/
namespace ShaderPress.Layout
open Token

/-- The identifiers at the sites that are respelled. -/
def respelledAt (sites : List (Bool × Occurrence)) : List Ident :=
  (sites.filterMap respelling?).map Prod.fst

theorem respelledAt_append (xs ys : List (Bool × Occurrence)) :
    respelledAt (xs ++ ys) = respelledAt xs ++ respelledAt ys := by
  simp only [respelledAt, List.filterMap_append, List.map_append]

/-- What a token leaves to be spelled and what is respelled in it are its identifiers. -/
def Mentions (c : Cursor) (t : Token) : Prop :=
  (names (written false c t) ++ respelledAt (sitesOf (followsPoint c) t)).Perm
    (t.withParts.filterMap ownName?)

theorem names_streamPieces_perm {tokens : List Token} (hc : ∀ t ∈ tokens, t.isComment = false)
    (h : ∀ t ∈ tokens, ∀ c, Mentions c t) (c : Cursor) :
    (names (streamPieces false c tokens).1 ++
      respelledAt (sitesFrom (followsPoint c) tokens)).Perm (mentioned tokens) := by
  induction tokens generalizing c with
  | nil =>
    rw [streamPieces_nil, sitesFrom]
    exact .refl _
  | cons t ts ih =>
    have hts := ih (fun u hu => hc u (List.mem_cons_of_mem t hu))
      (fun u hu => h u (List.mem_cons_of_mem t hu)) (advance false c t)
    rw [followsPoint_advance (hc t List.mem_cons_self)] at hts
    rw [streamPieces_cons, names_append, sitesFrom, respelledAt_append, mentioned_cons]
    refine .trans ?_ ((h t List.mem_cons_self c).append hts)
    rw [List.append_assoc, List.append_assoc]
    exact (List.perm_append_comm_assoc _ _ _).append_left _

theorem mentions_of_no_comment {t : Token} (ht : Throughout (·.isComment = false) t)
    (c : Cursor) : Mentions c t := by
  have nested : ∀ {part : Option (List Token)} (newline : Bool),
      (∀ s, part = some s → ∀ t ∈ s, Throughout (·.isComment = false) t) →
      (∀ s, part = some s → ∀ t ∈ s, ∀ c, Mentions c t) →
      (names (nestedPieces false newline part).1 ++ respelledAt (sitesPart part)).Perm
        ((deepNested part).filterMap ownName?) := by
    intro part newline hcomment ih
    cases part with
    | none =>
      rw [nestedPieces_none, sitesPart]
      exact .refl _
    | some s =>
      rw [nestedPieces_some, sitesPart]
      exact names_streamPieces_perm (fun t ht => (hcomment s rfl t ht).own) (ih s rfl) start
  induction ht generalizing c with
  | define text line name arguments body _ harguments hbody ha hb =>
    rw [Mentions, names_written rfl]
    simp only [tokenPieces, names_fixed, names_name, names_append, names_bodySeparator,
      names_lineEnd, List.append_nil, sitesOf, respelledAt_append, withParts, List.filterMap_cons,
      ownName?, List.filterMap_append]
    have hargs := List.perm_iff_count.mp (nested false harguments ha)
    have hbodies := List.perm_iff_count.mp
      (nested (nestedPieces false false arguments).2 hbody hb)
    have hname : respelledAt [(false, .defined name)] = [] := rfl
    refine List.perm_iff_count.mpr fun x => ?_
    have hax := hargs x
    have hbx := hbodies x
    simp only [hname, List.cons_append, List.count_cons, List.count_append, List.count_nil]
      at hax hbx ⊢
    omega
  | conditional text line test name =>
    rw [Mentions, names_written rfl]
    simp [tokenPieces, sitesOf, withParts, ownName?, respelledAt, respelling?]
  | definedTest text line name =>
    rw [Mentions, names_written rfl]
    simp [tokenPieces, sitesOf, withParts, ownName?, respelledAt, respelling?]
  | directive text line body _ hbody hb =>
    rw [Mentions, names_written rfl]
    simp only [tokenPieces, names_fixed, names_append, names_lineEnd, List.append_nil, sitesOf,
      withParts, List.filterMap_cons, ownName?]
    exact nested false hbody hb
  | lexeme text line kind =>
    cases kind with
    | whitespace => exact .refl _
    | identifier =>
      rw [Mentions, names_written rfl]
      by_cases hp : c.operator = some ['.']
      · have hf : followsPoint c = true := by simp [followsPoint, hp]
        cases hs : Ident.canonicalSwizzle? text with
        | none | some swizzle =>
          simp [tokenPieces, identifier, hp, hs, sitesOf, hf, respelledAt, respelling?, withParts,
            ownName?]
      · have hf : followsPoint c = false := by simp [followsPoint, hp]
        simp [tokenPieces, identifier, hp, sitesOf, hf, respelledAt, respelling?, withParts,
          ownName?]
    | _ =>
      rw [Mentions, names_written rfl]
      simp [tokenPieces, sitesOf, respelledAt, withParts, ownName?]

/-- The identifiers of a layout and the accessors that are respelled make up those of the stream. -/
theorem names_layout_perm {tokens : List Token} (hc : ∀ t ∈ deep tokens, t.isComment = false) :
    (names (layout false tokens).1 ++ (accessors tokens).map Prod.fst).Perm (mentioned tokens) := by
  have hin := throughout_of_deep hc
  refine .trans (.append_left _ ((accessorsAreSites tokens).perm.map Prod.fst)) ?_
  exact names_streamPieces_perm (fun t ht => (hin t ht).own)
    (fun t ht => mentions_of_no_comment (hin t ht)) start

end ShaderPress.Layout
