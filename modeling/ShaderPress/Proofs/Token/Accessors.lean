import ShaderPress.Proofs.Token.Sites
import ShaderPress.Proofs.Token.Streams

/-! # Accessors that are respelled

An accessor is an identifier with a point as the last token before it that counts, in the
same stream.  The accessors whose spelling changes when they are written are found stream
by stream from neighbouring tokens alone, and they are the sites whose occurrence the
recount takes in another spelling than the lexer.
-/
namespace ShaderPress

namespace Token

/-- The tokens of a stream but for whitespace and comments. -/
def significant (stream : List Token) : List Token := stream.filter (!·.isBlank)

/-- An identifier behind a point with the other spelling in which it is written. -/
def accessor? (before : Token) : Token → Option (Ident × Ident)
  | lexeme text _ .identifier =>
    if before.isPoint then (Ident.canonicalSwizzle? text).map (text, ·) else none
  | _ => none

/-- The respelled accessors of a stream that goes on behind a token. -/
def accessorsBehind (before : Token) (stream : List Token) : List (Ident × Ident) :=
  (List.zipWith accessor? (before :: significant stream) (significant stream)).filterMap id

/-- The respelled accessors of a stream, each a neighbour of its point. -/
def accessorsIn (stream : List Token) : List (Ident × Ident) :=
  (List.zipWith accessor? (significant stream) (significant stream).tail).filterMap id

/-- The respelled accessors of a stream and of the streams inside it, in both spellings. -/
def accessors (tokens : List Token) : List (Ident × Ident) :=
  (streams tokens).flatMap accessorsIn

/-- The respelled accessors of the streams inside the tokens of a stream. -/
def accessorsInside (tokens : List Token) : List (Ident × Ident) :=
  ((deep tokens).flatMap parts).flatMap accessorsIn

/-- The respelled accessors of the streams inside a token. -/
def accessorsOwn (t : Token) : List (Ident × Ident) :=
  (t.withParts.flatMap parts).flatMap accessorsIn

/-- The respelled accessors in a part of a token. -/
def accessorsPart (part : Option (List Token)) : List (Ident × Ident) :=
  part.toList.flatMap accessorsIn ++ ((deepNested part).flatMap parts).flatMap accessorsIn

/-- A site that is written in another spelling, with both. -/
def respelling? : Bool × Occurrence → Option (Ident × Ident)
  | (true, .referenced name) => (Ident.canonicalSwizzle? name).map (name, ·)
  | _ => none

section
variable {tokens : List Token}

theorem accessorsBehind_blank {before t : Token} (ht : t.isBlank = true) :
    accessorsBehind before (t :: tokens) = accessorsBehind before tokens := by
  rw [accessorsBehind, significant, List.filter_cons_of_neg (by simp [ht])]
  rfl

theorem accessorsBehind_cons {before t : Token} (ht : t.isBlank = false) :
    accessorsBehind before (t :: tokens) =
      (accessor? before t).toList ++ accessorsBehind t tokens := by
  rw [accessorsBehind, significant, List.filter_cons_of_pos (by simp [ht])]
  rw [List.zipWith_cons_cons]
  cases h : accessor? before t with
  | none => exact List.filterMap_cons_none rfl
  | some a => exact List.filterMap_cons_some rfl

/-- No accessor stands behind a token that is no point. -/
theorem accessorsBehind_eq_accessorsIn {before : Token} (hb : before.isPoint = false)
    (stream : List Token) : accessorsBehind before stream = accessorsIn stream := by
  rw [accessorsBehind, accessorsIn]
  cases significant stream with
  | nil => rfl
  | cons t ts =>
    have hnone : accessor? before t = none := by
      cases t with
      | lexeme text line kind => cases kind <;> simp [accessor?, hb]
      | _ => rfl
    rw [List.zipWith_cons_cons, hnone, List.filterMap_cons_none rfl, List.tail_cons]

theorem accessorsInside_cons (t : Token) (ts : List Token) :
    accessorsInside (t :: ts) = accessorsOwn t ++ accessorsInside ts := by
  rw [accessorsInside, deep, List.flatMap_append, List.flatMap_append]
  rfl

theorem accessorsOwn_define {text : List Char} {line : Nat} {name : Ident}
    {arguments body : Option (List Token)} :
    (accessorsOwn (define text line name arguments body)).Perm
      (accessorsPart arguments ++ accessorsPart body) := by
  rw [accessorsOwn, withParts, List.flatMap_cons, parts, List.perm_iff_count]
  intro a
  simp only [accessorsPart, List.flatMap_append, List.count_append]
  omega

/-- Behind any token, the accessors of a stream are its sites that are respelled. -/
def AccessorsAreSites (tokens : List Token) : Prop :=
  ∀ before : Token, (accessorsBehind before tokens ++ accessorsInside tokens).Perm
    ((sitesFrom before.isPoint tokens).filterMap respelling?)

theorem AccessorsAreSites.perm (h : AccessorsAreSites tokens) :
    (accessors tokens).Perm ((sites tokens).filterMap respelling?) := by
  have hs := h (lexeme [] 0 .whitespace)
  rwa [accessorsBehind_eq_accessorsIn rfl] at hs

theorem accessorsPart_perm {part : Option (List Token)}
    (h : ∀ s, part = some s → AccessorsAreSites s) :
    (accessorsPart part).Perm ((sitesPart part).filterMap respelling?) := by
  cases part with
  | none =>
    rw [sitesPart]
    exact .refl _
  | some s =>
    simp only [accessorsPart, sitesPart, deepNested, Option.toList_some, List.flatMap_cons,
      List.flatMap_nil, List.append_nil]
    exact (h s rfl).perm

theorem AccessorsAreSites.cons {t : Token} (ht : t.isBlank = false) (h : AccessorsAreSites tokens)
    (hown : ∀ before : Token, ((accessor? before t).toList ++ accessorsOwn t).Perm
      ((sitesOf before.isPoint t).filterMap respelling?)) : AccessorsAreSites (t :: tokens) := by
  intro before
  rw [accessorsBehind_cons ht, accessorsInside_cons, sitesFrom_cons ht, List.filterMap_append]
  refine .trans ?_ ((hown before).append (h t))
  rw [List.append_assoc, List.append_assoc]
  exact (List.perm_append_comm_assoc _ _ _).append_left _

theorem accessorsAreSites (tokens : List Token) : AccessorsAreSites tokens := by
  induction tokens using stream_induction with
  | nil => exact fun _ => .refl _
  | define text line name arguments body rest ha hb hr =>
    refine hr.cons rfl fun before => ?_
    rw [sitesOf, List.filterMap_append, List.filterMap_append]
    refine accessorsOwn_define.trans ((accessorsPart_perm ha).append ?_)
    rw [List.filterMap_cons_none rfl, List.filterMap_nil, List.append_nil]
    exact accessorsPart_perm hb
  | directive text line body rest hb hr =>
    refine hr.cons rfl fun before => ?_
    rw [sitesOf]
    refine .trans (.of_eq ?_) (accessorsPart_perm hb)
    rw [accessorsOwn, withParts, List.flatMap_cons, parts, List.flatMap_append, accessorsPart]
    rfl
  | conditional text line test name rest hr | definedTest text line name rest hr =>
    exact hr.cons rfl fun before => .refl _
  | lexeme text line kind rest hr =>
    cases hblank : isBlank (lexeme text line kind) with
    | true =>
      intro before
      rw [accessorsBehind_blank hblank, sitesFrom_blank hblank, accessorsInside_cons]
      exact hr before
    | false =>
      refine hr.cons hblank fun before => .of_eq ?_
      cases kind with
      | identifier =>
        rw [accessor?, sitesOf]
        cases before.isPoint with
        | true =>
          cases h : Ident.canonicalSwizzle? text with
          | none | some other => simp [respelling?, h, accessorsOwn, withParts, parts]
        | false => rfl
      | _ => rfl

/-- A property of sites that does not depend on the names at them holds of all sites, if it
holds of those that no point has to do with and of every reference. -/
theorem forall_sitesFrom {q : Bool × Occurrence → Prop} (hd : ∀ x, q (false, .defined x))
    (ht : ∀ x, q (false, .tested x)) (hr : ∀ followsPoint x, q (followsPoint, .referenced x))
    (followsPoint : Bool) : ∀ p ∈ sitesFrom followsPoint tokens, q p := by
  have nested : ∀ {part : Option (List Token)},
      (∀ s, part = some s → ∀ followsPoint, ∀ p ∈ sitesFrom followsPoint s, q p) →
      ∀ p ∈ sitesPart part, q p := by
    intro part ih
    cases part with
    | none =>
      rw [sitesPart]
      exact fun p hp => absurd hp List.not_mem_nil
    | some s =>
      rw [sitesPart]
      exact ih s rfl false
  induction tokens using stream_induction generalizing followsPoint with
  | nil => exact fun p hp => absurd hp List.not_mem_nil
  | define text line name arguments body rest ha hb ih =>
    simp only [sitesFrom, sitesOf, List.forall_mem_append, List.forall_mem_singleton]
    exact ⟨⟨nested ha, nested hb, hd name⟩, ih _⟩
  | directive text line body rest hb ih =>
    simp only [sitesFrom, sitesOf, List.forall_mem_append]
    exact ⟨nested hb, ih _⟩
  | conditional text line test name rest ih | definedTest text line name rest ih =>
    simp only [sitesFrom, sitesOf, List.forall_mem_append, List.forall_mem_singleton]
    exact ⟨ht name, ih _⟩
  | lexeme text line kind rest ih =>
    simp only [sitesFrom, List.forall_mem_append]
    refine ⟨?_, ih _⟩
    cases kind with
    | identifier => exact List.forall_mem_singleton.mpr (hr _ text)
    | _ => exact fun p hp => absurd hp List.not_mem_nil

end

/-- Only a reference can stand behind a point. -/
def IsPlaced (p : Bool × Occurrence) : Prop := p.1 = true → ∃ name, p.2 = .referenced name

theorem isPlaced_of_mem_sites (tokens : List Token) : ∀ p ∈ sites tokens, IsPlaced p :=
  forall_sitesFrom (fun _ h => absurd h Bool.false_ne_true) (fun _ h => absurd h Bool.false_ne_true)
    (fun _ x _ => ⟨x, rfl⟩) false

/-- An occurrence in the spelling in which it is written. -/
def writtenAs (p : Bool × Occurrence) : Occurrence := p.2.rename (written p.1)

theorem writtenAs_of_respelling?_eq_some {p : Bool × Occurrence} {x y : Ident}
    (h : respelling? p = some (x, y)) : p.2 = .referenced x ∧ writtenAs p = .referenced y := by
  unfold respelling? at h
  split at h
  · next name =>
    obtain ⟨z, hz, he⟩ := Option.map_eq_some_iff.mp h
    obtain ⟨rfl, rfl⟩ := Prod.mk.inj he
    refine ⟨rfl, ?_⟩
    rw [writtenAs, Occurrence.rename, written, if_pos rfl, hz, Option.getD_some]
  · cases h

theorem writtenAs_of_respelling?_eq_none {p : Bool × Occurrence} (hp : IsPlaced p)
    (h : respelling? p = none) : writtenAs p = p.2 := by
  obtain ⟨followsPoint, o⟩ := p
  cases followsPoint with
  | false =>
    rw [writtenAs]
    exact o.rename_id
  | true =>
    obtain ⟨x, rfl⟩ := hp rfl
    have hx : Ident.canonicalSwizzle? x = none := Option.map_eq_none_iff.mp h
    rw [writtenAs, Occurrence.rename, written, if_pos rfl, hx, Option.getD_none]

/-- Writing takes an occurrence from a spelling that is respelled and gives it to the other. -/
theorem countP_writtenAs {q : Occurrence → Bool} {x : Ident}
    (hq : ∀ y, q (.referenced y) = (y == x)) {l : List (Bool × Occurrence)}
    (hl : ∀ p ∈ l, IsPlaced p) :
    (l.map writtenAs).countP q + (l.filterMap respelling?).countP (·.1 == x) =
      (l.map (·.2)).countP q + (l.filterMap respelling?).countP (·.2 == x) := by
  induction l with
  | nil => rfl
  | cons p l ih =>
    obtain ⟨hp, hl⟩ := List.forall_mem_cons.mp hl
    have ih := ih hl
    cases h : respelling? p with
    | none =>
      rw [List.filterMap_cons_none h, List.map_cons, List.map_cons,
        writtenAs_of_respelling?_eq_none hp h, List.countP_cons, List.countP_cons]
      omega
    | some a =>
      obtain ⟨hx, hy⟩ := writtenAs_of_respelling?_eq_some h
      rw [List.filterMap_cons_some h, List.map_cons, List.map_cons, hx, hy]
      simp only [List.countP_cons, hq]
      omega

end Token

end ShaderPress
