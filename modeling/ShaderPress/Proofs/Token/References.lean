import ShaderPress.Proofs.Catalog.References
import ShaderPress.Proofs.Token.Definitions

/-! # What a stream refers to

The lexer notes every identifier as the source spells it, while counting takes an
accessor behind a point in the spelling in which it is written.  A name that either
finds no reference to occurs at most as an accessor that is written otherwise.
Stripping cannot change that: a definition that goes may bring an identifier behind a
point but never takes one away from it.
-/
namespace ShaderPress.Token

mutual

def notedOf : Token → List Occurrence
  | define _ _ name arguments body => notedPart arguments ++ (notedPart body ++ [.defined name])
  | conditional _ _ _ name | definedTest _ _ name => [.tested name]
  | directive _ _ body => notedPart body
  | lexeme text _ .identifier => [.referenced text]
  | lexeme .. => []

def notedPart : Option (List Token) → List Occurrence
  | none => []
  | some tokens => noted tokens

/-- The occurrences of a stream in the source's own spelling, in the order of lexing. -/
def noted : List Token → List Occurrence
  | [] => []
  | t :: ts => notedOf t ++ noted ts

end

/-- The trail of a lexing can be read off its tokens. -/
theorem trail_lexFrom {policy : UnknownPolicy} {s : List Char} {line : Nat} {tokens : List Token}
    (h : (lexFrom policy line s).outcome = .ok tokens) :
    (lexFrom policy line s).trail = noted tokens := by
  have part : ∀ {line s o tr},
      PartHolds (fun _ _ ts tr => tr = noted ts) line s o tr → tr = notedPart o := by
    intro line s o tr hp
    rcases hp with ⟨-, rfl, rfl⟩ | ⟨-, ts, rfl, hts⟩
    · simp only [notedPart]
    · simpa only [notedPart] using hts
  refine lexFrom_induction (motive := fun _ _ ts tr => tr = noted ts) ?_ ?_ ?_ ?_ ?_ ?_ ?_
    s line tokens h
  · intro line
    simp only [noted]
  · intro line s gap space name arguments body a b ts ta tb tr _ ha hb text hr
    rw [part ha, part hb, hr]
    simp [noted, notedOf]
  · intro line s gap test space name ts tr _ text hr
    rw [hr]
    rfl
  · intro line s name ts tr _ text hr
    rw [hr]
    rfl
  · intro line s gap body b ts tb tr _ hb text hr
    rw [part hb, hr]
    simp only [noted, notedOf]
  · intro line s text kind ts tr _ hr
    rw [hr]
    cases kind <;> rfl
  · intro line s c ts tr _ _ hr
    rw [hr]
    rfl

/-- An accessor behind a point that is written in another spelling. -/
def isRespelled (followsPoint : Bool) (x : Ident) : Bool :=
  followsPoint && (Ident.canonicalSwizzle? x).isSome

mutual

def AvoidsAt (x : Ident) (followsPoint : Bool) : Token → Prop
  | define _ _ _ arguments body => AvoidsPart x arguments ∧ AvoidsPart x body
  | conditional _ _ _ name | definedTest _ _ name => name ≠ x
  | directive _ _ body => AvoidsPart x body
  | lexeme text _ .identifier => text = x → isRespelled followsPoint x = true
  | lexeme .. => True

def AvoidsPart (x : Ident) : Option (List Token) → Prop
  | none => True
  | some tokens => AvoidsFrom x false tokens

/-- A stream that does not refer to a name, but for accessors that are written otherwise. -/
def AvoidsFrom (x : Ident) (followsPoint : Bool) : List Token → Prop
  | [] => True
  | t :: ts =>
    AvoidsAt x followsPoint t ∧ AvoidsFrom x (if t.isBlank then followsPoint else t.isPoint) ts

end

variable {x : Ident} {tokens : List Token}

/-- The names after a point are the more to be respelled. -/
theorem AvoidsFrom.followsPoint (h : AvoidsFrom x false tokens) (followsPoint : Bool) :
    AvoidsFrom x followsPoint tokens := by
  induction tokens with
  | nil => trivial
  | cons t ts ih =>
    simp only [AvoidsFrom] at h ⊢
    obtain ⟨ht, hts⟩ := h
    constructor
    · cases t with
      | lexeme text line kind =>
        cases kind with
        | identifier => exact fun hx => absurd (ht hx) (by simp [isRespelled])
        | _ => trivial
      | _ => exact ht
    · cases hb : t.isBlank with
      | true =>
        rw [hb] at hts
        exact ih hts
      | false => simpa [hb] using hts

theorem avoidsFrom_attach {followsPoint : Bool} {text : List Char} {line : Nat} :
    AvoidsFrom x followsPoint (attach (lexeme text line .whitespace) tokens) ↔
      AvoidsFrom x followsPoint tokens := by
  unfold attach
  split
  · next he =>
    cases he
    simp [AvoidsFrom, AvoidsAt, isBlank, isWhitespace]
  · simp [AvoidsFrom, AvoidsAt, isBlank, isWhitespace]

/-- What stripping leaves avoids the names that the stream avoided. -/
theorem AvoidsFrom.strip {followsPoint : Bool} (h : AvoidsFrom x followsPoint tokens)
    (dead : Ident → Bool) : AvoidsFrom x followsPoint (strip dead tokens) := by
  have nested : ∀ {part : Option (List Token)},
      (∀ s, part = some s → ∀ followsPoint, AvoidsFrom x followsPoint s →
        AvoidsFrom x followsPoint (Token.strip dead s)) →
      AvoidsPart x part → AvoidsPart x (stripNested dead part) := by
    intro part ih hp
    cases part with
    | none => simp only [stripNested, AvoidsPart]
    | some s =>
      simp only [stripNested, AvoidsPart] at hp ⊢
      exact ih s rfl _ hp
  induction tokens using stream_induction generalizing followsPoint with
  | nil => simp only [Token.strip, AvoidsFrom]
  | define text line name arguments body rest ha hb hr =>
    simp only [AvoidsFrom, AvoidsAt] at h
    obtain ⟨⟨harguments, hbody⟩, hrest⟩ := h
    simp only [Token.strip]
    split
    · exact hr (AvoidsFrom.followsPoint hrest followsPoint)
    · simp only [AvoidsFrom, AvoidsAt]
      exact ⟨⟨nested (fun s hs _ => ha s hs) harguments, nested (fun s hs _ => hb s hs) hbody⟩,
        hr hrest⟩
  | directive text line body rest hb hr =>
    simp only [AvoidsFrom, AvoidsAt] at h
    simp only [Token.strip, AvoidsFrom, AvoidsAt]
    exact ⟨nested (fun s hs _ => hb s hs) h.1, hr h.2⟩
  | conditional text line test name rest hr =>
    simp only [Token.strip, blankedComment, attach, AvoidsFrom] at h ⊢
    exact ⟨h.1, hr h.2⟩
  | definedTest text line name rest hr =>
    simp only [Token.strip, blankedComment, attach, AvoidsFrom] at h ⊢
    exact ⟨h.1, hr h.2⟩
  | lexeme text line kind rest hr =>
    simp only [AvoidsFrom] at h
    simp only [Token.strip]
    cases kind with
    | whitespace | lineComment | blockComment =>
      simp only [blankedComment, avoidsFrom_attach]
      exact hr h.2
    | _ =>
      simp only [blankedComment, attach, AvoidsFrom]
      exact ⟨h.1, hr h.2⟩

/-- A name that the lexer noted no reference to is avoided. -/
theorem avoidsFrom_of_noted {followsPoint : Bool}
    (h : ∀ o ∈ noted tokens, o.refersTo x = false) : AvoidsFrom x followsPoint tokens := by
  have nested : ∀ {part : Option (List Token)},
      (∀ s, part = some s → ∀ followsPoint, (∀ o ∈ noted s, o.refersTo x = false) →
        AvoidsFrom x followsPoint s) →
      (∀ o ∈ notedPart part, o.refersTo x = false) → AvoidsPart x part := by
    intro part ih hp
    cases part with
    | none => trivial
    | some s =>
      simp only [notedPart] at hp
      exact ih s rfl _ hp
  induction tokens using stream_induction generalizing followsPoint with
  | nil => trivial
  | define text line name arguments body rest ha hb hr =>
    simp only [noted, notedOf, List.forall_mem_append] at h
    obtain ⟨⟨harguments, hbody, -⟩, hrest⟩ := h
    exact ⟨⟨nested (fun s hs _ => ha s hs) harguments, nested (fun s hs _ => hb s hs) hbody⟩,
      hr hrest⟩
  | directive text line body rest hb hr =>
    simp only [noted, notedOf, List.forall_mem_append] at h
    exact ⟨nested (fun s hs _ => hb s hs) h.1, hr h.2⟩
  | conditional text line test name rest hr | definedTest text line name rest hr =>
    simp only [noted, notedOf, List.forall_mem_append, List.forall_mem_singleton,
      Occurrence.refersTo, beq_eq_false_iff_ne] at h
    exact ⟨h.1, hr h.2⟩
  | lexeme text line kind rest hr =>
    simp only [noted, List.forall_mem_append] at h
    refine ⟨?_, hr h.2⟩
    cases kind with
    | identifier =>
      simp only [notedOf, List.forall_mem_singleton, Occurrence.refersTo,
        beq_eq_false_iff_ne] at h
      exact fun hx => absurd hx h.1
    | _ => trivial

/-- A name that counting finds no reference to is avoided. -/
theorem avoidsFrom_of_occurrences {followsPoint : Bool}
    (h : ∀ o ∈ occurrencesFrom followsPoint tokens, o.refersTo x = false) :
    AvoidsFrom x followsPoint tokens := by
  have nested : ∀ {part : Option (List Token)},
      (∀ s, part = some s → ∀ followsPoint,
        (∀ o ∈ occurrencesFrom followsPoint s, o.refersTo x = false) →
        AvoidsFrom x followsPoint s) →
      (∀ o ∈ nestedOccurrences part, o.refersTo x = false) → AvoidsPart x part := by
    intro part ih hp
    cases part with
    | none => trivial
    | some s =>
      simp only [nestedOccurrences] at hp
      exact ih s rfl _ hp
  induction tokens using stream_induction generalizing followsPoint with
  | nil => trivial
  | define text line name arguments body rest ha hb hr =>
    simp only [occurrencesFrom, occurrencesOf, List.forall_mem_append] at h
    obtain ⟨⟨⟨harguments, hbody⟩, -⟩, hrest⟩ := h
    exact ⟨⟨nested (fun s hs _ => ha s hs) harguments, nested (fun s hs _ => hb s hs) hbody⟩,
      hr hrest⟩
  | directive text line body rest hb hr =>
    simp only [occurrencesFrom, occurrencesOf, List.forall_mem_append] at h
    exact ⟨nested (fun s hs _ => hb s hs) h.1, hr h.2⟩
  | conditional text line test name rest hr | definedTest text line name rest hr =>
    simp only [occurrencesFrom, occurrencesOf, List.forall_mem_append,
      List.forall_mem_singleton, Occurrence.refersTo, beq_eq_false_iff_ne] at h
    exact ⟨h.1, hr h.2⟩
  | lexeme text line kind rest hr =>
    simp only [occurrencesFrom, List.forall_mem_append] at h
    refine ⟨?_, hr h.2⟩
    cases kind with
    | identifier =>
      simp only [occurrencesOf, List.forall_mem_singleton, Occurrence.refersTo,
        beq_eq_false_iff_ne] at h
      intro hx
      cases followsPoint with
      | false => exact absurd hx h.1
      | true =>
        cases hs : Ident.canonicalSwizzle? text with
        | none => exact absurd hx (by simpa [written, hs] using h.1)
        | some swizzle => simp [isRespelled, ← hx, hs]
    | _ => trivial

end ShaderPress.Token
