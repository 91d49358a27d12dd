import ShaderPress.Proofs.Token.References

/-! # The streams inside a stream

A directive holds further streams, and what is said of one stream is said of those as
well.  Rewriting everywhere means to rewrite a stream once its parts have been
rewritten; stripping is such a rewriting, and of a single stream it filters, blanks and
joins.
-/
namespace ShaderPress.Token

def parts : Token → List (List Token)
  | define _ _ _ arguments body => arguments.toList ++ body.toList
  | directive _ _ body => body.toList
  | _ => []

/-- A stream and the streams inside its tokens, at every depth. -/
def streams (tokens : List Token) : List (List Token) := tokens :: (deep tokens).flatMap parts

theorem self_mem_streams (tokens : List Token) : tokens ∈ streams tokens := List.mem_cons_self

/-- A property that passes from a stream to the parts of its tokens holds at every depth. -/
theorem forall_mem_streams {p : List Token → Prop}
    (hp : ∀ tokens, p tokens → ∀ t ∈ tokens, ∀ part ∈ t.parts, p part) {tokens : List Token}
    (h : p tokens) : ∀ stream ∈ streams tokens, p stream := by
  have inside : ∀ ts : List Token, (∀ t ∈ ts, ∀ part ∈ t.parts, p part) →
      ∀ u ∈ deep ts, ∀ part ∈ u.parts, p part := by
    intro ts
    have nested : ∀ {o : Option (List Token)},
        (∀ s, o = some s → (∀ t ∈ s, ∀ part ∈ t.parts, p part) →
          ∀ u ∈ deep s, ∀ part ∈ u.parts, p part) →
        (∀ part ∈ o.toList, p part) → ∀ u ∈ deepNested o, ∀ part ∈ u.parts, p part := by
      intro o ih ho
      cases o with
      | none => exact fun u hu => absurd hu List.not_mem_nil
      | some s => exact ih s rfl (hp s (ho s (List.mem_singleton_self s)))
    induction ts using stream_induction with
    | nil => exact fun _ u hu => absurd hu List.not_mem_nil
    | define text line name arguments body rest ha hb hr =>
      simp only [List.forall_mem_cons, parts, List.forall_mem_append, deep, withParts,
        List.cons_append]
      exact fun ht => ⟨ht.1, ⟨nested ha ht.1.1, nested hb ht.1.2⟩, hr ht.2⟩
    | directive text line body rest hb hr =>
      simp only [List.forall_mem_cons, parts, List.forall_mem_append, deep, withParts,
        List.cons_append]
      exact fun ht => ⟨ht.1, nested hb ht.1, hr ht.2⟩
    | conditional text line test name rest hr | definedTest text line name rest hr
    | lexeme text line kind rest hr =>
      simp only [List.forall_mem_cons, deep, withParts, List.singleton_append]
      exact fun ht => ⟨ht.1, hr ht.2⟩
  refine List.forall_mem_cons.mpr ⟨h, fun stream hs => ?_⟩
  obtain ⟨u, hu, hpart⟩ := List.mem_flatMap.mp hs
  exact inside tokens (hp tokens h) u hu stream hpart

theorem deep_subset_of_mem_parts {tokens : List Token} {t : Token} (ht : t ∈ tokens)
    {part : List Token} (hpart : part ∈ t.parts) : deep part ⊆ deep tokens := by
  intro u hu
  refine mem_deep_of_mem_withParts ht ?_
  cases t with
  | define text line name arguments body =>
    refine List.mem_cons_of_mem _ (List.mem_append.mpr ?_)
    rcases List.mem_append.mp hpart with hpart | hpart
    · obtain rfl := Option.mem_toList.mp hpart
      exact Or.inl hu
    · obtain rfl := Option.mem_toList.mp hpart
      exact Or.inr hu
  | directive text line body =>
    obtain rfl := Option.mem_toList.mp hpart
    exact List.mem_cons_of_mem _ hu
  | _ => cases hpart

theorem AvoidsFrom.of_mem_parts {x : Ident} {followsPoint : Bool} {tokens : List Token}
    (h : AvoidsFrom x followsPoint tokens) {t : Token} (ht : t ∈ tokens) {part : List Token}
    (hpart : part ∈ t.parts) : AvoidsFrom x false part := by
  induction tokens generalizing followsPoint with
  | nil => cases ht
  | cons u ts ih =>
    simp only [AvoidsFrom] at h
    rcases List.mem_cons.mp ht with rfl | ht
    · cases t with
      | define text line name arguments body =>
        simp only [AvoidsAt] at h
        rcases List.mem_append.mp hpart with hpart | hpart
        · obtain rfl := Option.mem_toList.mp hpart
          exact h.1.1
        · obtain rfl := Option.mem_toList.mp hpart
          exact h.1.2
      | directive text line body =>
        obtain rfl := Option.mem_toList.mp hpart
        exact h.1
      | _ => cases hpart
    · exact ih h.2 ht

mutual

def inParts (f : List Token → List Token) : Token → Token
  | define text line name arguments body =>
    define text line name (inPart f arguments) (inPart f body)
  | directive text line body => directive text line (inPart f body)
  | conditional text line test name => conditional text line test name
  | definedTest text line name => definedTest text line name
  | lexeme text line kind => lexeme text line kind

def inPart (f : List Token → List Token) : Option (List Token) → Option (List Token)
  | none => none
  | some tokens => some (f (inEach f tokens))

def inEach (f : List Token → List Token) : List Token → List Token
  | [] => []
  | t :: ts => inParts f t :: inEach f ts

end

/-- Rewrites a stream and the streams inside it, those inside first. -/
def everywhere (f : List Token → List Token) (tokens : List Token) : List Token :=
  f (inEach f tokens)

/-- The stream with whitespace that stands side by side put together. -/
def joined (tokens : List Token) : List Token := tokens.foldr attach []

/-- The definition of a dead name. -/
def isDefinitionOf (dead : Ident → Bool) (t : Token) : Bool := t.definedName?.any dead

/-- Stripping a single stream: the definitions of dead names go, comments become blanks, and
blanks are joined. -/
def stripStream (dead : Ident → Bool) (stream : List Token) : List Token :=
  joined ((stream.filter fun t => !t.isDefinitionOf dead).map blankedComment)

theorem strip_eq_everywhere (dead : Ident → Bool) (tokens : List Token) :
    strip dead tokens = everywhere (stripStream dead) tokens := by
  have nested : ∀ {part : Option (List Token)},
      (∀ s, part = some s → strip dead s = everywhere (stripStream dead) s) →
      stripNested dead part = inPart (stripStream dead) part := by
    intro part ih
    cases part with
    | none => simp only [stripNested, inPart]
    | some s => simp only [stripNested, inPart, ih s rfl, everywhere]
  induction tokens using stream_induction with
  | nil =>
    simp only [strip]
    rfl
  | define text line name arguments body rest ha hb hr =>
    simp only [strip, nested ha, nested hb, hr]
    cases hd : dead name with
    | true => simp [everywhere, stripStream, inEach, inParts, isDefinitionOf, definedName?, hd]
    | false =>
      simp [everywhere, stripStream, inEach, inParts, isDefinitionOf, definedName?, hd, joined,
        blankedComment, attach]
  | directive text line body rest hb hr =>
    simp only [strip, nested hb, hr]
    rfl
  | conditional text line test name rest hr =>
    simp only [strip, hr]
    rfl
  | definedTest text line name rest hr =>
    simp only [strip, hr]
    rfl
  | lexeme text line kind rest hr =>
    simp only [strip, hr]
    rfl

end ShaderPress.Token
