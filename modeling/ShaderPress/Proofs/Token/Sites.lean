import ShaderPress.Proofs.Token.Definitions
import ShaderPress.Proofs.Token.References

/-! # Where identifiers occur

The lexer and the recount see the same occurrences, but the recount takes one behind a
point in the spelling in which it is written.  The sites of a stream are its occurrences in
the source's spelling together with the points, from which both can be read off.
-/
namespace ShaderPress

def Occurrence.rename (f : Ident → Ident) : Occurrence → Occurrence
  | defined name => defined (f name)
  | referenced name => referenced (f name)
  | tested name => tested (f name)

theorem Occurrence.rename_congr {f g : Ident → Ident} {o : Occurrence} (h : f o.name = g o.name) :
    o.rename f = o.rename g := by
  cases o with
  | defined x => exact congrArg defined h
  | referenced x => exact congrArg referenced h
  | tested x => exact congrArg tested h

theorem Occurrence.rename_rename (f g : Ident → Ident) (o : Occurrence) :
    (o.rename f).rename g = o.rename (g ∘ f) := by
  cases o <;> rfl

theorem Occurrence.rename_id (o : Occurrence) : o.rename (fun x => x) = o := by
  cases o <;> rfl

@[simp] theorem Occurrence.name_rename (f : Ident → Ident) (o : Occurrence) :
    (o.rename f).name = f o.name := by
  cases o <;> rfl

namespace Token

mutual

def sitesOf (followsPoint : Bool) : Token → List (Bool × Occurrence)
  | define _ _ name arguments body =>
    sitesPart arguments ++ (sitesPart body ++ [(false, .defined name)])
  | conditional _ _ _ name | definedTest _ _ name => [(false, .tested name)]
  | directive _ _ body => sitesPart body
  | lexeme text _ .identifier => [(followsPoint, .referenced text)]
  | lexeme .. => []

def sitesPart : Option (List Token) → List (Bool × Occurrence)
  | none => []
  | some tokens => sitesFrom false tokens

/-- The occurrences of a stream in the source's own spelling, each with whether it stands behind
a point. -/
def sitesFrom (followsPoint : Bool) : List Token → List (Bool × Occurrence)
  | [] => []
  | t :: ts =>
    sitesOf followsPoint t ++ sitesFrom (if t.isBlank then followsPoint else t.isPoint) ts

end

def sites (tokens : List Token) : List (Bool × Occurrence) := sitesFrom false tokens

section
variable {tokens : List Token}

theorem sitesOf_blank {t : Token} (ht : t.isBlank = true) (followsPoint : Bool) :
    sitesOf followsPoint t = [] := by
  cases t with
  | lexeme text line kind => cases kind <;> first | rfl | cases ht
  | _ => cases ht

theorem sitesFrom_blank {t : Token} (ht : t.isBlank = true) (followsPoint : Bool) :
    sitesFrom followsPoint (t :: tokens) = sitesFrom followsPoint tokens := by
  rw [sitesFrom, sitesOf_blank ht, if_pos ht, List.nil_append]

theorem sitesFrom_cons {t : Token} (ht : t.isBlank = false) (followsPoint : Bool) :
    sitesFrom followsPoint (t :: tokens) =
      sitesOf followsPoint t ++ sitesFrom t.isPoint tokens := by
  rw [sitesFrom, ht, if_neg Bool.false_ne_true]

/-- The lexer notes the occurrences as the source spells them. -/
theorem noted_eq_sites (followsPoint : Bool) (tokens : List Token) :
    noted tokens = (sitesFrom followsPoint tokens).map (·.2) := by
  have nested : ∀ {part : Option (List Token)},
      (∀ s, part = some s → ∀ followsPoint, noted s = (sitesFrom followsPoint s).map (·.2)) →
      notedPart part = (sitesPart part).map (·.2) := by
    intro part ih
    cases part with
    | none => simp only [notedPart, sitesPart, List.map_nil]
    | some s => simp only [notedPart, sitesPart, ← ih s rfl]
  induction tokens using stream_induction generalizing followsPoint with
  | nil => simp only [noted, sitesFrom, List.map_nil]
  | define text line name arguments body rest ha hb hr =>
    simp only [noted, notedOf, sitesFrom, sitesOf, List.map_append, List.map_cons, List.map_nil,
      ← hr, ← nested fun s hs => ha s hs, ← nested fun s hs => hb s hs]
  | directive text line body rest hb hr =>
    simp only [noted, notedOf, sitesFrom, sitesOf, List.map_append, ← hr,
      ← nested fun s hs => hb s hs]
  | conditional text line test name rest hr | definedTest text line name rest hr =>
    simp only [noted, notedOf, sitesFrom, sitesOf, List.map_append, List.map_cons, List.map_nil,
      ← hr]
  | lexeme text line kind rest hr =>
    simp only [noted, sitesFrom, List.map_append, ← hr]
    cases kind <;> rfl

/-- Counting takes the occurrences as they are written. -/
theorem occurrencesFrom_eq_sites (followsPoint : Bool) (tokens : List Token) :
    occurrencesFrom followsPoint tokens =
      (sitesFrom followsPoint tokens).map fun p => p.2.rename (written p.1) := by
  have nested : ∀ {part : Option (List Token)},
      (∀ s, part = some s → ∀ followsPoint, occurrencesFrom followsPoint s =
        (sitesFrom followsPoint s).map fun p => p.2.rename (written p.1)) →
      nestedOccurrences part = (sitesPart part).map fun p => p.2.rename (written p.1) := by
    intro part ih
    cases part with
    | none => simp only [nestedOccurrences, sitesPart, List.map_nil]
    | some s => simp only [nestedOccurrences, sitesPart, ← ih s rfl]
  induction tokens using stream_induction generalizing followsPoint with
  | nil => simp only [occurrencesFrom, sitesFrom, List.map_nil]
  | define text line name arguments body rest ha hb hr =>
    simp only [occurrencesFrom, occurrencesOf, sitesFrom, sitesOf, List.map_append, ← hr,
      nested ha, nested hb, List.append_assoc]
    rfl
  | directive text line body rest hb hr =>
    simp only [occurrencesFrom, occurrencesOf, sitesFrom, sitesOf, List.map_append, ← hr, nested hb]
  | conditional text line test name rest hr | definedTest text line name rest hr =>
    simp only [occurrencesFrom, sitesFrom, List.map_append, ← hr]
    rfl
  | lexeme text line kind rest hr =>
    simp only [occurrencesFrom, sitesFrom, List.map_append, ← hr]
    cases kind <;> rfl

theorem occurrences_eq_sites (tokens : List Token) :
    occurrences tokens = (sites tokens).map fun p => p.2.rename (written p.1) :=
  occurrencesFrom_eq_sites false tokens

theorem name_mem_mentioned (followsPoint : Bool) :
    ∀ p ∈ sitesFrom followsPoint tokens, p.2.name ∈ mentioned tokens := by
  have nested : ∀ {part : Option (List Token)},
      (∀ s, part = some s → ∀ followsPoint, ∀ p ∈ sitesFrom followsPoint s,
        p.2.name ∈ mentioned s) →
      ∀ p ∈ sitesPart part, p.2.name ∈ (deepNested part).filterMap ownName? := by
    intro part ih
    cases part with
    | none =>
      simp only [sitesPart]
      exact fun p hp => absurd hp List.not_mem_nil
    | some s =>
      simp only [sitesPart]
      exact ih s rfl false
  induction tokens using stream_induction generalizing followsPoint with
  | nil => exact fun p hp => absurd hp List.not_mem_nil
  | define text line name arguments body rest ha hb hr =>
    simp only [sitesFrom, sitesOf, List.forall_mem_append, List.forall_mem_singleton]
    simp only [mentioned_cons, withParts, List.filterMap_cons, ownName?, List.filterMap_append,
      List.mem_append, List.mem_cons]
    refine ⟨⟨fun p hp => ?_, fun p hp => ?_, ?_⟩, fun p hp => ?_⟩
    · exact Or.inl (Or.inr (Or.inl (nested ha p hp)))
    · exact Or.inl (Or.inr (Or.inr (nested hb p hp)))
    · exact Or.inl (Or.inl rfl)
    · exact Or.inr (hr _ p hp)
  | directive text line body rest hb hr =>
    simp only [sitesFrom, sitesOf, List.forall_mem_append]
    simp only [mentioned_cons, withParts, List.filterMap_cons, ownName?, List.mem_append]
    exact ⟨fun p hp => Or.inl (nested hb p hp), fun p hp => Or.inr (hr _ p hp)⟩
  | conditional text line test name rest hr | definedTest text line name rest hr =>
    simp only [sitesFrom, sitesOf, List.forall_mem_append, List.forall_mem_singleton]
    simp only [mentioned_cons, List.mem_append]
    exact ⟨Or.inl List.mem_cons_self, fun p hp => Or.inr (hr _ p hp)⟩
  | lexeme text line kind rest hr =>
    simp only [sitesFrom, List.forall_mem_append]
    simp only [mentioned_cons, List.mem_append]
    refine ⟨?_, fun p hp => Or.inr (hr _ p hp)⟩
    cases kind with
    | identifier => exact List.forall_mem_singleton.mpr (Or.inl List.mem_cons_self)
    | _ => exact fun p hp => absurd hp List.not_mem_nil

theorem mem_definedNames_iff {x : Ident} (followsPoint : Bool) :
    x ∈ definedNames tokens ↔ (false, .defined x) ∈ sitesFrom followsPoint tokens := by
  have nested : ∀ {part : Option (List Token)},
      (∀ s, part = some s → ∀ followsPoint,
        x ∈ definedNames s ↔ (false, .defined x) ∈ sitesFrom followsPoint s) →
      (x ∈ definedInPart part ↔ (false, .defined x) ∈ sitesPart part) := by
    intro part ih
    cases part with
    | none => simp only [definedInPart_none, sitesPart, List.not_mem_nil]
    | some s =>
      simp only [definedInPart_some, sitesPart]
      exact ih s rfl false
  induction tokens using stream_induction generalizing followsPoint with
  | nil => simp only [definedNames_nil, sitesFrom, List.not_mem_nil]
  | define text line name arguments body rest ha hb hr =>
    have hname : (false, Occurrence.defined x) = (false, .defined name) ↔ x = name := by
      simp only [Prod.mk.injEq, Occurrence.defined.injEq, true_and]
    simp only [definedNames_define, sitesFrom, sitesOf, List.mem_cons, List.mem_append,
      List.not_mem_nil, or_false, hname, ← hr, ← nested fun s hs _ => ha s hs _,
      ← nested fun s hs _ => hb s hs _]
    grind
  | directive text line body rest hb hr =>
    simp only [definedNames_directive, sitesFrom, sitesOf, List.mem_append, ← hr,
      ← nested fun s hs _ => hb s hs _]
  | conditional text line test name rest hr | definedTest text line name rest hr =>
    simp only [definedNames_conditional, definedNames_definedTest, sitesFrom, sitesOf,
      List.mem_append, List.mem_singleton, Prod.mk.injEq, reduceCtorEq, and_false, false_or, ← hr]
  | lexeme text line kind rest hr =>
    simp only [definedNames_lexeme, sitesFrom, List.mem_append, ← hr]
    cases kind <;> simp [sitesOf]

end

end Token

end ShaderPress
