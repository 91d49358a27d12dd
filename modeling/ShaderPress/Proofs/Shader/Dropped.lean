import ShaderPress.Proofs.Shader.Fixpoint
import ShaderPress.Proofs.Shader.Layout
import ShaderPress.Proofs.Token.Streams

/-! # The names that stripping drops

A name is dropped in the round in which a definition of it stands, at any depth, and
nothing refers to it by the counts of that round.  A definition inside one of another
name goes with that one and is not dropped itself.  As soon as the counts miss no
reference, a dropped name is free in all that is left, and what is left is what was there
without the definitions of the dropped names.
-/
namespace ShaderPress

namespace Token

def testedName? : Token → Option Ident
  | conditional _ _ _ name | definedTest _ _ name => some name
  | _ => none

/-- A stream that neither defines nor tests a name and has it only as an accessor after a
point that is written in another spelling. -/
structure Free (x : Ident) (stream : List Token) : Prop where
  defined : ∀ t ∈ stream, t.definedName? ≠ some x
  tested : ∀ t ∈ stream, t.testedName? ≠ some x
  respelled : ∀ pre line post, stream = pre ++ lexeme x line .identifier :: post →
    ∃ swizzle, Ident.canonicalSwizzle? x = some swizzle ∧
      Layout.identifier (Layout.behind false Layout.start pre) x = .fixed swizzle

theorem AvoidsFrom.at_append {x : Ident} {c : Layout.Cursor} {pre post : List Token} {t : Token}
    (h : AvoidsFrom x (Layout.followsPoint c) (pre ++ t :: post))
    (hpre : ∀ u ∈ pre, u.isComment = false) :
    AvoidsAt x (Layout.followsPoint (Layout.behind false c pre)) t := by
  induction pre generalizing c with
  | nil => exact h.1
  | cons u us ih =>
    rw [List.forall_mem_cons] at hpre
    refine ih (c := Layout.advance false c u) ?_ hpre.2
    rw [Layout.followsPoint_advance hpre.1]
    exact h.2

theorem AvoidsFrom.free {x : Ident} {stream : List Token} (h : AvoidsFrom x false stream)
    (hdefined : x ∉ definedNames stream) (hcomment : ∀ t ∈ stream, t.isComment = false) :
    Free x stream := by
  have at_ : ∀ pre t post, stream = pre ++ t :: post →
      AvoidsAt x (Layout.followsPoint (Layout.behind false Layout.start pre)) t := by
    rintro pre t post rfl
    exact AvoidsFrom.at_append h fun u hu => hcomment u (List.mem_append_left _ hu)
  constructor
  · intro t ht hx
    have hdeep : t ∈ deep stream := mem_deep_of_mem_withParts ht (self_mem_withParts t)
    exact hdefined (List.mem_filterMap.mpr ⟨t, hdeep, hx⟩)
  · intro t ht hx
    obtain ⟨pre, post, he⟩ := List.append_of_mem ht
    have hat := at_ pre t post he
    cases t with
    | conditional text line test name => exact hat (Option.some.inj hx)
    | definedTest text line name => exact hat (Option.some.inj hx)
    | _ => cases hx
  · intro pre line post he
    have hat := at_ pre _ post he rfl
    simp only [isRespelled, Bool.and_eq_true, Option.isSome_iff_exists] at hat
    obtain ⟨hpoint, swizzle, hs⟩ := hat
    have hop : (Layout.behind false Layout.start pre).operator = some ['.'] := by
      simpa [Layout.followsPoint] using hpoint
    exact ⟨swizzle, hs, by simp only [Layout.identifier, hop, hs, if_true]⟩

end Token

namespace Shader
open Token
variable {lexed current : Catalog} {shaders : List Shader} {x : Ident}

/-- The names whose definitions the rounds of stripping drop, because in some round a definition of
the name stands and nothing refers to it.  A definition that goes with the one it stands inside does
not make its name a dropped one. -/
inductive Drops (lexed : Catalog) : Catalog → List Shader → Ident → Prop
  | now {current : Catalog} {shaders : List Shader} {s : Shader} {x : Ident} (hs : s ∈ shaders)
      (hx : x ∈ definedNames s.tokens) (hdead : isDead current x = true) :
      Drops lexed current shaders x
  | later {current : Catalog} {shaders : List Shader} {x : Ident}
      (hround : totalRemoved current shaders ≠ 0)
      (h : Drops lexed (lexed.recount ((stripAll current shaders).map tokens))
        (stripAll current shaders) x) :
      Drops lexed current shaders x

theorem not_drops_of_allLive (h : AllLive current shaders) : ¬ Drops lexed current shaders x := by
  rintro (⟨hs, hx, hdead⟩ | ⟨hround, -⟩)
  · rw [isDead_eq_false_iff.mpr (h _ hs x hx)] at hdead
    cases hdead
  · exact hround (totalRemoved_eq_zero_iff.mpr h)

/-- The rounds together drop the definitions of exactly the dropped names. -/
theorem shaders_stripFrom (lexed current : Catalog) (shaders : List Shader) :
    ∃ dead : Ident → Bool, (∀ x, dead x = true ↔ Drops lexed current shaders x) ∧
      (stripFrom lexed current shaders).shaders = shaders.map (without dead) := by
  classical
  refine ⟨fun x => decide (Drops lexed current shaders x), fun x => decide_eq_true_iff, ?_⟩
  fun_induction stripFrom lexed current shaders with
  | case1 current shaders left counted h =>
    have hall : (fun x => decide (Drops lexed current shaders x)) = keepAll :=
      funext fun x => decide_eq_false (not_drops_of_allLive (totalRemoved_eq_zero_iff.mp h))
    rw [hall]
    exact stripAll_eq h
  | case2 current shaders left counted h rest ih =>
    change rest.shaders = _
    rw [ih]
    simp only [left, stripAll, List.map_map]
    refine List.map_congr_left fun s hs => ?_
    refine (without_without _ _ s).trans (congrArg (Shader.mk s.name) (strip_congr fun x hx => ?_))
    -- a name that is defined here is dropped in this round or in a later one
    have hdrops : Drops lexed current shaders x ↔
        isDead current x = true ∨ Drops lexed counted left x := by
      constructor
      · rintro (⟨-, -, hdead⟩ | ⟨-, hlater⟩)
        · exact Or.inl hdead
        · exact Or.inr hlater
      · rintro (hdead | hlater)
        · exact .now hs hx hdead
        · exact .later h hlater
    rw [Bool.eq_iff_iff, Bool.or_eq_true, decide_eq_true_iff, decide_eq_true_iff]
    exact hdrops.symm

/-- Counts that miss no reference in the shaders. -/
def Counted (c : Catalog) (shaders : List Shader) : Prop :=
  ∀ x, c.referenceCount x = 0 → ∀ s ∈ shaders, AvoidsFrom x false s.tokens

theorem counted_recount (lexed : Catalog) (shaders : List Shader) :
    Counted (lexed.recount (shaders.map tokens)) shaders := by
  intro x hx s hs
  exact avoidsFrom_of_occurrences
    (Catalog.referenceCount_recount_eq_zero.mp hx s.tokens (List.mem_map_of_mem hs))

/-- What the rounds leave avoids every dropped name. -/
theorem avoids_of_drops (h : Drops lexed current shaders x) (hc : Counted current shaders) :
    ∀ s ∈ (stripFrom lexed current shaders).shaders, AvoidsFrom x false s.tokens := by
  induction h with
  | @now current shaders s x hs hx hdead =>
    have hcount : current.referenceCount x = 0 := by simpa [isDead] using hdead
    obtain ⟨dead, -, he⟩ := shaders_stripFrom lexed current shaders
    rw [he]
    refine List.forall_mem_map.mpr fun s hs => ?_
    exact (hc x hcount s hs).strip dead
  | @later current shaders x hround h ih =>
    rw [stripFrom, dif_neg hround]
    exact ih (counted_recount lexed _)

theorem free_of_drops (h : Drops lexed current shaders x) (hc : Counted current shaders) :
    ∀ s ∈ (stripFrom lexed current shaders).shaders, ∀ stream ∈ streams s.tokens,
      Free x stream := by
  intro s hs
  obtain ⟨dead, hdead, he⟩ := shaders_stripFrom lexed current shaders
  obtain ⟨u, -, hu⟩ := List.mem_map.mp (he ▸ hs)
  have hdefined : x ∉ definedNames s.tokens := by
    rw [← hu]
    intro hx
    exact Bool.false_ne_true ((mem_definedNames_strip hx).2.symm.trans ((hdead x).mpr h))
  have hcomment : ∀ t ∈ deep s.tokens, t.isComment = false := by
    rw [← hu]
    exact isComment_of_mem_strip dead u.tokens
  have hall := forall_mem_streams
    (p := fun stream => AvoidsFrom x false stream ∧ x ∉ definedNames stream ∧
      ∀ t ∈ deep stream, t.isComment = false)
    (fun stream hp t ht part hpart => by
      have hsub := deep_subset_of_mem_parts ht hpart
      exact ⟨hp.1.of_mem_parts ht hpart,
        fun hx => hp.2.1 (List.filterMap_subset definedName? hsub hx),
        fun u hu => hp.2.2 u (hsub hu)⟩)
    ⟨avoids_of_drops h hc s hs, hdefined, hcomment⟩
  intro stream hstream
  obtain ⟨havoids, hdefined, hcomment⟩ := hall stream hstream
  exact havoids.free hdefined fun t ht =>
    hcomment t (mem_deep_of_mem_withParts ht (self_mem_withParts t))

end Shader

end ShaderPress
