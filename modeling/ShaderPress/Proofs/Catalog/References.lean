import ShaderPress.Proofs.Catalog.Counts

/-! # How often a catalog has seen a name referred to

The references of a name are the occurrences on the trail that refer to it, and a recount
knows only those of its own streams.
-/
namespace ShaderPress

/-- A definition of a name does not refer to it. -/
def Occurrence.refersTo (x : Ident) : Occurrence → Bool
  | defined _ => false
  | referenced name | tested name => name == x

theorem Occurrence.refersTo_eq (x : Ident) :
    refersTo x = fun o => id o.isReference && o.name == x := by
  funext o
  cases o with
  | defined name => rfl
  | referenced name | tested name => exact (Bool.true_and _).symm

namespace Catalog

theorem referenceCount_replay (c : Catalog) (trail : List Occurrence) (x : Ident) :
    (c.replay trail).referenceCount x = c.referenceCount x + trail.countP (·.refersTo x) := by
  rw [Occurrence.refersTo_eq]
  exact counts_references.figureOf_replay c trail x

theorem referenceCount_recount (c : Catalog) (streams : List (List Token)) (x : Ident) :
    (c.recount streams).referenceCount x =
      (streams.flatMap Token.occurrences).countP (·.refersTo x) := by
  rw [Occurrence.refersTo_eq]
  exact counts_references.figureOf_recount c streams x

theorem referenceCount_eq_zero_of_replay {c : Catalog} {trail : List Occurrence} {x : Ident}
    (h : (c.replay trail).referenceCount x = 0) :
    c.referenceCount x = 0 ∧ ∀ o ∈ trail, o.refersTo x = false := by
  rw [referenceCount_replay, Nat.add_eq_zero_iff, List.countP_eq_zero] at h
  exact ⟨h.1, fun o ho => by simpa using h.2 o ho⟩

/-- What a recount takes for dead is referred to in none of its streams. -/
theorem referenceCount_recount_eq_zero {c : Catalog} {streams : List (List Token)} {x : Ident} :
    (c.recount streams).referenceCount x = 0 ↔
      ∀ tokens ∈ streams, ∀ o ∈ Token.occurrences tokens, o.refersTo x = false := by
  rw [referenceCount_recount, List.countP_eq_zero]
  simp only [List.mem_flatMap, Bool.not_eq_true]
  exact ⟨fun h tokens ht o ho => h o ⟨tokens, ht, ho⟩, fun h o ⟨tokens, ht, ho⟩ => h tokens ht o ho⟩

end Catalog

end ShaderPress
