import ShaderPress.Proofs.Catalog.References
import ShaderPress.Proofs.Shader.Rounds
import ShaderPress.Proofs.Token.Definitions

/-! # Where the rounds of stripping end

A round drops nothing exactly if every name that is defined is referred to by the counts
it goes by.  Rounds that go by counts of their own shaders end there.  The first round
goes by the counts of the lexer, so if it drops nothing no count has been checked against
what is left.
-/
namespace ShaderPress.Shader
open Token
variable {lexed current : Catalog} {shaders : List Shader}

/-- Every definition, at any depth, is of a name that is referred to. -/
def AllLive (c : Catalog) (shaders : List Shader) : Prop :=
  ∀ s ∈ shaders, ∀ x ∈ definedNames s.tokens, 0 < c.referenceCount x

theorem isDead_eq_false_iff {c : Catalog} {x : Ident} :
    isDead c x = false ↔ 0 < c.referenceCount x := by
  rw [isDead, beq_eq_false_iff_ne, Nat.pos_iff_ne_zero]

theorem totalRemoved_eq_zero_iff : totalRemoved current shaders = 0 ↔ AllLive current shaders := by
  induction shaders with
  | nil => simp [totalRemoved, AllLive]
  | cons s ss ih =>
    have hs : s.removed current = 0 ↔
        ∀ x ∈ definedNames s.tokens, 0 < current.referenceCount x := by
      simp only [removed, removed_eq_zero_iff, isDead_eq_false_iff]
    simp only [AllLive, List.forall_mem_cons] at ih ⊢
    rw [← hs, ← ih]
    exact Nat.add_eq_zero_iff

/-- A round that drops nothing changes nothing but comments and blanks. -/
theorem stripAll_eq (h : totalRemoved current shaders = 0) :
    stripAll current shaders = shaders.map (without keepAll) := by
  refine List.map_congr_left fun s hs => ?_
  have hlive : ∀ x ∈ definedNames s.tokens, isDead current x = false :=
    fun x hx => isDead_eq_false_iff.mpr (totalRemoved_eq_zero_iff.mp h s hs x hx)
  exact congrArg (Shader.mk s.name) (strip_congr hlive)

theorem recount_keepAll : lexed.recount ((shaders.map (without keepAll)).map tokens) =
    lexed.recount (shaders.map tokens) := by
  simp only [Catalog.recount, List.map_map, List.flatMap_map, Function.comp_apply, without,
    occurrences, occurrencesFrom_strip_keepAll]

theorem allLive_keepAll_iff {c : Catalog} :
    AllLive c (shaders.map (without keepAll)) ↔ AllLive c shaders := by
  simp only [AllLive, List.forall_mem_map, without, definedNames_strip_keepAll]

theorem removed_stripFrom_eq_zero_iff :
    (stripFrom lexed current shaders).removed = 0 ↔ totalRemoved current shaders = 0 := by
  rw [stripFrom]
  split
  · next h => exact ⟨fun _ => h, fun _ => rfl⟩
  · next h => exact ⟨fun hr => absurd (Nat.add_eq_zero_iff.mp hr).1 h, fun hr => absurd hr h⟩

/-- Rounds that go by counts of their own shaders leave live definitions only. -/
theorem allLive_stripFrom (hc : current = lexed.recount (shaders.map tokens)) :
    AllLive (stripFrom lexed current shaders).catalog
      (stripFrom lexed current shaders).shaders := by
  fun_induction stripFrom lexed current shaders with
  | case1 current shaders left counted h =>
    have hleft : left = shaders.map (without keepAll) := stripAll_eq h
    have hcounted : counted = current := by
      simp only [counted, hleft, recount_keepAll, hc]
    change AllLive counted left
    rw [hcounted, hleft, allLive_keepAll_iff]
    exact totalRemoved_eq_zero_iff.mp h
  | case2 current shaders left counted h rest ih => exact ih rfl

/-- What stripping a batch leaves is live unless its first round drops nothing although a
definition is not referred to in the shaders as they are counted. -/
theorem allLive_stripBatch_iff :
    AllLive (stripBatch lexed shaders).catalog (stripBatch lexed shaders).shaders ↔
      ¬ AllLive lexed shaders ∨ AllLive (lexed.recount (shaders.map tokens)) shaders := by
  by_cases h : totalRemoved lexed shaders = 0
  · have hr : stripBatch lexed shaders =
        ⟨stripAll lexed shaders, lexed.recount ((stripAll lexed shaders).map tokens), 0⟩ := by
      rw [stripBatch, stripFrom, dif_pos h]
    rw [hr, stripAll_eq h, recount_keepAll, allLive_keepAll_iff]
    exact ⟨Or.inr, fun h' => h'.resolve_left (not_not_intro (totalRemoved_eq_zero_iff.mp h))⟩
  · refine ⟨fun _ => Or.inl (mt totalRemoved_eq_zero_iff.mpr h), fun _ => ?_⟩
    rw [stripBatch, stripFrom, dif_neg h]
    exact allLive_stripFrom rfl

end ShaderPress.Shader
