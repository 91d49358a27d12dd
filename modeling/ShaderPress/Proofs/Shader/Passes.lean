import Mathlib.Logic.Function.Iterate
import ShaderPress.Proofs.Catalog.Exports
import ShaderPress.Shader.Basic

/-! # Passes of stripping

Stripping a batch repeats one pass, which strips all shaders by a catalog and recounts what
is left.  A pass makes no shader mention more than before and recounts from the catalog of
the lexer, so the exports are the same after any number of passes.
-/
namespace ShaderPress

namespace Shader
open Token
variable {lexed current : Catalog} {shaders : List Shader}

/-- One pass: the shaders are stripped by the catalog, and what is left of them is recounted. -/
def pass (lexed : Catalog) (state : Catalog × List Shader) : Catalog × List Shader :=
  (lexed.recount ((stripAll state.1 state.2).map tokens), stripAll state.1 state.2)

/-- Stripping comes to a number of passes, one at least. -/
theorem stripFrom_eq_iterate (lexed current : Catalog) (shaders : List Shader) :
    ∃ k, (pass lexed)^[k + 1] (current, shaders) =
      ((stripFrom lexed current shaders).catalog, (stripFrom lexed current shaders).shaders) := by
  fun_induction stripFrom lexed current shaders with
  | case1 current shaders left counted h => exact ⟨0, rfl⟩
  | case2 current shaders left counted h rest ih =>
    obtain ⟨k, hk⟩ := ih
    exact ⟨k + 1, hk⟩

/-- A catalog with the exports of the lexer and shaders that mention only what it has met. -/
structure KeepsExports (lexed : Catalog) (state : Catalog × List Shader) : Prop where
  exports : state.1.exports = lexed.exports
  known : ∀ s ∈ state.2, mentioned s.tokens ⊆ lexed.names

theorem KeepsExports.pass {state : Catalog × List Shader} (h : KeepsExports lexed state) :
    KeepsExports lexed (pass lexed state) := by
  have hknown : ∀ s ∈ stripAll state.1 state.2, mentioned s.tokens ⊆ lexed.names := by
    intro s hs
    obtain ⟨u, hu, rfl⟩ := List.mem_map.mp hs
    exact List.Subset.trans (mentioned_strip_subset (isDead state.1) u.tokens) (h.known u hu)
  refine ⟨Catalog.exports_recount fun tokens ht => ?_, hknown⟩
  obtain ⟨s, hs, rfl⟩ := List.mem_map.mp ht
  exact hknown s hs

theorem KeepsExports.iterate {state : Catalog × List Shader} (h : KeepsExports lexed state)
    (k : Nat) : KeepsExports lexed ((Shader.pass lexed)^[k] state) := by
  induction k with
  | zero => exact h
  | succ k ih =>
    rw [Function.iterate_succ_apply']
    exact ih.pass

end Shader

end ShaderPress
