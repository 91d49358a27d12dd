import Mathlib.Algebra.BigOperators.Group.Finset.Basic
import ShaderPress.Proofs.Shader.Fixpoint
import ShaderPress.Proofs.Shader.Passes

/-! # How many passes stripping makes

A pass that reports a removal leaves fewer definitions than it found, counted at every depth, so
there are no more such passes than definitions at the start.  The first pass that reports none is
the last one.  This holds whatever the catalogs count, even if they have nothing to do with the
shaders.
-/
namespace ShaderPress.Shader
open Token
variable {lexed current : Catalog} {shaders : List Shader} {state : Catalog × List Shader}

/-- How many definitions the next pass reports as removed. -/
def dropped (state : Catalog × List Shader) : Nat := totalRemoved state.1 state.2

/-- The loop makes `last` passes that each report a removal and one more that reports none.  It
returns the state behind that one and the sum of the reports. -/
structure EndsAfter (lexed : Catalog) (state : Catalog × List Shader) (last : Nat) (r : Stripped) :
    Prop where
  goesOn : ∀ k < last, dropped ((pass lexed)^[k] state) ≠ 0
  stops : dropped ((pass lexed)^[last] state) = 0
  left : (r.catalog, r.shaders) = (pass lexed)^[last + 1] state
  total : r.removed = ∑ k ∈ Finset.range last, dropped ((pass lexed)^[k] state)

/-- One more pass in front that reports a removal. -/
theorem EndsAfter.before {last : Nat} {r : Stripped} (h : EndsAfter lexed (pass lexed state) last r)
    (hstate : dropped state ≠ 0) :
    EndsAfter lexed state (last + 1) { r with removed := dropped state + r.removed } := by
  constructor
  · intro k hk
    cases k with
    | zero => exact hstate
    | succ k => exact h.goesOn k (by omega)
  · exact h.stops
  · exact h.left
  · rw [Finset.sum_range_succ']
    dsimp only
    rw [h.total, Nat.add_comm]
    rfl

/-- The definitions of the shaders bound the passes, since each pass but the last uses some up. -/
theorem exists_endsAfter (lexed current : Catalog) (shaders : List Shader) :
    ∃ last ≤ totalDefines shaders,
      EndsAfter lexed (current, shaders) last (stripFrom lexed current shaders) := by
  fun_induction stripFrom lexed current shaders with
  | case1 current shaders left counted h =>
    refine ⟨0, Nat.zero_le _, ?_, h, rfl, rfl⟩
    intro k hk
    omega
  | case2 current shaders left counted h rest ih =>
    obtain ⟨last, hlast, hends⟩ := ih
    refine ⟨last + 1, ?_, hends.before h⟩
    have hless : totalDefines left + totalRemoved current shaders ≤ totalDefines shaders :=
      totalDefines_stripAll_add_removed_le current shaders
    omega

/-- What is removed and what is left were there before. -/
theorem totalDefines_stripFrom_add_removed_le (lexed current : Catalog) (shaders : List Shader) :
    totalDefines (stripFrom lexed current shaders).shaders +
      (stripFrom lexed current shaders).removed ≤ totalDefines shaders := by
  fun_induction stripFrom lexed current shaders with
  | case1 current shaders left counted h =>
    have hless : totalDefines left + totalRemoved current shaders ≤ totalDefines shaders :=
      totalDefines_stripAll_add_removed_le current shaders
    dsimp only
    omega
  | case2 current shaders left counted h rest ih =>
    have hless : totalDefines left + totalRemoved current shaders ≤ totalDefines shaders :=
      totalDefines_stripAll_add_removed_le current shaders
    have hrest : totalDefines rest.shaders + rest.removed ≤ totalDefines left := ih
    dsimp only
    omega

/-- The macro definitions of some shaders, at every depth. -/
def allDefinitions (shaders : List Shader) : List (List Char × Nat × Ident) :=
  shaders.flatMap fun s => definitions s.tokens

theorem length_allDefinitions (shaders : List Shader) :
    (allDefinitions shaders).length = totalDefines shaders := by
  induction shaders with
  | nil => rfl
  | cons s ss ih =>
    have hs : (definitions s.tokens).length = s.defines := length_definitions s.tokens
    have htotal : totalDefines (s :: ss) = s.defines + totalDefines ss := rfl
    rw [allDefinitions, List.flatMap_cons, List.length_append, ← allDefinitions]
    omega

/-- Nothing is reported as removed exactly if every definition is still there. -/
theorem removed_stripFrom_eq_zero_iff_definitions :
    (stripFrom lexed current shaders).removed = 0 ↔
      (stripFrom lexed current shaders).shaders.map (fun s => definitions s.tokens) =
        shaders.map fun s => definitions s.tokens := by
  constructor
  · intro h
    have hround : totalRemoved current shaders = 0 := removed_stripFrom_eq_zero_iff.mp h
    rw [stripFrom, dif_pos hround, stripAll_eq hround, List.map_map]
    apply List.map_congr_left
    intro s hs
    exact definitions_strip_keepAll s.tokens
  · intro h
    have hlength : (allDefinitions (stripFrom lexed current shaders).shaders).length =
        (allDefinitions shaders).length := by
      rw [allDefinitions, allDefinitions, List.flatMap_def, List.flatMap_def, h]
    have hle := totalDefines_stripFrom_add_removed_le lexed current shaders
    rw [length_allDefinitions, length_allDefinitions] at hlength
    omega

/-- Stripping a batch ends, whatever catalog it is given: it makes at most one pass more than there
are definitions, reports at most their number, and none only if each of them is still there.  Its
catalog is a recount of what is left. -/
theorem stripBatch_ends (lexed : Catalog) (shaders : List Shader) :
    let r := stripBatch lexed shaders
    (∃ last ≤ (allDefinitions shaders).length, EndsAfter lexed (lexed, shaders) last r) ∧
      r.removed ≤ (allDefinitions shaders).length ∧
      (r.removed = 0 ↔ r.shaders.map (fun s => definitions s.tokens) =
        shaders.map fun s => definitions s.tokens) ∧
      r.catalog = lexed.recount (r.shaders.map tokens) := by
  intro r
  rw [length_allDefinitions]
  refine ⟨exists_endsAfter lexed lexed shaders, ?_, removed_stripFrom_eq_zero_iff_definitions,
    (stripFrom_spec lexed lexed shaders).2⟩
  have hle : totalDefines r.shaders + r.removed ≤ totalDefines shaders :=
    totalDefines_stripFrom_add_removed_le lexed lexed shaders
  omega

end ShaderPress.Shader
