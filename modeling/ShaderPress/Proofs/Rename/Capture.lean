import Mathlib
import ShaderPress.Shader.Artifact
import ShaderPress.Proofs.Rename.Allocation

/-! # No generated name captures another identifier

Both artifacts spell an identifier by the table or, where switches are preserved, a
switch by its plain name.  All spellings that are not generated are claimed before the
first name is generated, so a generated name differs from the spelling of every other
identifier in either artifact.
-/
namespace ShaderPress.EmitContext
open RenameTable NameStyle
variable {c : Catalog} {t : RenameTable}

theorem spelling_of_get? (options : MinifyOptions) {preserve : Bool} {x : Ident}
    {name : List Char} (hs : ¬ (preserve = true ∧ c.isSwitch x = true))
    (hn : t.get? x = some name) : spelling ⟨t, c, options⟩ preserve x = .ok name := by
  simp only [spelling, Bool.and_eq_true, hs, if_false, outputName, hn]

theorem spelling_of_isSwitch (options : MinifyOptions) {preserve : Bool} {x : Ident}
    (hs : preserve = true ∧ c.isSwitch x = true) :
    spelling ⟨t, c, options⟩ preserve x = .ok (Ident.stripSigil x) := by
  simp only [spelling, Bool.and_eq_true, hs, and_self, if_true]

/-- An identifier is spelled by a spelling claimed beforehand, or renamed and spelled by its name. -/
theorem spelling_cases (h : allocate c false = .ok t) (options : MinifyOptions) (preserve : Bool)
    {x : Ident} (hx : x ∈ c.names) :
    ∃ name, spelling ⟨t, c, options⟩ preserve x = .ok name ∧
      (name ∈ claimed c ∨ x ∈ renamed c ∧ t.get? x = some name) := by
  by_cases hs : preserve = true ∧ c.isSwitch x = true
  · exact ⟨_, spelling_of_isSwitch options hs, Or.inl (stripSigil_mem_claimed hs.2)⟩
  · cases hr : Ident.isRenameable x with
    | true =>
      have hxr := mem_renamed.mpr ⟨hx, hr⟩
      obtain ⟨name, hn, -⟩ := get?_of_renamed h hxr
      exact ⟨name, spelling_of_get? options hs hn, Or.inr ⟨hxr, hn⟩⟩
    | false =>
      have hk := mem_kept.mpr ⟨hx, hr⟩
      exact ⟨_, spelling_of_get? options hs (get?_of_kept h hk), Or.inl (literal_mem_claimed hk)⟩

/-- A renamed identifier has a well-shaped name, by which it is spelled unless it is a
preserved switch, and neither artifact spells another identifier by that name.  All other
identifiers keep their spelling. -/
theorem no_capture (h : allocate c false = .ok t) (options : MinifyOptions) :
    (∀ x ∈ c.names, Ident.isRenameable x = true → ∃ name, t.get? x = some name ∧
      Generated (styleOf x) name ∧
      (∀ preserve, ¬ (preserve = true ∧ c.isSwitch x = true) →
        spelling ⟨t, c, options⟩ preserve x = .ok name) ∧
      ∀ y ∈ c.names, x ≠ y → ∀ preserve, ∃ other,
        spelling ⟨t, c, options⟩ preserve y = .ok other ∧ name ≠ other) ∧
    ∀ x ∈ c.names, Ident.isRenameable x = false → t.get? x = some (Ident.literal x) := by
  refine ⟨?_, fun x hx hr => get?_of_kept h (mem_kept.mpr ⟨hx, hr⟩)⟩
  intro x hx hr
  have hxr := mem_renamed.mpr ⟨hx, hr⟩
  obtain ⟨name, hn, hclaimed, hgen⟩ := get?_of_renamed h hxr
  refine ⟨name, hn, hgen, fun preserve hs => spelling_of_get? options hs hn, ?_⟩
  intro y hy hxy preserve
  obtain ⟨other, ho, hcases⟩ := spelling_cases h options preserve hy
  refine ⟨other, ho, ?_⟩
  rintro rfl
  rcases hcases with hmem | ⟨hyr, hny⟩
  · exact hclaimed hmem
  · exact hxy (eq_of_get?_eq h hxr hyr hn hny)

set_option maxRecDepth 8000 in
/-- `@A` is not called `A`, which the plain spelling of the switch has claimed. -/
theorem no_capture_of_switch :
    let c := Catalog.empty.replay [.tested ['@', 'A'], .referenced ['A'], .referenced ['$', 'a']]
    let t : RenameTable := ⟨[(['$', 'a'], ['a']), (['@', 'A'], ['B']), (['A'], ['c'])]⟩
    allocate c false = .ok t ∧ ∃ name, t.get? ['@', 'A'] = some name ∧
      Generated .upperCase name ∧ ∀ y ∈ c.names, ['@', 'A'] ≠ y → ∀ preserve, ∃ other,
        spelling ⟨t, c, {}⟩ preserve y = .ok other ∧ name ≠ other := by
  intro c t
  have h : allocate c false = .ok t := by cbv
  have hr : Ident.isRenameable ['@', 'A'] = true := by cbv
  obtain ⟨name, hn, hg, -, hother⟩ := (no_capture h {}).1 ['@', 'A'] (by decide) hr
  exact ⟨h, name, hn, hg, hother⟩

end ShaderPress.EmitContext
